import FlpPrototype.Transport.System
/-!
# SystemLinks — what the server makes of a connection

Between two steps of the system, what the server has in hand of a connection and what is still to come of it make the
rest of the client's stream (`Parsing`), also while the stream grows and while other connections are served.  A server
that refuses, or a queue that is full, closes the connection: nothing wrong is passed on.
-/
namespace Flp
namespace Transport

variable {c : TrClient} {s : Receiving} {text rest : Bytes} {fs gs files : List TrFile}

/-! ## A stream that grows -/

theorem encodes_append (fs gs : List TrFile) : encodes (fs ++ gs) = encodes fs ++ encodes gs := List.flatMap_append

theorem Awaits.extend (h : Awaits c s text fs) (gs : List TrFile) : Awaits c s (text ++ encodes gs) (fs ++ gs) := by
  cases h with
  | init =>
    rw [List.append_assoc, List.cons_append, ← encodes_append]
    exact .init
  | begin =>
    rw [← encodes_append]
    exact .begin
  | data hof hvalue hlen =>
    refine .data hof ?_ hlen
    rw [← List.append_assoc, hvalue, List.append_assoc, List.append_assoc, ← encodes_append]
    rfl
  | ending hof hvalue =>
    rw [List.append_assoc, ← encodes_append]
    exact .ending hof hvalue

/-- Files that are begun are added to what is awaited. -/
theorem Parsing.extend {cx : TrDataConnection} (h : Parsing c files cx text rest fs) (gs : List TrFile) :
    Parsing c (files ++ gs) cx text (rest ++ encodes gs) (fs ++ gs) where
  awaits := by
    rw [← List.append_assoc]
    exact h.awaits.extend gs
  direct := h.direct
  delivered := by
    obtain ⟨done, hfiles, hqueue⟩ := h.delivered
    exact ⟨done, by rw [hfiles, List.append_assoc], hqueue⟩

/-- With something still to come, a file is awaited, unless the opening is. -/
theorem Awaits.ne_nil (h : Awaits c s (text ++ rest) fs) (hinit : s ≠ .init) (hrest : rest ≠ []) : fs ≠ [] := by
  rintro rfl
  generalize hall : text ++ rest = all at h
  cases h with
  | init => exact hinit rfl
  | begin => exact hrest (List.append_eq_nil_iff.1 hall).2

/-- A server that has counted nothing yet has room for a file that fits. -/
theorem Fits.takes {f : TrFile} (h : Fits f) : TrStatistics.Takes ⟨0, 0⟩ f 1 := by
  unfold Fits at h
  refine ⟨?_, by decide⟩
  show 0 + 1 * f.size.toNat ≤ intMax
  omega

namespace TrDataConnection

variable {stat stat' : TrStatistics} {cx cx' : TrDataConnection} {e : ServerEnv} {l t t' : Bytes} {r : Int}

/-! ## A line, whatever the server says -/

/-- A willing server takes a file at once. -/
theorem writeFile_willing {f : TrFile} (h : stat.Takes f 1) :
    writeFile willing f 11 0 stat = some (true, stat.counted f 1) := by
  rw [writeFile, TrStatistics.count_of_takes h]
  rfl

/-- **A server that is not willing** closes the connection; what was counted makes no other difference. -/
theorem processLine_willing (h : processLine e stat cx l t = some (r, stat', cx', t')) :
    cx' = cx.connectionClose ∨ ∃ stat₁, processLine willing ⟨0, 0⟩ cx l t = some (r, stat₁, cx', t') := by
  unfold processLine at h ⊢
  cases hs : cx.state with
  | waitingFileBegin =>
    rw [hs] at h
    simp only at h ⊢
    split at h
    · cases h
      exact .inl rfl
    · split at h
      · cases h
        exact .inl rfl
      · rename_i hsize
        obtain ⟨⟨cx₁, t₁⟩, hbegin, hcx⟩ := Option.map_eq_some_iff.1 h
        cases hcx
        rw [dif_neg hsize, hbegin]
        exact .inr ⟨_, rfl⟩
  | waitingFileEnd f =>
    rw [hs] at h
    simp only at h ⊢
    split at h
    · rename_i hend
      obtain ⟨⟨taken, stat₁⟩, hwrite, hcx⟩ := Option.map_eq_some_iff.1 h
      cases taken with
      | true =>
        cases hcx
        obtain ⟨-, htakes, htaken⟩ := writeFile_eq_some hwrite
        have hpos : 1 ≤ e.tries f.file 11 0 := by
          rw [ServerEnv.tries]
          split
          · exact Nat.le_refl 1
          · exact Nat.le_add_left 1 _
        have hone : TrStatistics.Takes ⟨0, 0⟩ f.file 1 := by
          have hbytes := ((htakes (by decide)).mono hpos).1
          refine ⟨?_, by decide⟩
          show 0 + 1 * f.file.size.toNat ≤ intMax
          omega
        rw [if_pos hend, writeFile_willing hone]
        exact .inr ⟨_, rfl⟩
      | false =>
        cases hcx
        exact .inl rfl
    · cases h
      exact .inl rfl
  | init =>
    rw [hs] at h
    simp only at h ⊢
    rw [if_pos (show willing.ready = 6 from rfl)]
    by_cases hready : e.ready = 6
    · rw [if_pos hready] at h
      cases h
      exact .inr ⟨_, rfl⟩
    · rw [if_neg hready] at h
      cases h
      exact .inl rfl
  | receivingFile f =>
    rw [hs] at h
    cases h
    exact .inr ⟨_, rfl⟩
  | closed =>
    rw [hs] at h
    cases h
    exact .inr ⟨_, rfl⟩

/-- The opening is not awaited again. -/
theorem processLine_init (h : processLine e stat cx l t = some (r, stat', cx', t')) : cx'.state ≠ .init := by
  unfold processLine at h
  cases hs : cx.state with
  | waitingFileBegin =>
    rw [hs] at h
    simp only at h
    split at h
    · cases h
      exact fun e => by cases e
    · split at h
      · cases h
        exact fun e => by cases e
      · obtain ⟨⟨cx₁, t₁⟩, hbegin, hcx⟩ := Option.map_eq_some_iff.1 h
        obtain ⟨n, -, hn⟩ := Option.map_eq_some_iff.1 hbegin
        cases hn
        cases hcx
        simp only
        split <;> exact fun e => by cases e
  | waitingFileEnd f =>
    rw [hs] at h
    simp only at h
    split at h
    · obtain ⟨⟨taken, stat₁⟩, -, hcx⟩ := Option.map_eq_some_iff.1 h
      cases taken <;> cases hcx <;> exact fun e => by cases e
    · cases h
      exact fun e => by cases e
  | init =>
    rw [hs] at h
    cases h
    split <;> exact fun e => by cases e
  | receivingFile f =>
    rw [hs] at h
    cases h
    rw [hs]
    exact fun e => by cases e
  | closed =>
    rw [hs] at h
    cases h
    rw [hs]
    exact fun e => by cases e

theorem firstLine_newline (h : firstLine text = some (l, t)) : newline ∈ text := by
  by_contra hline
  rw [firstLine_none hline] at h
  cases h

/-- **A line of the buffer**, if it is dealt with at all: the connection is closed, or the stream goes on. -/
theorem line_goesOn (h : Parsing c files cx text rest fs) (hopens : c.Opens) (hfiles : ∀ f ∈ files, f.Sendable ∧ Fits f)
    (hfirst : firstLine text = some (l, t)) (hprocess : processLine e stat cx l t = some (r, stat', cx', t')) :
    cx' = cx.connectionClose ∨ r = 0 ∧ ∃ fs', Parsing c files cx' t' rest fs' := by
  rcases processLine_willing hprocess with hclosed | ⟨stat₁, hwilling⟩
  · exact .inl hclosed
  · have htakes : ∀ f ∈ fs.head?, TrStatistics.Takes ⟨0, 0⟩ f 1 := fun f hf =>
      (h.of_files hfiles f (List.mem_of_mem_head? hf)).2.takes
    rcases line_step h hopens hfiles willing_accepts (by decide) htakes with hline |
      ⟨l', t₁, stat₂, cx₁, t₂, fs', hfirst', hprocess', hparsing, -⟩
    · exact absurd (firstLine_newline hfirst) hline
    · obtain ⟨rfl, rfl⟩ := Prod.mk.inj (Option.some.inj (hfirst.symm.trans hfirst'))
      rw [hprocess'] at hwilling
      cases hwilling
      exact .inr ⟨rfl, fs', hparsing⟩

/-- What a turn of the loop over the lines leaves to parse. -/
def Turn.left : Turn → Bytes
  | .done _ _ cx   => cx.buffer
  | .more _ _ text => text

/-- **A turn of the loop**: the connection is closed, or the stream goes on. -/
theorem turn_goesOn {behind : Bool} {turn : Turn} (h : Parsing c files cx text rest fs) (hopens : c.Opens)
    (hfiles : ∀ f ∈ files, f.Sendable ∧ Fits f) (hbuffer : behind = false → cx.buffer = text)
    (hturn : parseTurn e stat cx text behind = some turn) :
    turn.connection = cx.connectionClose ∨ ∃ fs', Parsing c files turn.connection turn.left rest fs' := by
  unfold parseTurn at hturn
  rw [if_neg h.isOpen] at hturn
  split at hturn
  · rename_i hnone
    split at hturn
    · cases hturn
      exact .inr ⟨fs, h.awaits, h.direct, h.delivered⟩
    · rename_i hbehind
      have hbuffer := hbuffer (Bool.eq_false_iff.2 hbehind)
      split at hturn
      · cases hturn
        exact .inl rfl
      · cases hturn
        exact .inr ⟨fs, by rw [Turn.connection, Turn.left, hbuffer]; exact h⟩
  · rename_i l t hfirst
    split at hturn
    · cases hturn
    · rename_i r stat' cx' t' hprocess
      rcases line_goesOn h hopens hfiles hfirst hprocess with rfl | ⟨rfl, fs', hparsing⟩
      · split at hturn
        · cases hturn
          exact .inl rfl
        · cases hturn
          exact .inl rfl
      · rw [if_neg (by decide)] at hturn
        cases hturn
        exact .inr ⟨fs', hparsing⟩

theorem turn_init {behind : Bool} {turn : Turn} (hturn : parseTurn e stat cx text behind = some turn)
    (hinit : turn.connection.state = .init) : turn.connection.outputQueue = cx.outputQueue ∧ cx.state = .init := by
  unfold parseTurn at hturn
  split at hturn
  · cases hturn
    exact ⟨rfl, hinit⟩
  · split at hturn
    · split at hturn
      · cases hturn
        exact ⟨rfl, hinit⟩
      · split at hturn
        · cases hturn
          exact ⟨rfl, by cases hinit⟩
        · cases hturn
          exact ⟨rfl, hinit⟩
    · split at hturn
      · cases hturn
      · rename_i hprocess
        have hnot := processLine_init hprocess
        split at hturn
        · cases hturn
          exact absurd hinit hnot
        · cases hturn
          exact absurd hinit hnot

/-- What is left to parse when `read` has given something. -/
def textOf (cx : TrDataConnection) (data : Bytes) : Bytes := (cx.beginRead data).2.getD (cx.beginRead data).1.buffer

theorem beginRead_buffered {data : Bytes} (hne : data ≠ []) (hdirect : ¬cx.state.Direct) :
    cx.beginRead data = ({ cx with buffer := cx.buffer ++ data }, some (cx.buffer ++ data)) := by
  rw [beginRead, if_neg hne]
  cases hs : cx.state with
  | receivingFile g => exact absurd (by rw [hs]; exact trivial) hdirect
  | init | waitingFileBegin | waitingFileEnd | closed => rfl

theorem beginRead_buffer {data : Bytes} (h : (cx.beginRead data).2 = some t) : (cx.beginRead data).1.buffer = t := by
  unfold beginRead at h ⊢
  split at h
  · cases h
  · rename_i hne
    rw [if_neg hne]
    cases hs : cx.state with
    | receivingFile g =>
      rw [hs] at h
      cases h
    | init | waitingFileBegin | waitingFileEnd | closed =>
      rw [hs] at h
      exact Option.some.inj h

/-- The opening is awaited as before. -/
theorem beginRead_init {data : Bytes} (h : (cx.beginRead data).1.state = .init) :
    (cx.beginRead data).1.outputQueue = cx.outputQueue ∧ cx.state = .init := by
  by_cases hne : data = []
  · rw [beginRead, if_pos hne] at h
    cases h
  by_cases hdirect : cx.state.Direct
  · obtain ⟨g, hstate⟩ := exists_of_direct hdirect
    rw [beginRead, if_neg hne, hstate] at h
    simp only at h
    split at h <;> cases h
  · rw [beginRead_buffered hne hdirect] at h ⊢
    exact ⟨rfl, h⟩

/-- **What `read` gives** is the beginning of what was to come. -/
theorem read_goesOn {data : Bytes} (h : Parsing c files cx cx.buffer (data ++ rest) fs)
    (hfiles : ∀ f ∈ files, f.Sendable ∧ Fits f) (hlen : data.length ≤ cx.asked) :
    (cx.beginRead data).1 = cx.connectionClose ∨
      ∃ fs', Parsing c files (cx.beginRead data).1 (cx.textOf data) rest fs' := by
  by_cases hne : data = []
  · rw [beginRead, if_pos hne]
    exact .inl rfl
  by_cases hdirect : cx.state.Direct
  · obtain ⟨g, hstate⟩ := exists_of_direct hdirect
    have hbuffer := h.direct hdirect
    have hdirect : ∃ cx', connectionRead willing ⟨0, 0⟩ cx data = some (0, ⟨0, 0⟩, cx') ∧ Between c files cx' rest fs :=
      direct_step hfiles hstate hne hlen ⟨h, by rw [hbuffer]; exact List.not_mem_nil⟩
    obtain ⟨cx', hread, hbetween⟩ := hdirect
    rw [connectionRead, if_neg h.isOpen, if_neg hne, hstate] at hread
    rw [textOf, beginRead, if_neg hne, hstate]
    cases hread
    exact .inr ⟨fs, hbetween.1⟩
  · rw [textOf, beginRead_buffered hne hdirect]
    have hawaits := h.awaits
    rw [← List.append_assoc] at hawaits
    exact .inr ⟨fs, hawaits, fun h => absurd h hdirect, h.delivered⟩

end TrDataConnection

/-! ## A connection in the table -/

namespace TrServer

variable {server server' : TrServer} {i k : Nat} {slot : TrSlot} {stat : TrStatistics} {cx cx' : TrDataConnection}
  {t : Bytes}

/-- What is to be parsed of the connection of a slot. -/
def textOf (server : TrServer) (i : Nat) (cx : TrDataConnection) : Bytes :=
  match server.parsing with
  | some (j, t, _) => if j = i then t else cx.buffer
  | none           => cx.buffer

/-- A connection is open in some slot, with this to be parsed. -/
def Holds (server : TrServer) (k : Nat) (cx : TrDataConnection) (t : Bytes) : Prop :=
  ∃ i slot, server.cxTable[i]? = some slot ∧ slot.IsOpen ∧ slot.connection = k ∧ slot.cx = cx ∧ t = server.textOf i cx

/-- What the application has got on a connection. -/
def receivedOn (server : TrServer) (k : Nat) : List TrFile := (server.received.filter (·.connection = k)).map (·.file)

/-- Before anything is parsed, the buffer is what is to be parsed. -/
def Parses (server : TrServer) : Prop := ∀ i t slot, server.parsing = some (i, t, false) →
  server.cxTable[i]? = some slot → slot.cx.buffer = t

theorem receivedOn_update (server : TrServer) (i : Nat) (slot : TrSlot) (cx : TrDataConnection)
    (p : Option (Nat × Bytes × Bool)) (k : Nat) : (server.update i slot stat cx p).receivedOn k = server.receivedOn k ++
      if slot.connection = k then cx.outputQueue.drop slot.cx.outputQueue.length else [] := by
  unfold receivedOn update
  rw [List.filter_append, List.map_append]
  congr 1
  by_cases hk : slot.connection = k
  · rw [if_pos hk, List.filter_eq_self.2 fun g hg => by
      obtain ⟨f, -, rfl⟩ := List.mem_map.1 hg
      exact decide_eq_true hk, List.map_map]
    exact List.map_id _
  · rw [if_neg hk, List.filter_eq_nil_iff.2 fun g hg => by
      obtain ⟨f, -, rfl⟩ := List.mem_map.1 hg
      exact fun h => hk (of_decide_eq_true h)]
    rfl

/-- **Part of a call** changes what is held of its connection only. -/
theorem Holds.update {p : Option (Nat × Bytes × Bool)} (h : (server.update i slot stat cx' p).Holds k cx t)
    (hinv : server.Inv) (hslot : server.cxTable[i]? = some slot) (hopen : slot.IsOpen)
    (hold : ∀ q, server.parsing = some q → q.1 = i) (hnew : ∀ q, p = some q → q.1 = i) :
    (k = slot.connection ∧ cx = cx' ∧ cx'.state ≠ .closed ∧ t = (p.map (·.2.1)).getD cx'.buffer) ∨
      (k ≠ slot.connection ∧ server.Holds k cx t) := by
  obtain ⟨j, slot', hslot', hopen', hk, hcx, ht⟩ := h
  have htext : ∀ (q : Option (Nat × Bytes × Bool)) (s : TrServer) (cx : TrDataConnection), s.parsing = q →
      (∀ r, q = some r → r.1 = i) → j ≠ i → s.textOf j cx = cx.buffer := fun q s cx hq hi hne => by
    unfold textOf
    rw [hq]
    cases q with
    | none => rfl
    | some r => exact if_neg fun e => hne (e.symm.trans (hi r rfl))
  rcases getElem?_set_cases hslot' with ⟨rfl, rfl⟩ | ⟨hne, hslot'⟩
  · refine .inl ⟨hk.symm, hcx.symm, hopen', ?_⟩
    rw [ht]
    unfold textOf
    cases p with
    | none => rw [show (server.update j slot stat cx' none).parsing = none from rfl, ← hcx]; rfl
    | some q =>
      rw [show (server.update j slot stat cx' (some q)).parsing = some q from rfl]
      exact if_pos (hnew q rfl)
  · refine .inr ⟨fun e => hne (hinv.distinct j i slot' slot hslot' hslot hopen' hopen (hk.trans e)),
      j, slot', hslot', hopen', hk, hcx, ?_⟩
    rw [ht, htext _ _ cx rfl hnew hne, htext _ _ cx rfl hold hne]

/-- **A connection accepted** is held with nothing to be parsed. -/
theorem Holds.accept (h : server'.Holds k cx t) (hs : server.accept = some server') (hidle : server.parsing = none) :
    server.Holds k cx t ∨ server'.accepted = server.accepted + 1 ∧ k = server.accepted ∧
      (∃ id, cx = .start id) ∧ t = [] := by
  unfold TrServer.accept at hs
  split at hs
  · cases hs
    exact .inl h
  · rename_i i hfree
    obtain ⟨n, hn, rfl⟩ := Option.map_eq_some_iff.1 hs
    obtain ⟨j, slot', hslot', hopen', hk, hcx, ht⟩ := h
    rw [List.getElem?_modify] at hslot'
    have ht : t = cx.buffer := by
      rw [ht]
      unfold textOf
      rw [show TrServer.parsing { server with
        cxTable := server.cxTable.modify i fun slot =>
          ⟨.start server.cxCounter, { slot.ackFile with minId := 0, majId := 0 }, 0, server.accepted⟩
        cxCounter := n
        accepted := server.accepted + 1 } = none from hidle]
    split at hslot'
    · obtain ⟨slot₀, -, rfl⟩ := Option.map_eq_some_iff.1 hslot'
      subst hcx
      exact .inr ⟨rfl, hk.symm, ⟨_, rfl⟩, ht⟩
    · obtain ⟨slot₀, hslot₀, rfl⟩ := Option.map_eq_some_iff.1 hslot'
      refine .inl ⟨j, slot₀, hslot₀, hopen', hk, hcx, ?_⟩
      unfold textOf
      rw [hidle]
      exact ht

/-- Slots have the same connections, in the same state of reception; `server` is the later one. -/
structure SameReception (server server' : TrServer) : Prop where
  received : server.received = server'.received
  accepted : server.accepted = server'.accepted
  parsing : server.parsing = server'.parsing
  acked : ∀ g ∈ server'.acked, g ∈ server.acked
  sent : ∀ a ∈ server'.sent, a ∈ server.sent
  table : ∀ (i : Nat) slot, server.cxTable[i]? = some slot →
    ∃ slot', server'.cxTable[i]? = some slot' ∧ slot'.cx = slot.cx ∧ slot'.connection = slot.connection

theorem SameReception.holds (h : server'.SameReception server) (hh : server'.Holds k cx t) : server.Holds k cx t := by
  obtain ⟨i, slot, hslot, hopen, hk, hcx, ht⟩ := hh
  obtain ⟨slot', hslot', hcx', hk'⟩ := h.table i slot hslot
  refine ⟨i, slot', hslot', by unfold TrSlot.IsOpen at hopen ⊢; rw [hcx']; exact hopen, hk'.trans hk, hcx'.trans hcx,
    ?_⟩
  rw [ht]
  unfold textOf
  rw [h.parsing]

theorem sameReception_set {slot' : TrSlot} (htable : server'.cxTable = server.cxTable.set i slot')
    (hslot : server.cxTable[i]? = some slot) (hcx : slot'.cx = slot.cx)
    (hconnection : slot'.connection = slot.connection)
    (hreceived : server'.received = server.received) (haccepted : server'.accepted = server.accepted)
    (hparsing : server'.parsing = server.parsing) (hacked : ∀ g ∈ server.acked, g ∈ server'.acked)
    (hsent : ∀ a ∈ server.sent, a ∈ server'.sent) : server'.SameReception server :=
  ⟨hreceived, haccepted, hparsing, hacked, hsent, fun j x hx => by
    rw [htable] at hx
    rcases getElem?_set_cases hx with ⟨rfl, rfl⟩ | ⟨-, hx⟩
    · exact ⟨slot, hslot, hcx.symm, hconnection.symm⟩
    · exact ⟨x, hx, rfl, rfl⟩⟩

theorem ackFile_same {g : Received} (hs : server.ackFile g = some server') : server'.SameReception server := by
  have plain : SameReception { server with acked := server.acked ++ [g] } server :=
    ⟨rfl, rfl, rfl, fun _ hg => List.mem_append_left _ hg, fun _ ha => ha, fun i slot h => ⟨slot, h, rfl, rfl⟩⟩
  unfold ackFile at hs
  cases hslot : server.cxTable[g.slot]? with
  | none =>
    rw [hslot] at hs
    obtain rfl := Option.some.inj hs
    exact plain
  | some slot =>
    rw [hslot] at hs
    simp only at hs
    split at hs
    · obtain ⟨n, -, rfl⟩ := Option.map_eq_some_iff.1 hs
      exact sameReception_set rfl hslot rfl rfl rfl rfl rfl (fun _ hg => List.mem_append_left _ hg) fun _ ha => ha
    · obtain rfl := Option.some.inj hs
      exact plain

theorem acknowledgeFiles_same (server : TrServer) (i minNumber : Nat) (result : Int) :
    (server.acknowledgeFiles i minNumber result).SameReception server := by
  have plain : SameReception server server :=
    ⟨rfl, rfl, rfl, fun _ hg => hg, fun _ ha => ha, fun i slot h => ⟨slot, h, rfl, rfl⟩⟩
  unfold acknowledgeFiles
  cases hslot : server.cxTable[i]? with
  | none => exact plain
  | some slot =>
    simp only
    split
    · exact sameReception_set rfl hslot rfl rfl rfl rfl rfl (fun _ hg => hg) fun _ ha => List.mem_append_left _ ha
    · exact plain

theorem printStats_same (server : TrServer) : server.printStats.SameReception server :=
  ⟨rfl, rfl, rfl, fun _ hg => hg, fun _ ha => ha, fun _ slot h => ⟨slot, h, rfl, rfl⟩⟩

/-- At most a line is sent, on the connection of the slot. -/
theorem acknowledgeFiles_sent (server : TrServer) (i minNumber : Nat) (result : Int) :
    (server.acknowledgeFiles i minNumber result).sent = server.sent ∨ ∃ slot, server.cxTable[i]? = some slot ∧
      slot.IsOpen ∧
      (server.acknowledgeFiles i minNumber result).sent =
        server.sent ++ [⟨slot.connection, slot.ackFile.minId, slot.ackFile.majId⟩] := by
  unfold acknowledgeFiles
  cases hslot : server.cxTable[i]? with
  | none => exact .inl rfl
  | some slot =>
    simp only
    split
    · rename_i hsend
      exact .inr ⟨slot, rfl, hsend.1, rfl⟩
    · exact .inl rfl

end TrServer

/-! ## A connection as a whole -/

/-- **What is known of a connection**, `rest` being what the client has still to send of the file under way. -/
structure LinkOk (server : TrServer) (k : Nat) (l : Link) (rest : Bytes) : Prop where
  opens : l.opening.Opens
  files : ∀ f ∈ l.files, f.Sendable ∧ Fits f
  stream : l.stream ++ rest = l.opening.iniLine ++ encodes l.files
  unsent : l.sending ≠ none → rest ≠ []
  arrived : l.arrived ≤ l.stream.length
  held : ∀ cx t, server.Holds k cx t → (∃ fs, Parsing l.opening l.files cx t (l.underWay ++ rest) fs) ∧
    cx.outputQueue = server.receivedOn k ∧ (cx.state = .init → cx.outputQueue = [])
  got : (server.receivedOn k).map TrFile.contents <+: l.finished.map TrFile.contents
  replies : ∀ line ∈ l.replies, line = readyLine ∨ ∃ a ∈ server.sent, a.connection = k ∧ line = ackLine a.minId a.majId

namespace LinkOk

variable {server server' : TrServer} {k i : Nat} {l l' : Link} {slot : TrSlot} {stat : TrStatistics}
  {cx cx' : TrDataConnection}
  {p : Option (Nat × Bytes × Bool)}

/-- What the server does elsewhere. -/
theorem frame (h : LinkOk server k l rest) (hholds : ∀ cx t, server'.Holds k cx t → server.Holds k cx t)
    (hreceived : server'.receivedOn k = server.receivedOn k) (hsent : ∀ a ∈ server.sent, a ∈ server'.sent) :
    LinkOk server' k l rest where
  opens := h.opens
  files := h.files
  stream := h.stream
  unsent := h.unsent
  arrived := h.arrived
  held := fun cx t hh => by
    rw [hreceived]
    exact h.held cx t (hholds cx t hh)
  got := by
    rw [hreceived]
    exact h.got
  replies := fun line hl => by
    rcases h.replies line hl with hready | ⟨a, ha, hack⟩
    · exact .inl hready
    · exact .inr ⟨a, hsent a ha, hack⟩

/-- The files delivered are files sent completely: of the file under way something is still to be sent. -/
theorem delivered {t : Bytes} (hparsing : Parsing l.opening l.files cx t (l.underWay ++ rest) fs)
    (hinit : cx.state = .init → cx.outputQueue = []) (hunsent : l.sending ≠ none → rest ≠ []) :
    cx.outputQueue.map TrFile.contents <+: l.finished.map TrFile.contents := by
  obtain ⟨done, hfiles, hqueue⟩ := hparsing.delivered
  rw [hqueue]
  refine List.IsPrefix.map _ ?_
  cases hsending : l.sending with
  | none =>
    rw [Link.files, hsending, Option.toList_none, List.append_nil] at hfiles
    rw [hfiles]
    exact List.prefix_append _ _
  | some f =>
    have hrest : l.underWay ++ rest ≠ [] := List.append_ne_nil_of_right_ne_nil _ (hunsent (by rw [hsending]; simp))
    by_cases hstate : cx.state = .init
    · rw [hinit hstate, List.map_nil] at hqueue
      rw [List.map_eq_nil_iff.1 hqueue.symm]
      exact List.nil_prefix
    · have hne := hparsing.awaits.ne_nil hstate hrest
      obtain ⟨gs, g, rfl⟩ := List.eq_nil_or_concat fs |>.resolve_left hne
      rw [Link.files, hsending, Option.toList_some, List.concat_eq_append, ← List.append_assoc] at hfiles
      rw [(List.append_inj' hfiles rfl).1]
      exact List.prefix_append _ _

/-- **The server goes on with the connection**: it is closed, or its stream goes on. -/
theorem goOn (h : LinkOk server k l rest) (hinv : server.Inv) (hslot : server.cxTable[i]? = some slot)
    (hopen : slot.IsOpen) (hk : slot.connection = k) (hold : ∀ q, server.parsing = some q → q.1 = i)
    (hnew : ∀ q, p = some q → q.1 = i) (hl : l' = { l with arrived := l'.arrived, replies := l'.replies })
    (harrived : l'.arrived ≤ l.stream.length)
    (hreplies : ∀ line ∈ l'.replies, line ∈ l.replies ∨ line = readyLine) (hpasses : slot.cx.Passes cx')
    (hinit : cx'.state = .init → cx'.outputQueue = slot.cx.outputQueue ∧ slot.cx.state = .init)
    (hgoes : cx' = slot.cx.connectionClose ∨
      ∃ fs', Parsing l.opening l.files cx' ((p.map (·.2.1)).getD cx'.buffer) (l'.underWay ++ rest) fs') :
    LinkOk (server.update i slot stat cx' p) k l' rest := by
  subst hk
  have hheld := h.held slot.cx (server.textOf i slot.cx) ⟨i, slot, hslot, hopen, rfl, rfl, rfl⟩
  have hinit' : cx'.state = .init → cx'.outputQueue = [] := fun hs => by
    rw [(hinit hs).1]
    exact hheld.2.2 (hinit hs).2
  have hreceived : (server.update i slot stat cx' p).receivedOn slot.connection = cx'.outputQueue := by
    rw [TrServer.receivedOn_update, if_pos rfl, ← hheld.2.1]
    rcases hpasses.queue with hq | ⟨f, -, -, hq⟩
    · rw [hq, List.drop_length, List.append_nil]
    · rw [hq, List.drop_left' rfl]
  have hfiles : l'.files = l.files ∧ l'.opening = l.opening ∧ l'.finished = l.finished ∧ l'.sending = l.sending ∧
      l'.stream = l.stream := by
    rw [hl]
    exact ⟨rfl, rfl, rfl, rfl, rfl⟩
  obtain ⟨hfiles, hopening, hfinished, hsending, hstream⟩ := hfiles
  refine ⟨hopening ▸ h.opens, by rw [hfiles]; exact h.files, by rw [hstream, hopening, hfiles]; exact h.stream,
    by rw [hsending]; exact h.unsent, by rw [hstream]; exact harrived, fun cx t hh => ?_, ?_, fun line hline => ?_⟩
  · rcases hh.update hinv hslot hopen hold hnew with ⟨-, rfl, hstate, rfl⟩ | ⟨hne, -⟩
    · rcases hgoes with hclosed | hparsing
      · exact absurd (by rw [hclosed]; rfl) hstate
      · rw [hopening, hfiles]
        exact ⟨hparsing, hreceived.symm, hinit'⟩
    · exact absurd rfl hne
  · rw [hreceived, hfinished]
    rcases hgoes with hclosed | ⟨fs', hparsing⟩
    · rw [hclosed]
      show slot.cx.outputQueue.map TrFile.contents <+: _
      rw [hheld.2.1]
      exact h.got
    · rw [← hopening, ← hfiles] at hparsing
      rw [← hfinished]
      exact delivered hparsing hinit' (by rw [hsending]; exact h.unsent)
  · rcases hreplies line hline with hline | hready
    · exact h.replies line hline
    · exact .inl hready

/-- The server goes on with another connection. -/
theorem other (h : LinkOk server k l rest) (hinv : server.Inv) (hslot : server.cxTable[i]? = some slot)
    (hopen : slot.IsOpen) (hk : k ≠ slot.connection) (hold : ∀ q, server.parsing = some q → q.1 = i)
    (hnew : ∀ q, p = some q → q.1 = i) : LinkOk (server.update i slot stat cx' p) k l rest := by
  refine h.frame (fun cx t hh => ?_) ?_ fun _ ha => ha
  · rcases hh.update hinv hslot hopen hold hnew with ⟨he, -⟩ | ⟨-, hh⟩
    · exact absurd he hk
    · exact hh
  · rw [TrServer.receivedOn_update, if_neg fun e => hk e.symm, List.append_nil]

/-- A connection just accepted. -/
theorem new {client : TrClient} {c : Nat} (hopens : client.Opens) (hold : ∀ g ∈ server.received, g.connection < k)
    (hheld : ∀ cx t, server.Holds k cx t → (∃ id, cx = .start id) ∧ t = []) :
    LinkOk server k (.new c client) [] := by
  have hreceived : server.receivedOn k = [] := by
    unfold TrServer.receivedOn
    have hnone : server.received.filter (fun g => decide (g.connection = k)) = [] :=
      List.filter_eq_nil_iff.2 fun g hg h => Nat.ne_of_lt (hold g hg) (of_decide_eq_true h)
    rw [hnone]
    rfl
  refine ⟨hopens, fun f hf => ?_, rfl, fun h => absurd rfl h, Nat.zero_le _, fun cx t hh => ?_, ?_, fun line hl => ?_⟩
  · cases hf
  · obtain ⟨⟨id, rfl⟩, rfl⟩ := hheld cx t hh
    refine ⟨⟨[], ?_, fun _ => rfl, [], rfl, rfl⟩, hreceived.symm, fun _ => rfl⟩
    show Awaits client .init ([] ++ (client.iniLine ++ [])) []
    rw [List.nil_append, List.append_nil, TrClient.iniLine_eq hopens]
    exact @Awaits.init client []
  · rw [hreceived]
    exact List.nil_prefix
  · cases hl

/-- **The client goes on**: its socket has taken some of what was to be sent. -/
theorem sent {taken rest' : Bytes} (h : LinkOk server k l (taken ++ rest')) (hopening : l'.opening = l.opening)
    (hfiles : l'.files = l.files) (hstream : l'.stream = l.stream ++ taken) (harrived : l'.arrived = l.arrived)
    (hfinished : l.finished <+: l'.finished) (hunsent : l'.sending ≠ none → rest' ≠ [])
    (hreplies : ∀ line ∈ l'.replies, line ∈ l.replies) : LinkOk server k l' rest' where
  opens := hopening ▸ h.opens
  files := by rw [hfiles]; exact h.files
  stream := by rw [hstream, hopening, hfiles, List.append_assoc]; exact h.stream
  unsent := hunsent
  arrived := by
    rw [hstream, harrived, List.length_append]
    exact Nat.le_add_right_of_le h.arrived
  held := fun cx t hh => by
    have hway : l'.underWay ++ rest' = l.underWay ++ (taken ++ rest') := by
      unfold Link.underWay
      rw [hstream, harrived, List.drop_append_of_le_length h.arrived, List.append_assoc]
    rw [hopening, hfiles, hway]
    exact h.held cx t hh
  got := h.got.trans (hfinished.map _)
  replies := fun line hl => h.replies line (hreplies line hl)

/-- **A file is begun.** -/
theorem begin {f : TrFile} (h : LinkOk server k l []) (hf : f.Sendable ∧ Fits f) (hidle : l.sending = none) :
    LinkOk server k { l with sending := some f } f.encode where
  opens := h.opens
  files := fun g hg => by
    rcases List.mem_append.1 hg with hg | hg
    · exact h.files g (List.mem_append_left _ hg)
    · rw [List.mem_singleton.1 hg]
      exact hf
  stream := by
    have hstream := h.stream
    rw [List.append_nil, Link.files, hidle, Option.toList_none, List.append_nil] at hstream
    show l.stream ++ f.encode = l.opening.iniLine ++ encodes (l.finished ++ [f])
    rw [hstream, encodes_append, List.append_assoc, encodes, encodes, List.flatMap_singleton]
  unsent := fun _ => by
    unfold TrFile.encode trailer
    simp [ascii]
  arrived := h.arrived
  held := fun cx t hh => by
    obtain ⟨⟨fs, hparsing⟩, hrest⟩ := h.held cx t hh
    have hext := hparsing.extend [f]
    rw [List.append_nil] at hext
    have hfiles : Link.files { l with sending := some f } = l.files ++ [f] := by
      simp only [Link.files, hidle, Option.toList_none, Option.toList_some, List.append_nil]
    rw [hfiles]
    have hencode : encodes [f] = f.encode := List.flatMap_singleton ..
    rw [hencode] at hext
    exact ⟨⟨_, hext⟩, hrest⟩
  got := h.got
  replies := h.replies

/-- What was received is what was sent, from the first file on. -/
theorem mem_finished (h : LinkOk server k l rest) {g : Received} (hg : g ∈ server.received) (hk : g.connection = k) :
    ∃ before f after, l.finished = before ++ f :: after ∧ f.contents = g.file.contents ∧
      ∀ f' ∈ before, ∃ g' ∈ server.received, g'.connection = k ∧ g'.file.contents = f'.contents := by
  have hmem : g.file ∈ server.receivedOn k :=
    List.mem_map.2 ⟨g, List.mem_filter.2 ⟨hg, decide_eq_true hk⟩, rfl⟩
  obtain ⟨as, bs, hsplit⟩ := List.append_of_mem hmem
  obtain ⟨rest, hrest⟩ := h.got
  rw [hsplit, List.map_append, List.map_cons, List.append_assoc, List.cons_append] at hrest
  obtain ⟨before, tail, hfinished, hbefore, htail⟩ := List.map_eq_append_iff.1 hrest.symm
  obtain ⟨f, after, rfl, hf, -⟩ := List.map_eq_cons_iff.1 htail
  refine ⟨before, f, after, hfinished, hf, fun f' hf' => ?_⟩
  have hcontents : f'.contents ∈ as.map TrFile.contents := by
    rw [← hbefore]
    exact List.mem_map_of_mem hf'
  obtain ⟨a, ha, hcontents⟩ := List.mem_map.1 hcontents
  have ha : a ∈ server.receivedOn k := by
    rw [hsplit]
    exact List.mem_append_left _ ha
  obtain ⟨g', hg', rfl⟩ := List.mem_map.1 ha
  obtain ⟨hg', hk'⟩ := List.mem_filter.1 hg'
  exact ⟨g', hg', of_decide_eq_true hk', hcontents⟩

end LinkOk
end Transport
end Flp
