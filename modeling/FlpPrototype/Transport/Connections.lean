import FlpPrototype.Lib.Places
import FlpPrototype.Transport.Server
/-!
# Connections — what the server acknowledges

`TR_server_state_machine` of `transport_server.c` keeps its connections in a table the slots of which are used again.
The application acknowledges files it got with `TR_server_ack_file`, from another thread and at any time; each slot
keeps the last one, and `TR_server_acknowledge_files` sends its name.  What is sent on a connection names files of that
connection, as long as no counter overflows (`acks_own_files_iff`).

The server's thread is interrupted between the turns of the loop over the lines; a section under the mutex of a
connection is one step.
-/
namespace Flp
namespace Transport

namespace TrDataConnection

/-! ## A call, turn by turn -/

/-- What `read` gives is put to its place, or is the end; the text that is to be parsed then. -/
def beginRead (cx : TrDataConnection) (data : Bytes) : TrDataConnection × Option Bytes :=
  if data = [] then (cx.connectionClose, none)
  else
    match cx.state with
    | .receivingFile f =>
      let f := { f with value := f.value ++ data }
      ({ cx with state := if (f.value.length : Int) = f.size then .waitingFileEnd f else .receivingFile f }, none)
    | _ => ({ cx with buffer := cx.buffer ++ data }, some (cx.buffer ++ data))

/-- What a turn of the loop over the lines comes to. -/
inductive Turn where
  | done (r : Int) (stat : TrStatistics) (cx : TrDataConnection)
  | more (stat : TrStatistics) (cx : TrDataConnection) (text : Bytes)

/-- A turn of the loop. -/
def parseTurn (e : ServerEnv) (stat : TrStatistics) (cx : TrDataConnection) (text : Bytes) (behind : Bool) :
    Option Turn :=
  if cx.state = .closed then some (.done 0 stat cx)
  else
    match firstLine text with
    | none =>
      if behind then some (.done 0 stat { cx with buffer := text })
      else if TR_SERVER_BUFFER_SIZE - 1 ≤ cx.buffer.length then some (.done 0 stat cx.connectionClose)
      else some (.done 0 stat cx)
    | some (line, rest) =>
      match processLine e stat cx line rest with
      | none                     => none
      | some (r, stat, cx, rest) => if r ≠ 0 then some (.done r stat cx) else some (.more stat cx rest)

variable {stat stat' : TrStatistics} {cx cx' : TrDataConnection} {e : ServerEnv} {text : Bytes} {behind : Bool}

/-- **The loop is its turns.** -/
theorem parseBuffer_succ (e : ServerEnv) (fuel : Nat) (stat : TrStatistics) (cx : TrDataConnection) (text : Bytes)
    (behind : Bool) : parseBuffer e (fuel + 1) stat cx text behind =
      match parseTurn e stat cx text behind with
      | none                      => none
      | some (.done r stat cx)    => some (r, stat, cx)
      | some (.more stat cx text) => parseBuffer e fuel stat cx text true := by
  rw [parseBuffer, parseTurn]
  by_cases hclosed : cx.state = .closed
  · rw [if_pos hclosed, if_pos hclosed]
  · rw [if_neg hclosed, if_neg hclosed]
    cases firstLine text with
    | none =>
      cases behind with
      | true => rfl
      | false =>
        simp only [Bool.false_eq_true, if_false]
        split <;> rfl
    | some l =>
      simp only
      cases processLine e stat cx l.1 l.2 with
      | none => rfl
      | some r =>
        simp only
        split <;> rfl

/-- **A call** is its beginning and the loop. -/
theorem connectionRead_eq (e : ServerEnv) (stat : TrStatistics) (data : Bytes) (hopen : cx.state ≠ .closed) :
    connectionRead e stat cx data =
      match cx.beginRead data with
      | (cx, none)      => some (0, stat, cx)
      | (cx, some text) => parseBuffer e (text.length + 1) stat cx text false := by
  rw [connectionRead, if_neg hopen, beginRead]
  split
  · rfl
  · cases hs : cx.state with
    | receivingFile f => rfl
    | init | waitingFileBegin | waitingFileEnd | closed => rfl

/-! ## The files of a connection -/

/-- `current_file`. -/
def currentFile (cx : TrDataConnection) : Option Incoming :=
  match cx.state with
  | .receivingFile f  => some f
  | .waitingFileEnd f => some f
  | _                 => none

/-- The file under way is marked as one of this connection. -/
def MarksOwn (cx : TrDataConnection) : Prop := ∀ f, cx.currentFile = some f → f.id.sender = cx.cxId

/-- What part of a call does: at most a file of this connection is passed on. -/
structure Passes (cx cx' : TrDataConnection) : Prop where
  cxId : cx'.cxId = cx.cxId
  marks : cx'.MarksOwn
  queue : cx'.outputQueue = cx.outputQueue ∨
    ∃ f, cx.state ≠ .closed ∧ f.id.sender = cx.cxId ∧ cx'.outputQueue = cx.outputQueue ++ [f]
  isOpen : cx'.state ≠ .closed → cx.state ≠ .closed

theorem MarksOwn.of_none (h : cx.currentFile = none) : cx.MarksOwn := by
  intro f hf
  rw [h] at hf
  cases hf

theorem Passes.close (cx : TrDataConnection) : Passes cx cx.connectionClose :=
  ⟨rfl, .of_none rfl, .inl rfl, fun h => absurd rfl h⟩

theorem beginRead_passes (data : Bytes) (hopen : cx.state ≠ .closed) (h : cx.MarksOwn) :
    Passes cx (cx.beginRead data).1 := by
  unfold beginRead
  split
  · exact .close cx
  · cases hs : cx.state with
    | receivingFile f =>
      have hf : f.id.sender = cx.cxId := h f (by rw [currentFile, hs])
      refine ⟨rfl, fun g hg => ?_, .inl rfl, fun _ => hs ▸ hopen⟩
      simp only [currentFile] at hg
      split at hg
      · rename_i g' heq
        split at heq
        · cases heq
        · cases heq
          cases hg
          exact hf
      · rename_i g' heq
        split at heq
        · cases heq
          cases hg
          exact hf
        · cases heq
      · cases hg
    | init | waitingFileBegin | waitingFileEnd | closed =>
      refine ⟨rfl, fun g hg => h g ?_, .inl rfl, fun _ => hs ▸ hopen⟩
      simpa only [currentFile, hs] using hg

theorem processLine_passes {line t t' : Bytes} {r : Int} (h : processLine e stat cx line t = some (r, stat', cx', t'))
    (hopen : cx.state ≠ .closed) (hmarks : cx.MarksOwn) : Passes cx cx' := by
  unfold processLine at h
  cases hs : cx.state with
  | waitingFileBegin =>
    rw [hs] at h
    simp only at h
    split at h
    · cases h
      exact .close cx
    · rename_i source minId majId size _
      split at h
      · cases h
        exact .close cx
      · obtain ⟨⟨cx₁, t₁⟩, hbegin, hcx⟩ := Option.map_eq_some_iff.1 h
        obtain ⟨n, -, hn⟩ := Option.map_eq_some_iff.1 hbegin
        cases hn
        cases hcx
        refine ⟨rfl, fun g hg => ?_, .inl rfl, fun _ => hopen⟩
        simp only [currentFile] at hg
        by_cases hall : size ≤ t.length
        · rw [if_pos hall] at hg
          cases hg
          rfl
        · rw [if_neg hall] at hg
          cases hg
          rfl
  | waitingFileEnd f =>
    have hf : f.id.sender = cx.cxId := hmarks f (by rw [currentFile, hs])
    rw [hs] at h
    simp only at h
    split at h
    · obtain ⟨⟨taken, stat₁⟩, -, hcx⟩ := Option.map_eq_some_iff.1 h
      cases taken with
      | true =>
        cases hcx
        exact ⟨rfl, .of_none rfl, .inr ⟨f.file, hopen, hf, rfl⟩, fun _ => hopen⟩
      | false =>
        cases hcx
        exact .close cx
    · cases h
      exact .close cx
  | init =>
    rw [hs] at h
    cases h
    split
    · exact ⟨rfl, .of_none rfl, .inl rfl, fun _ => hopen⟩
    · exact .close cx
  | receivingFile f =>
    rw [hs] at h
    cases h
    exact ⟨rfl, hmarks, .inl rfl, fun _ => hopen⟩
  | closed =>
    rw [hs] at h
    cases h
    exact ⟨rfl, hmarks, .inl rfl, fun _ => hopen⟩

/-- The connection a turn leaves. -/
def Turn.connection : Turn → TrDataConnection
  | .done _ _ cx => cx
  | .more _ cx _ => cx

/-- What the server has counted after a turn. -/
def Turn.statistics : Turn → TrStatistics
  | .done _ stat _ => stat
  | .more stat _ _ => stat

theorem parseTurn_passes {turn : Turn} (h : parseTurn e stat cx text behind = some turn) (hmarks : cx.MarksOwn) :
    Passes cx turn.connection := by
  unfold parseTurn at h
  split at h
  · cases h
    exact ⟨rfl, hmarks, .inl rfl, fun hopen => hopen⟩
  · rename_i hopen
    split at h
    · split at h
      · cases h
        exact ⟨rfl, hmarks, .inl rfl, fun _ => hopen⟩
      · split at h
        · cases h
          exact .close cx
        · cases h
          exact ⟨rfl, hmarks, .inl rfl, fun _ => hopen⟩
    · split at h
      · cases h
      · rename_i r stat₁ cx₁ t₁ hprocess
        have hpasses := processLine_passes hprocess hopen hmarks
        split at h
        · cases h
          exact hpasses
        · cases h
          exact hpasses

end TrDataConnection

/-! ## The server -/

/-- A slot of `cx_table`; its socket is open unless the connection is closed.  `connection` is the number of the
connection in the order of acceptance. -/
structure TrSlot where
  cx : TrDataConnection
  ackFile : TrFileId
  nonAcknowledged : Nat
  connection : Nat

def TrSlot.IsOpen (slot : TrSlot) : Prop := slot.cx.state ≠ .closed

instance (slot : TrSlot) : Decidable slot.IsOpen := inferInstanceAs (Decidable (¬_))

/-- A file the application has got; `slot` is its `sender_magic`. -/
structure Received where
  slot : Nat
  connection : Nat
  file : TrFile
  deriving DecidableEq

/-- A line that acknowledges a file, sent on a connection. -/
structure AckSent where
  connection : Nat
  minId : Int
  majId : Int
  deriving DecidableEq

/-- `struct _TR_server`, with a record of what was received, acknowledged and sent. -/
structure TrServer where
  cxTable : List TrSlot
  cxCounter : Nat
  stat : TrStatistics
  /-- The slot and the text the loop over the lines is at. -/
  parsing : Option (Nat × Bytes × Bool)
  accepted : Nat
  received : List Received
  /-- The files `TR_server_ack_file` was called for. -/
  acked : List Received
  sent : List AckSent

namespace TrServer

/-- `TR_server_start`, for TCP. -/
def start (maxClients : Nat) : TrServer where
  cxTable := List.replicate maxClients ⟨(TrDataConnection.start 0).connectionClose, ⟨none, 0, 0, 0⟩, 0, 0⟩
  cxCounter := 0
  stat := ⟨0, 0⟩
  parsing := none
  accepted := 0
  received := []
  acked := []
  sent := []

/-- A connection was accepted: it gets the first free slot, or is closed. -/
def accept (s : TrServer) : Option TrServer :=
  match s.cxTable.findIdx? (fun slot => ¬slot.IsOpen) with
  | none   => some s
  | some i => (intAdd s.cxCounter 1).map fun counter => { s with
      cxTable := s.cxTable.modify i fun slot =>
        ⟨.start s.cxCounter, { slot.ackFile with minId := 0, majId := 0 }, 0, s.accepted⟩
      cxCounter := counter
      accepted := s.accepted + 1 }

/-- Part of a call of `TR_server_connection_read`: the files passed on are there for the application. -/
def update (s : TrServer) (i : Nat) (slot : TrSlot) (stat : TrStatistics) (cx : TrDataConnection)
    (parsing : Option (Nat × Bytes × Bool)) : TrServer :=
  { s with
    cxTable := s.cxTable.set i { slot with cx }
    stat
    parsing
    received := s.received ++ (cx.outputQueue.drop slot.cx.outputQueue.length).map (⟨i, slot.connection, ·⟩) }

def connectionRead (s : TrServer) (i : Nat) (data : Bytes) : TrServer :=
  match s.cxTable[i]? with
  | none      => s
  | some slot =>
    if slot.IsOpen then
      s.update i slot s.stat (slot.cx.beginRead data).1 ((slot.cx.beginRead data).2.map (i, ·, false))
    else s

def parseTurn (s : TrServer) (e : ServerEnv) : Option TrServer :=
  match s.parsing with
  | none => some s
  | some (i, text, behind) =>
    match s.cxTable[i]? with
    | none      => some s
    | some slot => (TrDataConnection.parseTurn e s.stat slot.cx text behind).map fun
      | .done _ stat cx    => s.update i slot stat cx none
      | .more stat cx text => s.update i slot stat cx (some (i, text, true))

/-- Whether `TR_server_ack_file` takes the id of a file for its slot. -/
def Takes (slot : TrSlot) (g : Received) : Prop :=
  slot.IsOpen ∧ slot.cx.cxId = g.file.id.sender ∧ trFileIdCompare g.file.id slot.ackFile = true

instance (slot : TrSlot) (g : Received) : Decidable (Takes slot g) := inferInstanceAs (Decidable (_ ∧ _))

/-- The first section of `TR_server_ack_file`; `cx_id` is -1 when the connection is closed. -/
def ackFile (s : TrServer) (g : Received) : Option TrServer :=
  match s.cxTable[g.slot]? with
  | none      => some { s with acked := s.acked ++ [g] }
  | some slot =>
    if Takes slot g then
      (intAdd slot.nonAcknowledged 1).map fun n => { s with
        cxTable := s.cxTable.set g.slot { slot with ackFile := g.file.id, nonAcknowledged := n }
        acked := s.acked ++ [g] }
    else some { s with acked := s.acked ++ [g] }

/-- `TR_server_acknowledge_files`; `result` is what `send` returns. -/
def acknowledgeFiles (s : TrServer) (i minNumber : Nat) (result : Int) : TrServer :=
  match s.cxTable[i]? with
  | none      => s
  | some slot =>
    if slot.IsOpen ∧ minNumber < slot.nonAcknowledged ∧ result ≠ -1 then
      { s with
        cxTable := s.cxTable.set i { slot with nonAcknowledged := 0 }
        sent := s.sent ++ [⟨slot.connection, slot.ackFile.minId, slot.ackFile.majId⟩] }
    else s

/-- `TR_server_print_stats`, when there is a file for the statistics and their time has come. -/
def printStats (s : TrServer) : TrServer := { s with stat := ⟨0, 0⟩ }

inductive Action where
  | accept
  /-- `read` gives these bytes on the connection of a slot; none at its end. -/
  | read (i : Nat) (data : Bytes)
  | parse (e : ServerEnv)
  /-- `TR_server_ack_file` is called for a file received. -/
  | ackFile (k : Nat)
  /-- Once a second by the server's thread, and at the end of `TR_server_ack_file`. -/
  | acknowledge (i minNumber : Nat) (result : Int)
  | printStats

/-- A step; nothing happens when its thread is not at it. -/
def step (s : TrServer) : Action → Option TrServer
  | .accept      => if s.parsing = none then s.accept else some s
  | .read i data => some (if s.parsing = none then s.connectionRead i data else s)
  | .parse e     => s.parseTurn e
  | .ackFile k   =>
    match s.received[k]? with
    | none   => some s
    | some g => s.ackFile g
  | .acknowledge i minNumber result => some (s.acknowledgeFiles i minNumber result)
  | .printStats => some (if s.parsing = none then s.printStats else s)

/-! ## What is promised -/

/-- **Only own files are acknowledged**: a line names a file received on its connection and acknowledged by the
application, the names on a connection increase, and acknowledging a file of a former connection changes no slot. -/
structure OwnAcks (s : TrServer) : Prop where
  named : ∀ l ∈ s.sent, ∃ g ∈ s.received, g ∈ s.acked ∧ g.connection = l.connection ∧
    g.file.id.minId = l.minId ∧ g.file.id.majId = l.majId
  increasing : s.sent.Pairwise fun l l' => l.connection = l'.connection →
    l.majId < l'.majId ∨ l.majId = l'.majId ∧ l.minId < l'.minId
  late : ∀ g ∈ s.received, (∀ slot, s.cxTable[g.slot]? = some slot → slot.IsOpen → slot.connection ≠ g.connection) →
    s.ackFile g = some { s with acked := s.acked ++ [g] }

/-- A line of a connection overflows nothing: neither the number of bytes of a file that begins and its NUL, nor what is
counted at each try to give a file to the queue. -/
structure LineFits (e : ServerEnv) (stat : TrStatistics) (cx : TrDataConnection) (line : Bytes) : Prop where
  begins : cx.state = .waitingFileBegin → ∀ header, scanHeader line = some header → header.2.2.2 < intMax
  ends : ∀ f, cx.state = .waitingFileEnd f → (ascii "END".toList).isPrefixOf line = true →
    stat.Takes f.file (e.tries f.file 11 0)

/-- No `int` overflows: the number of connections, of acknowledgements that were not sent, of the bytes of a file and
its NUL, and of the files and bytes received. -/
def NoOverflow (s : TrServer) : Action → Prop
  | .accept    => s.parsing = none → (∃ slot ∈ s.cxTable, ¬slot.IsOpen) → s.cxCounter < intMax
  | .ackFile k => ∀ g slot, s.received[k]? = some g → s.cxTable[g.slot]? = some slot → Takes slot g →
      slot.nonAcknowledged < intMax
  | .parse e   => ∀ i text behind slot line rest, s.parsing = some (i, text, behind) → s.cxTable[i]? = some slot →
      firstLine text = some (line, rest) → LineFits e s.stat slot.cx line
  | _          => True

/-! ## The invariant -/

/-- What was sent on a connection is before what is to be sent next. -/
def Before (slot : TrSlot) (l : AckSent) : Prop :=
  (l.majId < slot.ackFile.majId ∨ l.majId = slot.ackFile.majId ∧ l.minId < slot.ackFile.minId) ∨
    slot.nonAcknowledged = 0 ∧ l.majId = slot.ackFile.majId ∧ l.minId = slot.ackFile.minId

/-- A slot in use. -/
structure SlotInv (s : TrServer) (slot : TrSlot) : Prop where
  id : slot.cx.cxId = slot.connection
  old : slot.connection < s.accepted
  marks : slot.cx.MarksOwn
  pending : 0 < slot.nonAcknowledged →
    ∃ g ∈ s.received, g ∈ s.acked ∧ g.connection = slot.connection ∧ g.file.id = slot.ackFile
  before : ∀ l ∈ s.sent, l.connection = slot.connection → Before slot l

structure Inv (s : TrServer) : Prop where
  counter : s.cxCounter = s.accepted
  slots : ∀ (i : Nat) slot, s.cxTable[i]? = some slot → slot.IsOpen → SlotInv s slot
  distinct :
    ∀ (i j : Nat) slot slot', s.cxTable[i]? = some slot → s.cxTable[j]? = some slot' → slot.IsOpen → slot'.IsOpen →
    slot.connection = slot'.connection → i = j
  received : ∀ g ∈ s.received, g.file.id.sender = g.connection
  sentOld : ∀ l ∈ s.sent, l.connection < s.accepted
  named : ∀ l ∈ s.sent, ∃ g ∈ s.received, g ∈ s.acked ∧ g.connection = l.connection ∧
    g.file.id.minId = l.minId ∧ g.file.id.majId = l.majId
  increasing : s.sent.Pairwise fun l l' => l.connection = l'.connection →
    l.majId < l'.majId ∨ l.majId = l'.majId ∧ l.minId < l'.minId

variable {s s' : TrServer} {i : Nat} {slot slot' : TrSlot}

theorem inv_start (maxClients : Nat) : Inv (start maxClients) := by
  have hclosed : ∀ (i : Nat) slot, (start maxClients).cxTable[i]? = some slot → ¬slot.IsOpen := fun i slot h => by
    rw [List.eq_of_mem_replicate (List.mem_of_getElem? h)]
    exact fun hopen => hopen rfl
  exact ⟨rfl, fun i slot h hopen => absurd hopen (hclosed i slot h),
    fun i _ slot _ h _ hopen => absurd hopen (hclosed i slot h),
    fun _ h => absurd h List.not_mem_nil, fun _ h => absurd h List.not_mem_nil, fun _ h => absurd h List.not_mem_nil,
    List.Pairwise.nil⟩

/-- More is recorded, and a slot keeps its connection. -/
structure Grows (s s' : TrServer) (i : Nat) (slot slot' : TrSlot) : Prop where
  table : s'.cxTable = s.cxTable.set i slot'
  connection : slot'.connection = slot.connection
  isOpen : slot'.IsOpen → slot.IsOpen
  counter : s'.cxCounter = s.cxCounter
  accepted : s'.accepted = s.accepted
  received : ∀ g ∈ s.received, g ∈ s'.received
  acked : ∀ g ∈ s.acked, g ∈ s'.acked

theorem SlotInv.grows {x : TrSlot} (h : SlotInv s x) (hg : Grows s s' i slot slot')
    (hsent : ∀ l ∈ s'.sent, l.connection = x.connection → l ∈ s.sent) : SlotInv s' x where
  id := h.id
  old := by rw [hg.accepted]; exact h.old
  marks := h.marks
  pending := fun hpos => by
    obtain ⟨g, hgr, hga, hgc, hgf⟩ := h.pending hpos
    exact ⟨g, hg.received g hgr, hg.acked g hga, hgc, hgf⟩
  before := fun l hl hc => h.before l (hsent l hl hc) hc

/-- **A change of one slot** that sends nothing. -/
theorem Inv.grows (h : Inv s) (hslot : s.cxTable[i]? = some slot) (hg : Grows s s' i slot slot')
    (hsent : s'.sent = s.sent) (hinv : slot'.IsOpen → SlotInv s' slot')
    (hreceived : ∀ g ∈ s'.received, g ∈ s.received ∨ g.file.id.sender = g.connection) : Inv s' where
  counter := by rw [hg.counter, hg.accepted]; exact h.counter
  slots := by
    intro j x hx hopen
    rw [hg.table] at hx
    rcases getElem?_set_cases hx with ⟨-, rfl⟩ | ⟨-, hx⟩
    · exact hinv hopen
    · exact (h.slots j x hx hopen).grows hg fun l hl _ => hsent ▸ hl
  distinct := by
    intro j k x y hx hy hox hoy hc
    rw [hg.table] at hx hy
    rcases getElem?_set_cases hx with ⟨rfl, rfl⟩ | ⟨-, hx'⟩
    · rcases getElem?_set_cases hy with ⟨rfl, -⟩ | ⟨-, hy'⟩
      · rfl
      · exact h.distinct j k slot y hslot hy' (hg.isOpen hox) hoy (hg.connection ▸ hc)
    · rcases getElem?_set_cases hy with ⟨rfl, rfl⟩ | ⟨-, hy'⟩
      · exact h.distinct j k x slot hx' hslot hox (hg.isOpen hoy) (hg.connection ▸ hc)
      · exact h.distinct j k x y hx' hy' hox hoy hc
  received := fun g hgr => (hreceived g hgr).elim (h.received g) id
  sentOld := by rw [hsent, hg.accepted]; exact h.sentOld
  named := by
    rw [hsent]
    intro l hl
    obtain ⟨g, hgr, hga, hrest⟩ := h.named l hl
    exact ⟨g, hg.received g hgr, hg.acked g hga, hrest⟩
  increasing := by rw [hsent]; exact h.increasing

/-! ## Steps -/

/-- **Part of a call** passes on files of the connection only. -/
theorem inv_update {cx : TrDataConnection} (h : Inv s) (hslot : s.cxTable[i]? = some slot)
    (hpasses : slot.cx.Passes cx) (stat : TrStatistics) (parsing : Option (Nat × Bytes × Bool)) :
    Inv (s.update i slot stat cx parsing) := by
  have hgrows : Grows s (s.update i slot stat cx parsing) i slot { slot with cx } :=
    ⟨rfl, rfl, hpasses.isOpen, rfl, rfl, fun g hg => List.mem_append_left _ hg, fun g hg => hg⟩
  refine h.grows hslot hgrows rfl (fun hopen => ?_) fun g hg => ?_
  · have hinv := (h.slots i slot hslot (hpasses.isOpen hopen)).grows hgrows fun l hl _ => hl
    exact ⟨hpasses.cxId.trans hinv.id, hinv.old, hpasses.marks, hinv.pending, hinv.before⟩
  · rcases List.mem_append.1 hg with hg | hg
    · exact .inl hg
    · obtain ⟨f, hf, rfl⟩ := List.mem_map.1 hg
      rcases hpasses.queue with hq | ⟨f', hopen, hsender, hq⟩
      · rw [hq, List.drop_length] at hf
        cases hf
      · rw [hq, List.drop_left' rfl] at hf
        rw [List.mem_singleton.1 hf]
        exact .inr (hsender.trans (h.slots i slot hslot hopen).id)

theorem marks_of (h : Inv s) (hslot : s.cxTable[i]? = some slot) : slot.cx.MarksOwn := by
  by_cases hopen : slot.IsOpen
  · exact (h.slots i slot hslot hopen).marks
  · have hclosed : slot.cx.state = .closed := not_not.1 hopen
    exact .of_none (by rw [TrDataConnection.currentFile, hclosed])

theorem inv_read (h : Inv s) (i : Nat) (data : Bytes) : Inv (s.connectionRead i data) := by
  unfold connectionRead
  cases hslot : s.cxTable[i]? with
  | none => exact h
  | some slot =>
    simp only
    split
    · rename_i hopen
      exact inv_update h hslot (slot.cx.beginRead_passes data hopen (marks_of h hslot)) _ _
    · exact h

/-- A turn of the loop over the lines is an update of its slot. -/
theorem parseTurn_update {e : ServerEnv} {text : Bytes} {behind : Bool} (hp : s.parsing = some (i, text, behind))
    (hs : s.parseTurn e = some s') : (s.cxTable[i]? = none ∧ s' = s) ∨ ∃ slot turn, s.cxTable[i]? = some slot ∧
      TrDataConnection.parseTurn e s.stat slot.cx text behind = some turn ∧
      s' = s.update i slot turn.statistics turn.connection (match turn with
        | .done ..       => none
        | .more _ _ text => some (i, text, true)) := by
  unfold parseTurn at hs
  simp only [hp] at hs
  split at hs
  · exact .inl ⟨‹_›, (Option.some.inj hs).symm⟩
  · rename_i slot hslot
    obtain ⟨turn, hturn, rfl⟩ := Option.map_eq_some_iff.1 hs
    refine .inr ⟨slot, turn, hslot, hturn, ?_⟩
    cases turn <;> rfl

theorem inv_parse {e : ServerEnv} (h : Inv s) (hs : s.parseTurn e = some s') : Inv s' := by
  cases hp : s.parsing with
  | none =>
    rw [parseTurn, hp] at hs
    obtain rfl := Option.some.inj hs
    exact h
  | some p =>
    rcases parseTurn_update hp hs with ⟨-, rfl⟩ | ⟨slot, turn, hslot, hturn, rfl⟩
    · exact h
    · exact inv_update h hslot (TrDataConnection.parseTurn_passes hturn (marks_of h hslot)) _ _

theorem processLine_isSome {stat : TrStatistics} {cx : TrDataConnection} {e : ServerEnv} {line rest : Bytes}
    (h : LineFits e stat cx line) : ∃ r, TrDataConnection.processLine e stat cx line rest = some r := by
  unfold TrDataConnection.processLine
  cases hs : cx.state with
  | waitingFileBegin =>
    simp only
    cases hscan : scanHeader line with
    | none => exact ⟨_, rfl⟩
    | some header =>
      obtain ⟨source, minId, majId, size⟩ := header
      have hsize : size < intMax := h.begins hs _ hscan
      simp only
      split
      · exact ⟨_, rfl⟩
      · rw [TrDataConnection.beginFile, intPlus_of_le (by omega) (by omega)]
        exact ⟨_, rfl⟩
  | waitingFileEnd f =>
    simp only
    split
    · rename_i hend
      obtain ⟨taken, htaken⟩ := writeFile_of_takes (h.ends f hs hend)
      rw [htaken]
      exact ⟨_, rfl⟩
    · exact ⟨_, rfl⟩
  | init => exact ⟨_, rfl⟩
  | receivingFile f => exact ⟨_, rfl⟩
  | closed => exact ⟨_, rfl⟩

theorem parseTurn_isSome {e : ServerEnv} (hok : NoOverflow s (.parse e)) : ∃ s', s.parseTurn e = some s' := by
  unfold parseTurn
  cases hp : s.parsing with
  | none => exact ⟨_, rfl⟩
  | some p =>
    obtain ⟨i, text, behind⟩ := p
    simp only
    cases hslot : s.cxTable[i]? with
    | none => exact ⟨_, rfl⟩
    | some slot =>
      suffices hturn : ∃ turn, TrDataConnection.parseTurn e s.stat slot.cx text behind = some turn by
        obtain ⟨turn, hturn⟩ := hturn
        simp only [hturn, Option.map_some]
        exact ⟨_, rfl⟩
      unfold TrDataConnection.parseTurn
      split
      · exact ⟨_, rfl⟩
      · cases hfirst : firstLine text with
        | none =>
          simp only
          split
          · exact ⟨_, rfl⟩
          · split <;> exact ⟨_, rfl⟩
        | some l =>
          obtain ⟨r, hr⟩ := @processLine_isSome _ _ e _ l.2 (hok i text behind slot l.1 l.2 hp hslot hfirst)
          simp only [hr]
          split <;> exact ⟨_, rfl⟩

theorem ackFile_acked {g : Received} (hs : s.ackFile g = some s') : s'.acked = s.acked ++ [g] := by
  unfold ackFile at hs
  split at hs
  · rw [← Option.some.inj hs]
  · split at hs
    · obtain ⟨n, -, rfl⟩ := Option.map_eq_some_iff.1 hs
      rfl
    · rw [← Option.some.inj hs]

theorem acknowledgeFiles_acked (s : TrServer) (i minNumber : Nat) (result : Int) :
    (s.acknowledgeFiles i minNumber result).acked = s.acked := by
  unfold acknowledgeFiles
  split
  · rfl
  · split <;> rfl

/-- Accepting is no matter of the files. -/
theorem accept_same (hs : s.accept = some s') : s'.received = s.received ∧ s'.acked = s.acked ∧ s'.sent = s.sent ∧
    s'.parsing = s.parsing ∧ (s'.accepted = s.accepted ∨ s'.accepted = s.accepted + 1) := by
  unfold accept at hs
  split at hs
  · obtain rfl := Option.some.inj hs
    exact ⟨rfl, rfl, rfl, rfl, .inl rfl⟩
  · obtain ⟨counter, -, rfl⟩ := Option.map_eq_some_iff.1 hs
    exact ⟨rfl, rfl, rfl, rfl, .inr rfl⟩

theorem inv_acked (h : Inv s) (g : Received) : Inv { s with acked := s.acked ++ [g] } where
  counter := h.counter
  slots := fun i slot hslot hopen => by
    have hinv := h.slots i slot hslot hopen
    refine ⟨hinv.id, hinv.old, hinv.marks, fun hpos => ?_, hinv.before⟩
    obtain ⟨g', hgr, hga, hrest⟩ := hinv.pending hpos
    exact ⟨g', hgr, List.mem_append_left _ hga, hrest⟩
  distinct := h.distinct
  received := h.received
  sentOld := h.sentOld
  named := fun l hl => by
    obtain ⟨g', hgr, hga, hrest⟩ := h.named l hl
    exact ⟨g', hgr, List.mem_append_left _ hga, hrest⟩
  increasing := h.increasing

/-- **A file acknowledged by the application** is the next to be acknowledged, if it is one of the connection and after
those before. -/
theorem inv_ackFile {g : Received} (h : Inv s) (hg : g ∈ s.received) (hs : s.ackFile g = some s') : Inv s' := by
  unfold ackFile at hs
  cases hslot : s.cxTable[g.slot]? with
  | none =>
    rw [hslot] at hs
    cases hs
    exact inv_acked h g
  | some slot =>
    rw [hslot] at hs
    simp only at hs
    split at hs
    · rename_i htakes
      obtain ⟨hopen, hid, hcompare⟩ := htakes
      obtain ⟨n, hn, rfl⟩ := Option.map_eq_some_iff.1 hs
      obtain ⟨rfl, -⟩ := intAdd_eq_some hn
      have hgrows : Grows s { s with
          cxTable :=
            s.cxTable.set g.slot { slot with ackFile := g.file.id, nonAcknowledged := slot.nonAcknowledged + 1 }
          acked := s.acked ++ [g] } g.slot slot
          { slot with ackFile := g.file.id, nonAcknowledged := slot.nonAcknowledged + 1 } :=
        ⟨rfl, rfl, fun hopen => hopen, rfl, rfl, fun _ hg => hg, fun _ hg => List.mem_append_left _ hg⟩
      refine h.grows hslot hgrows rfl (fun _ => ?_) fun g' hg' => .inl hg'
      have hinv := h.slots g.slot slot hslot hopen
      have hconnection : g.connection = slot.connection := (h.received g hg).symm.trans (hid.symm.trans hinv.id)
      refine ⟨hinv.id, hinv.old, hinv.marks,
        fun _ => ⟨g, hg, List.mem_append_right _ List.mem_cons_self, hconnection, rfl⟩, fun l hl hc => .inl ?_⟩
      rw [trFileIdCompare_iff] at hcompare
      rcases hinv.before l hl hc with hlt | ⟨-, hmaj, hmin⟩
      · simp only
        omega
      · simp only
        omega
    · cases hs
      exact inv_acked h g

/-- **What is sent** names the last file acknowledged. -/
theorem inv_acknowledge (h : Inv s) (i minNumber : Nat) (result : Int) :
    Inv (s.acknowledgeFiles i minNumber result) := by
  unfold acknowledgeFiles
  cases hslot : s.cxTable[i]? with
  | none => exact h
  | some slot =>
    simp only
    split
    · rename_i hsend
      obtain ⟨hopen, hmin, -⟩ := hsend
      have hpos : 0 < slot.nonAcknowledged := by omega
      have hinv := h.slots i slot hslot hopen
      have hbefore : ∀ l ∈ s.sent, l.connection = slot.connection →
          l.majId < slot.ackFile.majId ∨ l.majId = slot.ackFile.majId ∧ l.minId < slot.ackFile.minId := by
        intro l hl hc
        rcases hinv.before l hl hc with hlt | ⟨hzero, -⟩
        · exact hlt
        · omega
      obtain ⟨g, hgr, hga, hgc, hgf⟩ := hinv.pending hpos
      refine ⟨h.counter, fun j x hx hox => ?_, fun j k x y hx hy hox hoy hc => ?_, h.received, fun l hl => ?_,
        fun l hl => ?_, ?_⟩
      · rcases getElem?_set_cases hx with ⟨-, rfl⟩ | ⟨hne, hx'⟩
        · refine ⟨hinv.id, hinv.old, hinv.marks, fun hn => absurd hn (Nat.lt_irrefl 0), fun l hl hc => ?_⟩
          rcases List.mem_append.1 hl with hl | hl
          · exact .inl (hbefore l hl hc)
          · rw [List.mem_singleton.1 hl]
            exact .inr ⟨rfl, rfl, rfl⟩
        · have hinv' := h.slots j x hx' hox
          refine ⟨hinv'.id, hinv'.old, hinv'.marks, hinv'.pending, fun l hl hc => ?_⟩
          rcases List.mem_append.1 hl with hl | hl
          · exact hinv'.before l hl hc
          · -- a line of the other connection
            rw [List.mem_singleton.1 hl] at hc
            exact absurd (h.distinct j i x slot hx' hslot hox hopen hc.symm) hne
      · rcases getElem?_set_cases hx with ⟨rfl, rfl⟩ | ⟨-, hx'⟩
        · rcases getElem?_set_cases hy with ⟨rfl, -⟩ | ⟨-, hy'⟩
          · rfl
          · exact h.distinct j k slot y hslot hy' hopen hoy hc
        · rcases getElem?_set_cases hy with ⟨rfl, rfl⟩ | ⟨-, hy'⟩
          · exact h.distinct j k x slot hx' hslot hox hopen hc
          · exact h.distinct j k x y hx' hy' hox hoy hc
      · rcases List.mem_append.1 hl with hl | hl
        · exact h.sentOld l hl
        · rw [List.mem_singleton.1 hl]
          exact hinv.old
      · rcases List.mem_append.1 hl with hl | hl
        · exact h.named l hl
        · rw [List.mem_singleton.1 hl]
          exact ⟨g, hgr, hga, hgc, by rw [hgf], by rw [hgf]⟩
      · refine List.pairwise_append.2 ⟨h.increasing, List.pairwise_singleton _ _, fun l hl l' hl' hc => ?_⟩
        rw [List.mem_singleton.1 hl'] at hc ⊢
        exact hbefore l hl hc
    · exact h

/-- **A connection accepted** is a new one. -/
theorem inv_accept (h : Inv s) (hs : s.accept = some s') : Inv s' := by
  unfold accept at hs
  split at hs
  · cases hs
    exact h
  · rename_i i hfree
    obtain ⟨n, hn, rfl⟩ := Option.map_eq_some_iff.1 hs
    obtain ⟨rfl, -⟩ := intAdd_eq_some hn
    have cases : ∀ (j : Nat) x, (s.cxTable.modify i fun slot =>
        ⟨.start s.cxCounter, { slot.ackFile with minId := 0, majId := 0 }, 0, s.accepted⟩)[j]? = some x →
        (j = i ∧ ∃ ack, x = ⟨.start s.cxCounter, ack, 0, s.accepted⟩) ∨ (j ≠ i ∧ s.cxTable[j]? = some x) := by
      intro j x hx
      rw [List.getElem?_modify] at hx
      split at hx
      · rename_i heq
        obtain ⟨slot, -, rfl⟩ := Option.map_eq_some_iff.1 hx
        exact .inl ⟨heq.symm, _, rfl⟩
      · rename_i hne
        obtain ⟨slot, hslot, rfl⟩ := Option.map_eq_some_iff.1 hx
        exact .inr ⟨fun e => hne e.symm, hslot⟩
    refine ⟨by rw [h.counter], fun j x hx hox => ?_, fun j k x y hx hy hox hoy hc => ?_, h.received,
      fun l hl => Nat.lt_succ_of_lt (h.sentOld l hl), h.named, h.increasing⟩
    · rcases cases j x hx with ⟨-, ack, rfl⟩ | ⟨-, hx'⟩
      · exact ⟨h.counter, Nat.lt_succ_self _, .of_none rfl, fun hpos => absurd hpos (Nat.lt_irrefl 0),
          fun l hl hc => absurd (h.sentOld l hl) (by rw [hc]; exact Nat.lt_irrefl _)⟩
      · have hinv := h.slots j x hx' hox
        exact ⟨hinv.id, Nat.lt_succ_of_lt hinv.old, hinv.marks, hinv.pending, hinv.before⟩
    · rcases cases j x hx with ⟨rfl, ack, rfl⟩ | ⟨-, hx'⟩
      · rcases cases k y hy with ⟨rfl, -⟩ | ⟨-, hy'⟩
        · rfl
        · exact absurd (h.slots k y hy' hoy).old (by rw [← hc]; exact Nat.lt_irrefl _)
      · rcases cases k y hy with ⟨rfl, ack, rfl⟩ | ⟨-, hy'⟩
        · exact absurd (h.slots j x hx' hox).old (by rw [hc]; exact Nat.lt_irrefl _)
        · exact h.distinct j k x y hx' hy' hox hoy hc

/-- What is counted is no matter of the invariant. -/
theorem inv_printStats (h : Inv s) : Inv s.printStats where
  counter := h.counter
  slots := fun i slot hslot hopen => by
    have hinv := h.slots i slot hslot hopen
    exact ⟨hinv.id, hinv.old, hinv.marks, hinv.pending, hinv.before⟩
  distinct := h.distinct
  received := h.received
  sentOld := h.sentOld
  named := h.named
  increasing := h.increasing

/-- **Every step** has a result, unless a counter overflows, and keeps the invariant. -/
theorem inv_step (a : Action) (h : Inv s) (hok : NoOverflow s a) : ∃ s', s.step a = some s' ∧ Inv s' := by
  cases a with
  | accept =>
    by_cases hidle : s.parsing = none
    · have hsome : ∃ s', s.accept = some s' := by
        unfold accept
        split
        · exact ⟨_, rfl⟩
        · rename_i i hfree
          obtain ⟨hlt, hclosed, -⟩ := List.findIdx?_eq_some_iff_getElem.1 hfree
          have hcounter := hok hidle ⟨_, List.getElem_mem hlt, of_decide_eq_true hclosed⟩
          rw [intAdd_of_le (Nat.succ_le_of_lt hcounter)]
          exact ⟨_, rfl⟩
      obtain ⟨s', hs⟩ := hsome
      exact ⟨s', by rw [step, if_pos hidle]; exact hs, inv_accept h hs⟩
    · exact ⟨s, by rw [step, if_neg hidle], h⟩
  | read i data =>
    refine ⟨_, rfl, ?_⟩
    split
    · exact inv_read h i data
    · exact h
  | parse e =>
    obtain ⟨s', hs⟩ := parseTurn_isSome hok
    exact ⟨s', hs, inv_parse h hs⟩
  | ackFile k =>
    cases hk : s.received[k]? with
    | none => exact ⟨s, by simp only [step, hk], h⟩
    | some g =>
      have hsome : ∃ s', s.ackFile g = some s' := by
        unfold ackFile
        cases hslot : s.cxTable[g.slot]? with
        | none => exact ⟨_, rfl⟩
        | some slot =>
          simp only
          split
          · rename_i htakes
            rw [intAdd_of_le (Nat.succ_le_of_lt (hok g slot hk hslot htakes))]
            exact ⟨_, rfl⟩
          · exact ⟨_, rfl⟩
      obtain ⟨s', hs⟩ := hsome
      exact ⟨s', by simp only [step, hk, hs], inv_ackFile h (List.mem_of_getElem? hk) hs⟩
  | acknowledge i minNumber result => exact ⟨_, rfl, inv_acknowledge h i minNumber result⟩
  | printStats =>
    refine ⟨_, rfl, ?_⟩
    split
    · exact inv_printStats h
    · exact h

theorem Inv.ownAcks (h : Inv s) : OwnAcks s where
  named := h.named
  increasing := h.increasing
  late := fun g hg hother => by
    unfold ackFile
    cases hslot : s.cxTable[g.slot]? with
    | none => rfl
    | some slot =>
      have hno : ¬Takes slot g := by
        rintro ⟨hopen, hid, -⟩
        exact hother slot hslot hopen ((h.slots _ slot hslot hopen).id.symm.trans (hid.trans (h.received g hg)))
      simp only [if_neg hno]

/-- **A line that has a result** overflows nothing. -/
theorem lineFits_of_isSome {stat : TrStatistics} {cx : TrDataConnection} {e : ServerEnv} {line rest : Bytes}
    (h : (TrDataConnection.processLine e stat cx line rest).isSome) : LineFits e stat cx line where
  begins := by
    rintro hstate ⟨source, minId, majId, size⟩ hscan
    show size < intMax
    by_contra hlarge
    have hpos : (0 : Int) < intMax := by decide
    have hroom : intPlus size 1 = none := intPlus_overflow (by omega)
    rw [TrDataConnection.processLine, hstate] at h
    simp only [hscan] at h
    rw [dif_neg (by omega), TrDataConnection.beginFile, hroom] at h
    cases h
  ends := by
    intro f hstate hend
    rw [TrDataConnection.processLine, hstate] at h
    simp only [if_pos hend] at h
    cases hwrite : writeFile e f.file 11 0 stat with
    | none =>
      rw [hwrite] at h
      cases h
    | some r => exact (writeFile_eq_some hwrite).2.1 (by decide)

theorem noOverflow_of_step (a : Action) (hs : s.step a = some s') : NoOverflow s a := by
  cases a with
  | accept =>
    intro hidle hfree
    rw [step, if_pos hidle, accept] at hs
    obtain ⟨slot, hmem, hclosed⟩ := hfree
    split at hs
    · rename_i hnone
      exact absurd (decide_eq_true hclosed) (by simpa using List.findIdx?_eq_none_iff.1 hnone slot hmem)
    · obtain ⟨n, hn, -⟩ := Option.map_eq_some_iff.1 hs
      exact Nat.lt_of_succ_le (intAdd_eq_some hn).2
  | read i data => trivial
  | parse e =>
    intro i text behind slot line rest hp hslot hfirst
    rw [step, parseTurn, hp] at hs
    simp only [hslot] at hs
    obtain ⟨turn, hturn, -⟩ := Option.map_eq_some_iff.1 hs
    by_cases hclosed : slot.cx.state = .closed
    · -- nothing is done with a line then
      refine ⟨fun hstate => ?_, fun f hstate => ?_⟩
      · rw [hclosed] at hstate
        cases hstate
      · rw [hclosed] at hstate
        cases hstate
    · rw [TrDataConnection.parseTurn, if_neg hclosed, hfirst] at hturn
      simp only at hturn
      split at hturn
      · cases hturn
      · rename_i hprocess
        exact lineFits_of_isSome (Option.isSome_of_eq_some hprocess)
  | ackFile k =>
    intro g slot hk hslot htakes
    simp only [step, hk, ackFile, hslot, if_pos htakes] at hs
    obtain ⟨n, hn, -⟩ := Option.map_eq_some_iff.1 hs
    exact Nat.lt_of_succ_le (intAdd_eq_some hn).2
  | acknowledge i minNumber result => trivial
  | printStats => trivial

/-- **The server acknowledges on a connection only that connection's files**, in exactly the runs that overflow no
counter. -/
theorem acks_own_files_iff (maxClients : Nat) (as : List Action) :
    (∃ s, run step (start maxClients) as = some s ∧ OwnAcks s) ↔ Legal step NoOverflow (start maxClients) as := by
  constructor
  · rintro ⟨s, hr, -⟩
    exact legal_of_run (fun s a s' hs => noOverflow_of_step a hs) as _ s hr
  · intro hl
    obtain ⟨s, hr, h⟩ := run_inv (I := Inv) (fun s a h hok => inv_step a h hok) as _ (inv_start maxClients) hl
    exact ⟨s, hr, h.ownAcks⟩

/-! ## Too many connections -/

/-- A connection is accepted and closed, many times, and another one is accepted. -/
def tooManyConnections : List Action :=
  (List.replicate (2 ^ 31 - 1) [Action.accept, .read 0 []]).flatten ++ [.accept]

/-- A server of one slot, which is free, after some connections. -/
structure Free (s : TrServer) (n : Nat) : Prop where
  table : ∃ slot, s.cxTable = [slot] ∧ ¬slot.IsOpen
  counter : s.cxCounter = n
  idle : s.parsing = none

theorem Free.connect {n : Nat} (h : Free s n) (hn : n < intMax) :
    ∃ s', run step s [.accept, .read 0 []] = some s' ∧ Free s' (n + 1) := by
  obtain ⟨⟨slot, htable, hclosed⟩, hcounter, hidle⟩ := h
  have hfree : s.cxTable.findIdx? (fun slot => ¬slot.IsOpen) = some 0 := by
    rw [htable, List.findIdx?_cons, if_pos (decide_eq_true hclosed)]
  have haccept : s.step .accept = some { s with
      cxTable := [⟨.start s.cxCounter, { slot.ackFile with minId := 0, majId := 0 }, 0, s.accepted⟩]
      cxCounter := s.cxCounter + 1
      accepted := s.accepted + 1 } := by
    rw [step, if_pos hidle, accept, hfree]
    simp only [intAdd_of_le (show s.cxCounter + 1 ≤ intMax by omega), Option.map_some, htable]
    rfl
  refine ⟨_, by rw [run_cons haccept]; rfl, ?_⟩
  rw [if_pos hidle]
  exact ⟨⟨_, rfl, fun hopen => hopen rfl⟩, congrArg (· + 1) hcounter, rfl⟩

theorem Free.connects : ∀ (k n : Nat) {s : TrServer}, Free s n → n + k ≤ intMax →
    ∃ s', run step s (List.replicate k [Action.accept, .read 0 []]).flatten = some s' ∧ Free s' (n + k)
  | 0, n, s, h, _ => ⟨s, rfl, h⟩
  | k + 1, n, s, h, hle => by
    obtain ⟨s₁, h₁, hfree₁⟩ := h.connect (by omega)
    obtain ⟨s', hr, hfree⟩ := Free.connects k (n + 1) hfree₁ (by omega)
    refine ⟨s', ?_, by rw [show n + (k + 1) = n + 1 + k by omega]; exact hfree⟩
    rw [List.replicate_succ, List.flatten_cons, run_append, h₁]
    exact hr

/-- **The counter of the connections overflows.** -/
theorem tooManyConnections_overflow : ¬∃ s, run step (start 1) tooManyConnections = some s ∧ OwnAcks s := by
  have hstart : Free (start 1) 0 := ⟨⟨_, rfl, fun hopen => hopen rfl⟩, rfl, rfl⟩
  obtain ⟨s, hr, hfree⟩ := Free.connects (2 ^ 31 - 1) 0 hstart (by decide)
  obtain ⟨⟨slot, htable, hclosed⟩, hcounter, hidle⟩ := hfree
  have hnone : s.step .accept = none := by
    have hfirst : s.cxTable.findIdx? (fun slot => ¬slot.IsOpen) = some 0 := by
      rw [htable, List.findIdx?_cons, if_pos (decide_eq_true hclosed)]
    rw [step, if_pos hidle, accept, hfirst]
    simp only [hcounter]
    rfl
  rintro ⟨s', hr', -⟩
  rw [tooManyConnections, run_append, hr, Option.bind_some, run, hnone] at hr'
  cases hr'

end TrServer
end Transport
end Flp
