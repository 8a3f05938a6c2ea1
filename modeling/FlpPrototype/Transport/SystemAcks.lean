import FlpPrototype.Transport.SystemLinks
/-!
# SystemAcks — what a client takes for acknowledged, the server's application has

An acknowledgement outlives its connection, and covers all files below it.  This is right because a client begins each
connection with the first file of its queue: what lies below a file that was sent on a connection was sent before it on
the same connection, or had been acknowledged when that one was opened (`Closed`).  So a file that is removed was
received with its contents, and the application has acknowledged it or one above it (`Confirmed`).
-/
namespace Flp
namespace Transport
namespace Tracked

variable {t t' : Tracked} {f g : TrFile} {G H : TrFile → Prop}

/-! ## The stream of a connection to the server itself -/

/-- The opening was sent on the connection. -/
def Direct (t : Tracked) : Prop := t.client.iniLine <+: t.wire

theorem iniLine_head (c : TrClient) : c.iniLine.head? = some 73 := by
  simp [TrClient.iniLine, ascii, TR_BUFFER_SIZE]

theorem header_head (f : TrFile) : f.header.head? = some 70 := by
  simp [TrFile.header, ascii, TR_BUFFER_SIZE]

theorem encodes_head (fs : List TrFile) : (encodes fs).head? = none ∨ (encodes fs).head? = some 70 := by
  cases fs with
  | nil => exact .inl rfl
  | cons f fs =>
    right
    rw [encodes, List.flatMap_cons, TrFile.encode, List.append_assoc, List.head?_append, header_head]
    rfl

/-- **What the socket has taken**, with the opening at its beginning. -/
theorem Wired.direct (h : Wired t) (hd : t.Direct) : ∃ rest, t.client.Part t.sending rest ∧
    t.wire ++ rest = t.client.iniLine ++ encodes (t.finished ++ t.sending.toList) := by
  obtain ⟨ini, rest, hini, hpart, hwire⟩ := h
  rcases hini with rfl | rfl
  · exact ⟨rest, hpart, hwire⟩
  · -- files do not begin as the opening does
    exfalso
    obtain ⟨tail, htail⟩ := hd
    have hhead := congrArg List.head? hwire
    rw [← htail, List.append_assoc, List.head?_append, iniLine_head, List.nil_append] at hhead
    have hfiles := encodes_head (t.finished ++ t.sending.toList)
    unfold encodes at hfiles
    rw [← hhead] at hfiles
    rcases hfiles with h | h
    · cases h
    · exact absurd (Option.some.inj h) (by decide)

theorem part_ne_nil {c : TrClient} {r : Bytes} (h : c.Part (some f) r) : r ≠ [] := by
  have htrailer : trailer ≠ [] := by decide
  cases h with
  | header =>
    unfold TrFile.encode
    exact List.append_ne_nil_of_right_ne_nil _ (List.append_ne_nil_of_right_ne_nil _ htrailer)
  | data =>
    exact List.append_ne_nil_of_right_ne_nil _ (List.append_ne_nil_of_right_ne_nil _ htrailer)
  | tail => exact htrailer
  | last _ hstart =>
    intro h
    have hlen := TrClient.length_rest c.sendBuf
    rw [h, List.length_nil] at hlen
    omega

/-- **What a client's own step sends**: nothing, or it begins a file, or the socket takes some bytes. -/
inductive Sends (t t' : Tracked) : Prop
  | nothing (h : SameSending t t')
  | begin {f : TrFile} (hidle : t.sending = none) (hf : t'.sending = some f) (hmem : f ∈ t'.queued)
      (hwire : t'.wire = t.wire) (hfinished : t'.finished = t.finished)
      (hbelow : ∀ g ∈ t'.queued, trFileIdCompare f.id g.id = true → g ∈ t.removed ∨ g ∈ t.finished)
  | sent {taken : Bytes} (hwire : t'.wire = t.wire ++ taken)
      (hfiles : t'.finished = t.finished ∧ t'.sending = t.sending ∨
        ∃ f, t.sending = some f ∧ t'.sending = none ∧ t'.finished = t.finished ++ [f])

/-- The records of the connection alone. -/
def here (t : Tracked) : Tracked := { t with sent := t.finished }

theorem idle_of_dataDone (h : Wired t) (hdone : t.client.dataDone) (hdeinit : t.client.fileTransfertDeinit = false) :
    t.sending = none := by
  obtain ⟨ini, rest, -, hpart, -⟩ := h
  rcases hpart.dataDone hdone with ⟨hnone, -⟩ | ⟨-, htrue⟩
  · exact hnone
  · exact absurd htrue (Bool.eq_false_iff.1 hdeinit)

/-- What lies below a file of the queue was removed, or sent on this connection. -/
theorem below_here (h : Kept t) (hi : Indexed t.here) (hidle : t.sending = none) {i : Nat}
    (hindex : (i : Int) ≤ t.client.currentFileIndex) (hf : t.client.inputQueue.items[i]? = some f) (hg : g ∈ t.queued)
    (hbelow : trFileIdCompare f.id g.id = true) : g ∈ t.removed ∨ g ∈ t.finished := by
  rcases h.below hf hg hbelow with hg | ⟨j, hj, hg⟩
  · exact .inl hg
  · rcases hi.before j g (by show (j : Int) < t.client.currentFileIndex; omega) hg with hg | hg
    · exact .inr hg
    · exact absurd (hidle.symm.trans hg) (fun e => by cases e)

/-- **The choice of the next file** on this connection. -/
theorem select_here {e : Perm.Env} (h : Kept t) (hw : Wired t) (hi : Indexed t.here) (hat : t.client.stage = .selecting)
    (hs : t.select e = some t') : Sends t t' ∧ Indexed t'.here := by
  obtain ⟨choice, hchoice, rfl⟩ := Option.map_eq_some_iff.1 hs
  have hnonneg : 0 ≤ t.client.currentFileIndex := hi.nonneg hat
  have hstage : (t.chosen choice).client.stage ≠ .selecting := by
    rw [chosen_stage]
    decide
  cases TrClient.chooseFile_chose hchoice with
  | nothing =>
    exact ⟨.nothing ⟨rfl, rfl, rfl, rfl, rfl, rfl, rfl, rfl, rfl, rfl⟩,
      hi.congr rfl rfl (fun hs => absurd hs hstage) (fun _ hf => hf) fun _ hf => .inr hf⟩
  | ended =>
    exact ⟨.sent (List.append_nil _).symm (.inl ⟨rfl, rfl⟩),
      hi.congr rfl rfl (fun hs => absurd hs hstage) (fun _ hf => hf) fun _ hf => .inr hf⟩
  | @begun f hdone hdeinit hf =>
    have hidle := idle_of_dataDone hw hdone hdeinit
    obtain ⟨-, hget⟩ := readIndex_eq_some hf
    have hlt := (List.getElem?_eq_some_iff.1 hget).1
    have hmem : f ∈ t.queued := by
      rw [h.split]
      exact List.mem_append_right _ (List.mem_of_getElem? hget)
    refine ⟨.begin hidle rfl hmem rfl rfl fun g hg hbelow => below_here h hi hidle (by omega) hget hg hbelow,
      ⟨?_, fun hs => absurd hs hstage, fun i g hi' hg => ?_⟩⟩
    · show t.client.currentFileIndex + 1 ≤ t.client.inputQueue.items.length
      omega
    · have hi' : (i : Int) < t.client.currentFileIndex + 1 := hi'
      have hg : t.client.inputQueue.items[i]? = some g := hg
      by_cases hlast : (i : Int) = t.client.currentFileIndex
      · right
        have : i = t.client.currentFileIndex.toNat := by omega
        rw [this, hget] at hg
        exact hg
      · rcases hi.before i g (by show (i : Int) < t.client.currentFileIndex; omega) hg with hg | hg
        · exact .inl hg
        · exact absurd (hidle.symm.trans hg) (fun e => by cases e)
  | @made m₀ m item hdone hdeinit hend hmessages hroom hread =>
    have hidle := idle_of_dataDone hw hdone hdeinit
    have hlen := readIndex_eq_none hend hnonneg
    have hitems := items_write hroom (t.client.messageFile item)
    have hle : t.client.currentFileIndex ≤ t.client.inputQueue.items.length := hi.le
    -- the whole queue is before the index
    have hbefore : ∀ g ∈ t.client.inputQueue.items, g ∈ t.finished := fun g hg => by
      obtain ⟨j, hj⟩ := List.mem_iff_getElem?.1 hg
      have := (List.getElem?_eq_some_iff.1 hj).1
      rcases hi.before j g (by show (j : Int) < t.client.currentFileIndex; omega) hj with hg | hg
      · exact hg
      · exact absurd (hidle.symm.trans hg) (fun e => by cases e)
    refine ⟨.begin hidle rfl (List.mem_append_right _ List.mem_cons_self) rfl rfl fun g hg hbelow => ?_,
      ⟨?_, fun hs => absurd hs hstage, fun i g hi' hg => ?_⟩⟩
    · rcases List.mem_append.1 hg with hg | hg
      · rw [h.split] at hg
        exact (List.mem_append.1 hg).imp_right (hbefore g)
      · rw [List.mem_singleton.1 hg, trFileIdCompare_self] at hbelow
        cases hbelow
    · show t.client.currentFileIndex + 1 ≤ ((t.client.inputQueue.write (t.client.messageFile item)).items.length : Int)
      rw [hitems, List.length_append, List.length_singleton]
      omega
    · have hg : (t.client.inputQueue.write (t.client.messageFile item)).items[i]? = some g := hg
      rw [hitems] at hg
      rcases getElem?_concat_cases hg with hg | ⟨-, rfl⟩
      · exact .inl (hbefore g (List.mem_of_getElem? hg))
      · exact .inr rfl

theorem transmit_sends (t : Tracked) (n : Nat) : Sends t (t.transmit n) := by
  rcases t.transmit_cases n with ⟨-, heq⟩ | ⟨-, heq⟩
  · rw [heq]
    refine .sent rfl ?_
    show t.finished ++ t.sending.toList = t.finished ∧ none = t.sending ∨
      ∃ f, t.sending = some f ∧ none = none ∧ t.finished ++ t.sending.toList = t.finished ++ [f]
    cases t.sending with
    | none => exact .inl ⟨List.append_nil _, rfl⟩
    | some f => exact .inr ⟨f, rfl, rfl, rfl⟩
  · rw [heq]
    exact .sent rfl (.inl ⟨rfl, rfl⟩)

/-! ## What is known of the files -/

/-- **What is acknowledged, or was removed**, has a property. -/
structure Knows (G : TrFile → Prop) (t : Tracked) : Prop where
  acked : ∀ f ∈ t.queued, trFileIdCompare f.id t.client.ackId = false → G f
  removed : ∀ f ∈ t.removed, G f

/-- What lies below one of these files is before it, or has a property. -/
def Closed (G : TrFile → Prop) (queued files : List TrFile) : Prop := ∀ before h after, files = before ++ h :: after →
  ∀ f ∈ queued, trFileIdCompare h.id f.id = true → f ∈ before ∨ G f

theorem Knows.mono (h : Knows G t) (hG : ∀ f, G f → H f) : Knows H t :=
  ⟨fun f hf hle => hG f (h.acked f hf hle), fun f hf => hG f (h.removed f hf)⟩

theorem Knows.congr (h : Knows G t) (hqueued : t'.queued = t.queued) (hremoved : t'.removed = t.removed)
    (hack : t'.client.ackId = t.client.ackId) : Knows G t' where
  acked := by
    rw [hqueued, hack]
    exact h.acked
  removed := by
    rw [hremoved]
    exact h.removed

/-- A file above all others is not acknowledged. -/
theorem Knows.add (h : Knows G t) (hk : Kept t) (hf : Above t f) (hqueued : t'.queued = t.queued ++ [f])
    (hremoved : t'.removed = t.removed) (hack : t'.client.ackId = t.client.ackId) : Knows G t' where
  acked := by
    rw [hqueued, hack]
    intro g hg hle
    rcases List.mem_append.1 hg with hg | hg
    · exact h.acked g hg hle
    · exfalso
      rw [List.mem_singleton.1 hg] at hle
      rcases hk.ackId with ⟨hmin, hmaj⟩ | ⟨named, hnamed, hr⟩
      · have := hf.2
        rw [compare_congr (d := t.client.ackId) ⟨hmin.symm, hmaj.symm⟩ ⟨rfl, rfl⟩, hle] at this
        cases this
      · have := hf.1 named (hk.sent named hnamed)
        rw [compare_congr (d := t.client.ackId) ⟨hr.1, hr.2⟩ ⟨rfl, rfl⟩, hle] at this
        cases this
  removed := by
    rw [hremoved]
    exact h.removed

theorem Knows.removes (h : Knows G t) (hk : Kept t) (hr : Removes t t') : Knows G t' := by
  have first : ∀ {f}, t.client.inputQueue.items.head? = some f → trFileIdCompare f.id t.client.ackId = false → G f :=
    fun hfirst hack => h.acked _ (by rw [hk.split]; exact List.mem_append_right _ (List.mem_of_mem_head? hfirst)) hack
  have hremoved : ∀ {f}, G f → ∀ g ∈ t.removed ++ [f], G g := fun hf g hg => by
    rcases List.mem_append.1 hg with hg | hg
    · exact h.removed g hg
    · rw [List.mem_singleton.1 hg]
      exact hf
  cases hr with
  | stop => exact h.congr rfl rfl rfl
  | acked hfirst hack => exact ⟨h.acked, hremoved (first hfirst hack)⟩
  | moved hfirst hack => exact ⟨h.acked, hremoved (first hfirst hack)⟩

theorem Knows.reply (h : Knows G t) {line : Bytes} (hline : ∀ r, TrClient.parseAck line = some r →
    ∀ f ∈ t.queued, ∀ id : TrFileId, id.minId = r.1 → id.majId = r.2 → trFileIdCompare f.id id = false → G f) :
    Knows G (t.reply line) where
  acked := fun f hf hle => by
    cases hparse : TrClient.parseAck line with
    | none =>
      simp only [Tracked.reply, TrClient.reply, hparse] at hle
      exact h.acked f hf hle
    | some r =>
      simp only [Tracked.reply, TrClient.reply, hparse] at hle
      exact hline r hparse f hf _ rfl rfl hle
  removed := h.removed

theorem Knows.replies : ∀ (lines : List Bytes) {t : Tracked}, Knows G t → (∀ line ∈ lines, ∀ r,
    TrClient.parseAck line = some r → ∀ f ∈ t.queued, ∀ id : TrFileId, id.minId = r.1 → id.majId = r.2 →
      trFileIdCompare f.id id = false → G f) → Knows G (lines.foldl Tracked.reply t)
  | [], _, h, _ => h
  | line :: lines, _, h, hlines =>
    Knows.replies lines (h.reply (hlines line List.mem_cons_self)) fun l hl => hlines l (List.mem_cons_of_mem _ hl)

theorem Closed.mono {queued files : List TrFile} (h : Closed G queued files) (hG : ∀ f, G f → H f) :
    Closed H queued files :=
  fun before k after hsplit f hf hbelow => (h before k after hsplit f hf hbelow).imp_right (hG f)

/-- A file above all others is below none. -/
theorem Closed.add {queued files : List TrFile} (h : Closed G queued files)
    (hf : ∀ g ∈ files, trFileIdCompare f.id g.id = true) : Closed G (queued ++ [f]) files := by
  intro before k after hsplit g hg hbelow
  rcases List.mem_append.1 hg with hg | hg
  · exact h before k after hsplit g hg hbelow
  · rw [List.mem_singleton.1 hg] at hbelow
    have hk := hf k (by rw [hsplit]; exact List.mem_append_right _ List.mem_cons_self)
    have := trFileIdCompare_asymm hk
    rw [hbelow] at this
    cases this

/-- One more file, with what lies below it before it. -/
theorem Closed.append {queued files : List TrFile} (h : Closed G queued files)
    (hf : ∀ g ∈ queued, trFileIdCompare f.id g.id = true → g ∈ files ∨ G g) : Closed G queued (files ++ [f]) := by
  intro before k after hsplit g hg hbelow
  rcases List.eq_nil_or_concat after with rfl | ⟨after', last, rfl⟩
  · obtain ⟨rfl, hlast⟩ := List.append_inj' hsplit rfl
    obtain rfl := (List.cons.inj hlast).1
    exact hf g hg hbelow
  · rw [List.concat_eq_append, ← List.cons_append, ← List.append_assoc] at hsplit
    obtain ⟨rfl, -⟩ := List.append_inj' hsplit rfl
    exact h before k after' rfl g hg hbelow

/-! ## A client's own step -/

/-- **What a client's own step does**, seen from its connection. -/
structure GoesOn (t t' : Tracked) : Prop where
  stage : t'.client.stage = .notConnected ↔ t.client.stage = .notConnected
  name : t'.client.clientName = t.client.clientName
  proxyState : t'.client.proxyState = t.client.proxyState
  sends : t.client.stage ≠ .notConnected → Sends t t' ∧ Indexed t'.here
  sent : ∀ f ∈ t.sent, f ∈ t'.sent
  finished : ∀ f ∈ t'.finished, f ∈ t.finished ∨ f ∈ t'.sent
  queued : t'.queued = t.queued ∨ ∃ f, t'.queued = t.queued ++ [f] ∧ Above t f
  knows : ∀ G, Knows G t → Knows G t'

theorem GoesOn.iniLine (h : GoesOn t t') : t'.client.iniLine = t.client.iniLine := by
  unfold TrClient.iniLine
  rw [h.name, h.proxyState]

theorem GoesOn.opens (h : GoesOn t t') (ho : t.client.Opens) : t'.client.Opens := by
  refine ⟨h.name ▸ ho.line, ?_⟩
  unfold TrClient.iniText
  rw [h.name, h.proxyState]
  exact ho.fits

theorem GoesOn.same (hs : SameSending t t') (hstage : t'.client.stage = .notConnected ↔ t.client.stage = .notConnected)
    (hi : t.client.stage ≠ .notConnected → Indexed t'.here) (hsent : t'.sent = t.sent) (hqueued : t'.queued = t.queued)
    (hknows : ∀ G, Knows G t → Knows G t') : GoesOn t t' where
  stage := hstage
  name := hs.name
  proxyState := hs.proxyState
  sends := fun h => ⟨.nothing hs, hi h⟩
  sent := fun _ hf => hsent ▸ hf
  finished := fun _ hf => .inl (hs.finished ▸ hf)
  queued := .inl hqueued
  knows := hknows

theorem queueAddFile_goesOn (h : Kept t) (hi : t.client.stage ≠ .notConnected → Indexed t.here) (f : TrFile)
    (hf : t.AddsAbove (.queueAddFile f)) : GoesOn t (t.queueAddFile f) := by
  have hindexed : t.client.stage ≠ .notConnected → Indexed (t.queueAddFile f).here := fun hstage => by
    have hadd := (hi hstage).queueAddFile f
    unfold Tracked.queueAddFile at hadd ⊢
    split <;> rename_i hfull <;> simp only [here, hfull] at hadd ⊢ <;> exact hadd
  have hstage := t.queueAddFile_stage f
  have hsame := t.queueAddFile_same f
  by_cases hfull : t.client.inputQueue.isFull = true
  · have heq : t.queueAddFile f = t := if_pos hfull
    rw [heq] at hindexed ⊢
    exact .same ⟨rfl, rfl, rfl, rfl, rfl, rfl, rfl, rfl, rfl, rfl⟩ Iff.rfl hindexed rfl rfl fun _ hG => hG
  · have habove := hf (Bool.eq_false_iff.2 hfull)
    have heq : t.queueAddFile f = { t with
        client := { t.client with
          inputQueue := t.client.inputQueue.write { f with handle := t.client.allocated }
          allocated := t.client.allocated + 1 }
        queued := t.queued ++ [{ f with handle := t.client.allocated }] } := if_neg hfull
    rw [heq] at hindexed hstage hsame ⊢
    exact ⟨by rw [hstage], hsame.name, hsame.proxyState, fun h => ⟨.nothing hsame, hindexed h⟩, fun _ hf => hf,
      fun _ hf => .inl hf, .inr ⟨_, rfl, habove⟩, fun G hG => hG.add h habove rfl rfl rfl⟩

theorem removes_goesOn (h : Kept t) (hi : t.client.stage ≠ .notConnected → Indexed t.here)
    (hat : t.client.stage = .removing) (hr : Removes t t') : GoesOn t t' := by
  have hknows : ∀ G, Knows G t → Knows G t' := fun G hG => hG.removes h hr
  cases hr with
  | stop =>
    refine .same (Removes.stop).same ?_ (fun hc => (hi hc).removes hat .stop) rfl rfl hknows
    simp [TrClient.endRemoving, hat]
  | acked hfirst hack hm =>
    exact .same (Removes.acked hfirst hack hm).same Iff.rfl
      (fun hc => (hi hc).removes hat (.acked hfirst hack hm)) rfl rfl
      hknows
  | moved hfirst hack hm hroom =>
    exact .same (Removes.moved hfirst hack hm hroom).same Iff.rfl
      (fun hc => (hi hc).removes hat (.moved hfirst hack hm hroom)) rfl rfl hknows

theorem onMessages_goesOn {call : Perm.Env × Perm.Call} (hi : t.client.stage ≠ .notConnected → Indexed t.here)
    (hs : t.onMessages call = some t') : GoesOn t t' := by
  have hsame := onMessages_same hs
  have hstage := onMessages_stage hs
  unfold Tracked.onMessages at hs
  split at hs
  · obtain rfl := Option.some.inj hs
    exact .same hsame Iff.rfl hi rfl rfl fun _ hG => hG
  · obtain ⟨m, -, rfl⟩ := Option.map_eq_some_iff.1 hs
    exact .same hsame Iff.rfl (fun hc => (hi hc).congr rfl rfl (fun h => h) (fun _ hf => hf) fun _ hf => .inr hf) rfl
      rfl
      fun _ hG => hG.congr rfl rfl rfl

theorem select_goesOn {e : Perm.Env} (h : Kept t) (hw : Wired t) (hi : Indexed t.here)
    (hat : t.client.stage = .selecting)
    (hadds : t.AddsAbove (.select e)) (hs : t.select e = some t') : GoesOn t t' := by
  obtain ⟨hsends, hindexed⟩ := select_here h hw hi hat hs
  obtain ⟨choice, hchoice, rfl⟩ := Option.map_eq_some_iff.1 hs
  have hstage : (t.chosen choice).client.stage = .notConnected ↔ t.client.stage = .notConnected := by
    rw [chosen_stage, hat]
    decide
  cases TrClient.chooseFile_chose hchoice with
  | nothing =>
    exact ⟨hstage, rfl, rfl, fun _ => ⟨hsends, hindexed⟩, fun _ hf => hf, fun _ hf => .inl hf, .inl rfl,
      fun _ hG => hG.congr rfl rfl rfl⟩
  | ended =>
    exact ⟨hstage, rfl, rfl, fun _ => ⟨hsends, hindexed⟩, fun _ hf => hf, fun _ hf => .inl hf, .inl rfl,
      fun _ hG => hG.congr rfl rfl rfl⟩
  | begun =>
    exact ⟨hstage, rfl, rfl, fun _ => ⟨hsends, hindexed⟩, fun _ hf => hf, fun _ hf => .inl hf, .inl rfl,
      fun _ hG => hG.congr rfl rfl rfl⟩
  | made =>
    have habove := hadds _ _ hchoice
    exact ⟨hstage, rfl, rfl, fun _ => ⟨hsends, hindexed⟩, fun _ hf => hf, fun _ hf => .inl hf, .inr ⟨_, rfl, habove⟩,
      fun _ hG => hG.add h habove rfl rfl rfl⟩

theorem transmit_goesOn (hi : Indexed t.here) (hat : t.client.stage = .sending) (n : Nat) :
    GoesOn t (t.transmit n) := by
  obtain ⟨hname, hproxy, hqueue, hack, hindex, -⟩ := t.client.fillBuffer_same
  have hsends := t.transmit_sends n
  rcases t.transmit_cases n with ⟨-, heq⟩ | ⟨-, heq⟩
  · rw [heq] at hsends ⊢
    refine ⟨?_, hname, hproxy, fun _ => ⟨hsends, ?_⟩, fun f hf => List.mem_append_left _ hf, fun f hf => ?_, .inl rfl,
      fun _ hG => hG.congr rfl rfl hack⟩
    · rw [hat]
      exact ⟨(fun h => by cases h), (fun h => by cases h)⟩
    · refine hi.congr (congrArg Fifo.items hqueue) hindex (fun hs => by cases hs)
        (fun f hf => List.mem_append_left _ hf) fun f hf => .inl ?_
      show f ∈ t.finished ++ t.sending.toList
      rw [show t.sending = some f from hf]
      exact List.mem_append_right _ List.mem_cons_self
    · exact (List.mem_append.1 hf).imp_right fun hf => List.mem_append_right _ hf
  · rw [heq] at hsends ⊢
    refine ⟨?_, hname, hproxy, fun _ => ⟨hsends, ?_⟩, fun f hf => hf, fun f hf => .inl hf, .inl rfl,
      fun _ hG => hG.congr rfl rfl hack⟩
    · rw [hat]
      exact ⟨(fun h => by cases h), (fun h => by cases h)⟩
    · exact hi.congr (congrArg Fifo.items hqueue) hindex (fun hs => by cases hs) (fun _ hf => hf) fun _ hf => .inr hf

/-- **A client's own step** goes on with what it has begun. -/
theorem own_goesOn (a : Action) (hown : System.Own a) (h : Ordered t)
    (hi : t.client.stage ≠ .notConnected → Indexed t.here)
    (hadds : t.AddsAbove a) (hs : t.step a = some t') : GoesOn t t' := by
  cases a with
  | connect direct => exact hown.elim
  | lose => exact hown.elim
  | replies lines => exact hown.elim
  | remove =>
    obtain ⟨hat, hs⟩ := Option.ite_none_right_eq_some.1 hs
    obtain rfl := Option.some.inj hs
    exact removes_goesOn h.kept hi hat (remove_removes t)
  | select e =>
    obtain ⟨hat, hs⟩ := Option.ite_none_right_eq_some.1 hs
    have hc : t.client.stage ≠ .notConnected := by rw [hat]; decide
    exact select_goesOn h.kept (h.wired hc) (hi hc) hat hadds hs
  | transmit n =>
    obtain ⟨hat, hs⟩ := Option.ite_none_right_eq_some.1 hs
    obtain rfl := Option.some.inj hs
    exact transmit_goesOn (hi (by rw [hat]; decide)) hat n
  | flush e =>
    obtain ⟨hat, hs⟩ := Option.ite_none_right_eq_some.1 hs
    exact onMessages_goesOn hi hs
  | sendMsg e msg => exact onMessages_goesOn hi hs
  | queueAddFile f =>
    obtain rfl := Option.some.inj hs
    exact queueAddFile_goesOn h.kept hi f hadds
  | getLastFileSent =>
    obtain rfl := Option.some.inj hs
    exact .same ⟨rfl, rfl, rfl, rfl, rfl, rfl, rfl, rfl, rfl, rfl⟩ Iff.rfl (fun hc => (hi hc).congr rfl rfl (fun h => h)
      (fun _ hf => hf) fun _ hf => .inr hf) rfl rfl fun _ hG => hG.congr rfl rfl rfl

end Tracked
end Transport
end Flp
