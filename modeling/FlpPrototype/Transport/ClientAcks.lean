import FlpPrototype.Lib.Places
import FlpPrototype.Transport.ClientWire
/-!
# ClientAcks — which files the client takes for acknowledged

An acknowledgement outlives its connection, and all files up to its id are taken for acknowledged by it.  This is right
as long as files enter the queue in increasing order of their ids (`Above`): then whatever was sent, everything below it
was sent before, and what is removed was acknowledged (`Kept`).
-/
namespace Flp
namespace Transport
namespace Tracked

variable {t t' : Tracked} {f g : TrFile}

/-- A file the id of which is above those of all files there were, and above the one nothing is acknowledged by. -/
def Above (t : Tracked) (f : TrFile) : Prop :=
  (∀ g ∈ t.queued, trFileIdCompare f.id g.id = true) ∧ trFileIdCompare f.id noneAcknowledged = true

/-- **Removed files were acknowledged**, acknowledged ones sent, and what lies below a file that was sent was sent
before it. -/
structure Kept (t : Tracked) : Prop where
  split : t.queued = t.removed ++ t.client.inputQueue.items
  increasing : t.queued.Pairwise fun f g => trFileIdCompare g.id f.id = true
  above : ∀ f ∈ t.queued, trFileIdCompare f.id noneAcknowledged = true
  removed : ∀ f ∈ t.removed, f ∈ t.acknowledged
  acknowledged : ∀ f ∈ t.acknowledged, f ∈ t.sent
  sent : ∀ f ∈ t.sent, f ∈ t.queued
  closed : ∀ before f after, t.sent = before ++ f :: after → ∀ g ∈ t.queued, trFileIdCompare f.id g.id = true →
    g ∈ before
  ackId : (t.client.ackId.minId = 0 ∧ t.client.ackId.majId = 0) ∨
    ∃ f ∈ t.sent, f.Named (t.client.ackId.minId, t.client.ackId.majId)
  acked : ∀ f ∈ t.queued, trFileIdCompare f.id t.client.ackId = false → f ∈ t.acknowledged
  sending : ∀ f, t.sending = some f → f ∈ t.queued ∧ ∀ g ∈ t.queued, trFileIdCompare f.id g.id = true → g ∈ t.sent

/-- What the index stands for: files before it were sent, or are under way. -/
structure Indexed (t : Tracked) : Prop where
  le : t.client.currentFileIndex ≤ t.client.inputQueue.items.length
  nonneg : t.client.stage = .selecting → 0 ≤ t.client.currentFileIndex
  before : ∀ (i : Nat) f, (i : Int) < t.client.currentFileIndex → t.client.inputQueue.items[i]? = some f →
    f ∈ t.sent ∨ t.sending = some f

/-! ## Ids -/

/-- Ids are compared by their two numbers. -/
theorem compare_congr {a b c d : TrFileId} (hb : b.minId = d.minId ∧ b.majId = d.majId)
    (ha : a.minId = c.minId ∧ a.majId = c.majId) : trFileIdCompare a b = trFileIdCompare c d := by
  unfold trFileIdCompare
  rw [ha.1, ha.2, hb.1, hb.2]

/-- Two files of increasing ids that compare equal are one. -/
theorem Kept.eq_of_same (h : Kept t) (hf : f ∈ t.queued) (hg : g ∈ t.queued)
    (hfg : trFileIdCompare f.id g.id = false) (hgf : trFileIdCompare g.id f.id = false) : f = g := by
  obtain ⟨i, hi⟩ := List.mem_iff_getElem?.1 hf
  obtain ⟨j, hj⟩ := List.mem_iff_getElem?.1 hg
  obtain ⟨hil, hie⟩ := List.getElem?_eq_some_iff.1 hi
  obtain ⟨hjl, hje⟩ := List.getElem?_eq_some_iff.1 hj
  rcases Nat.lt_trichotomy i j with hlt | heq | hlt
  · have := List.pairwise_iff_getElem.1 h.increasing i j hil hjl hlt
    rw [hie, hje, hgf] at this
    cases this
  · subst heq
    exact hie.symm.trans hje
  · have := List.pairwise_iff_getElem.1 h.increasing j i hjl hil hlt
    rw [hie, hje, hfg] at this
    cases this

/-! ## Replies -/

theorem acknowledges_subset (sent : List TrFile) (r : Int × Int) : ∀ f ∈ acknowledges sent r, f ∈ sent :=
  fun _ hf => List.mem_of_mem_take hf

/-- **An acknowledgement of a file that was sent** covers all that the client takes for acknowledged by it. -/
theorem Kept.acknowledges (h : Kept t) {r : Int × Int} {named : TrFile} (hnamed : named ∈ t.sent) (hr : named.Named r)
    (hf : f ∈ t.queued) {ackId : TrFileId} (hid : ackId.minId = r.1 ∧ ackId.majId = r.2)
    (hle : trFileIdCompare f.id ackId = false) : f ∈ acknowledges t.sent r := by
  have hlt : t.sent.findIdx (·.Named r) < t.sent.length :=
    List.findIdx_lt_length_of_exists ⟨named, hnamed, decide_eq_true hr⟩
  generalize hk : t.sent.findIdx (·.Named r) = k at hlt
  have hsplit : t.sent = t.sent.take k ++ t.sent[k] :: t.sent.drop (k + 1) := by
    rw [List.getElem_cons_drop, List.take_append_drop]
  have hfirst : t.sent[k].Named r := by
    have := @List.findIdx_getElem _ (fun f : TrFile => decide (f.Named r)) t.sent (by rw [hk]; exact hlt)
    simp only [hk] at this
    exact of_decide_eq_true this
  have hsent : t.sent[k] ∈ t.queued := h.sent _ (List.getElem_mem hlt)
  have hle' : trFileIdCompare f.id t.sent[k].id = false := by
    rw [← hle]
    exact compare_congr ⟨hfirst.1.trans hid.1.symm, hfirst.2.trans hid.2.symm⟩ ⟨rfl, rfl⟩
  rw [Transport.acknowledges, hk, List.take_succ_eq_append_getElem hlt]
  cases hbelow : trFileIdCompare t.sent[k].id f.id with
  | true => exact List.mem_append_left _ (h.closed _ _ _ hsplit f hf hbelow)
  | false =>
    rw [h.eq_of_same hf hsent hle' hbelow]
    exact List.mem_append_right _ List.mem_cons_self

theorem Kept.reply (h : Kept t) {line : Bytes}
    (hserver : ∀ r, TrClient.parseAck line = some r → ∃ f ∈ t.sent, f.Named r) : Kept (t.reply line) := by
  cases hparse : TrClient.parseAck line with
  | none =>
    refine ⟨h.split, h.increasing, h.above, fun f hf => ?_, fun f hf => ?_, h.sent, h.closed, ?_, fun f hf hle => ?_,
      h.sending⟩
    · simp only [Tracked.reply, hparse]
      exact h.removed f hf
    · simp only [Tracked.reply, hparse] at hf
      exact h.acknowledged f hf
    · simp only [Tracked.reply, TrClient.reply, hparse]
      exact h.ackId
    · simp only [Tracked.reply, TrClient.reply, hparse] at hle ⊢
      exact h.acked f hf hle
  | some r =>
    obtain ⟨named, hnamed, hr⟩ := hserver r hparse
    refine ⟨h.split, h.increasing, h.above, fun f hf => ?_, fun f hf => ?_, h.sent, h.closed, .inr ⟨named, hnamed, ?_⟩,
      fun f hf hle => ?_, h.sending⟩
    · simp only [Tracked.reply, hparse]
      exact List.mem_append_left _ (h.removed f hf)
    · simp only [Tracked.reply, hparse] at hf
      rcases List.mem_append.1 hf with hf | hf
      · exact h.acknowledged f hf
      · exact acknowledges_subset _ _ f hf
    · simp only [Tracked.reply, TrClient.reply, hparse]
      exact hr
    · simp only [Tracked.reply, TrClient.reply, hparse] at hle ⊢
      exact List.mem_append_right _ (h.acknowledges hnamed hr hf ⟨rfl, rfl⟩ hle)

theorem Kept.replies : ∀ (lines : List Bytes) {t : Tracked}, Kept t → (∀ line ∈ lines, ∀ r,
    TrClient.parseAck line = some r → ∃ f ∈ t.sent, f.Named r) → Kept (lines.foldl Tracked.reply t)
  | [], _, h, _ => h
  | line :: lines, _, h, hserver =>
    Kept.replies lines (h.reply fun r hr => hserver line List.mem_cons_self r hr)
      fun l hl r hr => hserver l (List.mem_cons_of_mem _ hl) r hr

/-! ## Steps that add, send or acknowledge nothing -/

theorem Kept.congr (h : Kept t) (hqueued : t'.queued = t.queued) (hremoved : t'.removed = t.removed)
    (hitems : t'.client.inputQueue.items = t.client.inputQueue.items) (hacknowledged : t'.acknowledged = t.acknowledged)
    (hsent : t'.sent = t.sent) (hack : t'.client.ackId = t.client.ackId)
    (hsending : ∀ f, t'.sending = some f → t.sending = some f) : Kept t' where
  split := by rw [hqueued, hremoved, hitems]; exact h.split
  increasing := by rw [hqueued]; exact h.increasing
  above := by rw [hqueued]; exact h.above
  removed := by rw [hremoved, hacknowledged]; exact h.removed
  acknowledged := by rw [hacknowledged, hsent]; exact h.acknowledged
  sent := by rw [hsent, hqueued]; exact h.sent
  closed := by rw [hsent, hqueued]; exact h.closed
  ackId := by rw [hack, hsent]; exact h.ackId
  acked := by rw [hqueued, hack, hacknowledged]; exact h.acked
  sending := by rw [hqueued, hsent]; exact fun f hf => h.sending f (hsending f hf)

theorem Indexed.congr (h : Indexed t) (hitems : t'.client.inputQueue.items = t.client.inputQueue.items)
    (hindex : t'.client.currentFileIndex = t.client.currentFileIndex)
    (hstage : t'.client.stage = .selecting → t.client.stage = .selecting) (hsent : ∀ f ∈ t.sent, f ∈ t'.sent)
    (hsending : ∀ f, t.sending = some f → f ∈ t'.sent ∨ t'.sending = some f) : Indexed t' where
  le := by rw [hindex, hitems]; exact h.le
  nonneg := by rw [hindex]; exact fun hs => h.nonneg (hstage hs)
  before := by
    rw [hindex, hitems]
    intro i f hi hf
    rcases h.before i f hi hf with hf | hf
    · exact .inl (hsent f hf)
    · exact hsending f hf

/-! ## Removing -/

theorem Kept.take (h : Kept t) (hfirst : t.client.inputQueue.items.head? = some f)
    (hack : trFileIdCompare f.id t.client.ackId = false) (hqueued : t'.queued = t.queued)
    (hremoved : t'.removed = t.removed ++ [f]) (hitems : t'.client.inputQueue.items = t.client.inputQueue.items.tail)
    (hacknowledged : t'.acknowledged = t.acknowledged) (hsent : t'.sent = t.sent)
    (hackId : t'.client.ackId = t.client.ackId) (hsending : t'.sending = t.sending) : Kept t' := by
  have hsplit := h.split
  rw [List.eq_cons_of_mem_head? hfirst] at hsplit
  have hf : f ∈ t.queued := by
    rw [hsplit]
    exact List.mem_append_right _ List.mem_cons_self
  refine ⟨?_, by rw [hqueued]; exact h.increasing, by rw [hqueued]; exact h.above, fun g hg => ?_,
    by rw [hacknowledged, hsent]; exact h.acknowledged, by rw [hsent, hqueued]; exact h.sent,
    by rw [hsent, hqueued]; exact h.closed, by rw [hackId, hsent]; exact h.ackId,
    by rw [hqueued, hackId, hacknowledged]; exact h.acked, by rw [hsending, hqueued, hsent]; exact h.sending⟩
  · rw [hqueued, hremoved, hitems, hsplit, List.append_assoc]
    rfl
  · rw [hremoved] at hg
    rw [hacknowledged]
    rcases List.mem_append.1 hg with hg | hg
    · exact h.removed g hg
    · rw [List.mem_singleton.1 hg]
      exact h.acked f hf hack

theorem Kept.removes (h : Kept t) (hr : Removes t t') : Kept t' := by
  cases hr with
  | stop => exact h.congr rfl rfl rfl rfl rfl rfl fun _ hf => hf
  | acked hfirst hack => exact h.take hfirst hack rfl rfl rfl rfl rfl rfl rfl
  | moved hfirst hack => exact h.take hfirst hack rfl rfl rfl rfl rfl rfl rfl

theorem Indexed.take (h : Indexed t) (hfirst : t.client.inputQueue.items.head? = some f)
    (hitems : t'.client.inputQueue.items = t.client.inputQueue.items.tail)
    (hindex : t'.client.currentFileIndex = t.client.currentFileIndex - 1) (hstage : t'.client.stage ≠ .selecting)
    (hsent : t'.sent = t.sent) (hsending : t'.sending = t.sending) : Indexed t' := by
  have hcons := List.eq_cons_of_mem_head? hfirst
  have hlen : t.client.inputQueue.items.length = t.client.inputQueue.items.tail.length + 1 := by
    rw [hcons]
    rfl
  refine ⟨?_, fun hs => absurd hs hstage, fun i g hi hg => ?_⟩
  · have := h.le
    rw [hindex, hitems]
    omega
  · rw [hindex] at hi
    rw [hitems, List.getElem?_tail] at hg
    rw [hsent, hsending]
    exact h.before (i + 1) g (by omega) hg

theorem Indexed.removes (h : Indexed t) (hat : t.client.stage = .removing) (hr : Removes t t') : Indexed t' := by
  have hstage : t.client.stage ≠ .selecting := by rw [hat]; decide
  cases hr with
  | stop =>
    have hle := h.le
    refine ⟨?_, fun _ => ?_, fun i g hi hg => ?_⟩
    · show (if t.client.currentFileIndex < 0 then 0 else t.client.currentFileIndex) ≤ _
      split
      · exact Int.natCast_nonneg _
      · exact hle
    · show 0 ≤ (if t.client.currentFileIndex < 0 then 0 else t.client.currentFileIndex)
      split <;> omega
    · have hi : (i : Int) < (if t.client.currentFileIndex < 0 then 0 else t.client.currentFileIndex) := hi
      split at hi
      · omega
      · exact h.before i g hi hg
  | acked hfirst => exact h.take hfirst rfl rfl hstage rfl rfl
  | moved hfirst => exact h.take hfirst rfl rfl hstage rfl rfl

/-! ## Files that enter the queue -/

theorem Kept.add (h : Kept t) (hf : Above t f) (hqueued : t'.queued = t.queued ++ [f])
    (hremoved : t'.removed = t.removed) (hitems : t'.client.inputQueue.items = t.client.inputQueue.items ++ [f])
    (hacknowledged : t'.acknowledged = t.acknowledged) (hsent : t'.sent = t.sent)
    (hackId : t'.client.ackId = t.client.ackId)
    (hsending : ∀ g, t'.sending = some g → g ∈ t'.queued ∧ ∀ k ∈ t'.queued, trFileIdCompare g.id k.id = true →
      k ∈ t.sent) :
    Kept t' := by
  have hmem : ∀ {g}, g ∈ t'.queued → g ∈ t.queued ∨ g = f := fun hg => by
    rw [hqueued] at hg
    exact (List.mem_append.1 hg).imp_right List.mem_singleton.1
  -- nothing that was there is above the new file
  have hnone : ∀ g ∈ t.queued, trFileIdCompare g.id f.id ≠ true := fun g hg htrue => by
    have := trFileIdCompare_asymm (hf.1 g hg)
    rw [htrue] at this
    cases this
  refine ⟨?_, ?_, fun g hg => ?_, by rw [hremoved, hacknowledged]; exact h.removed,
    by rw [hacknowledged, hsent]; exact h.acknowledged, fun g hg => ?_, fun before g after hsplit k hk hbelow => ?_,
    by rw [hackId, hsent]; exact h.ackId, fun g hg hle => ?_, by rw [hsent]; exact hsending⟩
  · rw [hqueued, hremoved, hitems, h.split, List.append_assoc]
  · rw [hqueued, List.pairwise_append]
    refine ⟨h.increasing, List.pairwise_singleton _ _, fun g hg k hk => ?_⟩
    rw [List.mem_singleton.1 hk]
    exact hf.1 g hg
  · rcases hmem hg with hg | rfl
    · exact h.above g hg
    · exact hf.2
  · rw [hsent] at hg
    rw [hqueued]
    exact List.mem_append_left _ (h.sent g hg)
  · rw [hsent] at hsplit
    have hg : g ∈ t.queued := h.sent g (by rw [hsplit]; exact List.mem_append_right _ List.mem_cons_self)
    rcases hmem hk with hk | rfl
    · exact h.closed before g after hsplit k hk hbelow
    · exact absurd hbelow (hnone g hg)
  · rw [hackId] at hle
    rw [hacknowledged]
    rcases hmem hg with hg | rfl
    · exact h.acked g hg hle
    · -- the id it is compared with is none, or that of a file before it
      exfalso
      rcases h.ackId with ⟨hmin, hmaj⟩ | ⟨named, hnamed, hr⟩
      · have := hf.2
        rw [compare_congr (d := t.client.ackId) ⟨hmin.symm, hmaj.symm⟩ ⟨rfl, rfl⟩, hle] at this
        cases this
      · have := hf.1 named (h.sent named hnamed)
        rw [compare_congr (d := t.client.ackId) ⟨hr.1, hr.2⟩ ⟨rfl, rfl⟩, hle] at this
        cases this

theorem items_write {q : Fifo} (h : q.isFull = false) (f : TrFile) : (q.write f).items = q.items ++ [f] := by
  unfold Fifo.write
  rw [h]
  rfl

theorem Kept.queueAddFile (h : Kept t) (f : TrFile)
    (hf : t.client.inputQueue.isFull = false → Above t { f with handle := t.client.allocated }) :
    Kept (t.queueAddFile f) := by
  unfold Tracked.queueAddFile
  split
  · exact h
  · rename_i hroom
    have hroom := Bool.eq_false_iff.2 hroom
    refine h.add (hf hroom) rfl rfl (items_write hroom _) rfl rfl rfl fun g hg => ?_
    obtain ⟨hmem, hbelow⟩ := h.sending g hg
    refine ⟨List.mem_append_left _ hmem, fun k hk hcmp => ?_⟩
    rcases List.mem_append.1 hk with hk | hk
    · exact hbelow k hk hcmp
    · rw [List.mem_singleton.1 hk] at hcmp
      have := trFileIdCompare_asymm ((hf hroom).1 g hmem)
      rw [hcmp] at this
      cases this

theorem Indexed.queueAddFile (h : Indexed t) (f : TrFile) : Indexed (t.queueAddFile f) := by
  unfold Tracked.queueAddFile
  split
  · exact h
  · rename_i hroom
    have hitems := items_write (Bool.eq_false_iff.2 hroom) { f with handle := t.client.allocated }
    have hle := h.le
    refine ⟨?_, h.nonneg, fun i g hi hg => ?_⟩
    · simp only [hitems, List.length_append, List.length_singleton]
      omega
    · simp only [hitems] at hg
      have hi : (i : Int) < t.client.currentFileIndex := hi
      rw [List.getElem?_append_left (by omega)] at hg
      exact h.before i g hi hg

/-! ## The choice of the next file -/

theorem readIndex_eq_some {q : Fifo} {index : Int} (h : q.readIndex index = some f) :
    0 ≤ index ∧ q.items[index.toNat]? = some f := by
  unfold Fifo.readIndex at h
  split at h
  · cases h
  · rename_i hneg
    exact ⟨Int.not_lt.1 hneg, h⟩

theorem readIndex_eq_none {q : Fifo} {index : Int} (h : q.readIndex index = none) (hpos : 0 ≤ index) :
    (q.items.length : Int) ≤ index := by
  unfold Fifo.readIndex at h
  rw [if_neg (Int.not_lt.2 hpos)] at h
  have := List.getElem?_eq_none_iff.1 h
  omega

/-- What lies below a file of the queue was removed, or is before it in the queue. -/
theorem Kept.below (h : Kept t) {i : Nat} (hf : t.client.inputQueue.items[i]? = some f) (hg : g ∈ t.queued)
    (hbelow : trFileIdCompare f.id g.id = true) : g ∈ t.removed ∨ ∃ j < i, t.client.inputQueue.items[j]? = some g := by
  rw [h.split] at hg
  rcases List.mem_append.1 hg with hg | hg
  · exact .inl hg
  obtain ⟨j, hj⟩ := List.mem_iff_getElem?.1 hg
  obtain ⟨hjl, hje⟩ := List.getElem?_eq_some_iff.1 hj
  obtain ⟨hil, hie⟩ := List.getElem?_eq_some_iff.1 hf
  have hitems : t.client.inputQueue.items.Pairwise fun f g => trFileIdCompare g.id f.id = true := by
    have := h.increasing
    rw [h.split] at this
    exact (List.pairwise_append.1 this).2.1
  rcases Nat.lt_trichotomy j i with hlt | heq | hlt
  · exact .inr ⟨j, hlt, hj⟩
  · subst heq
    rw [hie] at hje
    rw [hje, trFileIdCompare_self] at hbelow
    cases hbelow
  · have := trFileIdCompare_asymm (List.pairwise_iff_getElem.1 hitems i j hil hjl hlt)
    rw [hie, hje, hbelow] at this
    cases this

/-- All files before the index were sent, if none is under way. -/
theorem Kept.sent_before (h : Kept t) (hi : Indexed t) (hidle : t.sending = none) {i : Nat}
    (hindex : (i : Int) ≤ t.client.currentFileIndex) (hf : t.client.inputQueue.items[i]? = some f) (hg : g ∈ t.queued)
    (hbelow : trFileIdCompare f.id g.id = true) : g ∈ t.sent := by
  rcases h.below hf hg hbelow with hg | ⟨j, hj, hg⟩
  · exact h.acknowledged g (h.removed g hg)
  · rcases hi.before j g (by omega) hg with hg | hg
    · exact hg
    · rw [hidle] at hg
      cases hg

theorem chosen_stage (t : Tracked) (choice : TrClient.Choice) : (t.chosen choice).client.stage = .sending := by
  cases choice <;> rfl

/-- **The choice of the next file** keeps the order, if a message that is read makes a file above all others. -/
theorem Kept.select {e : Perm.Env} (h : Kept t) (hw : Wired t) (hi : Indexed t) (hat : t.client.stage = .selecting)
    (hmade : ∀ f client, t.client.chooseFile e = some (.made f client) → Above t f) (hs : t.select e = some t') :
    Kept t' ∧ Indexed t' := by
  obtain ⟨choice, hchoice, rfl⟩ := Option.map_eq_some_iff.1 hs
  have hnonneg := hi.nonneg hat
  have hstage : (t.chosen choice).client.stage ≠ .selecting := by
    rw [chosen_stage]
    decide
  have hidle : t.client.dataDone → t.client.fileTransfertDeinit = false → t.sending = none := fun hdone hdeinit => by
    obtain ⟨ini, rest, -, hpart, -⟩ := hw
    rcases hpart.dataDone hdone with ⟨hnone, -⟩ | ⟨-, htrue⟩
    · exact hnone
    · exact absurd htrue (Bool.eq_false_iff.1 hdeinit)
  cases TrClient.chooseFile_chose hchoice with
  | nothing =>
    exact ⟨h.congr rfl rfl rfl rfl rfl rfl fun _ hf => hf,
      hi.congr rfl rfl (fun hs => absurd hs hstage) (fun _ hf => hf) fun _ hf => .inr hf⟩
  | ended =>
    exact ⟨h.congr rfl rfl rfl rfl rfl rfl fun _ hf => hf,
      hi.congr rfl rfl (fun hs => absurd hs hstage) (fun _ hf => hf) fun _ hf => .inr hf⟩
  | @begun f hdone hdeinit hf =>
    have hidle := hidle hdone hdeinit
    obtain ⟨-, hget⟩ := readIndex_eq_some hf
    have hlt := (List.getElem?_eq_some_iff.1 hget).1
    have hmem : f ∈ t.queued := by
      rw [h.split]
      exact List.mem_append_right _ (List.mem_of_getElem? hget)
    refine ⟨⟨h.split, h.increasing, h.above, h.removed, h.acknowledged, h.sent, h.closed, h.ackId, h.acked,
      fun g hg => ?_⟩, ⟨?_, fun hs => absurd hs hstage, fun i g hi' hg => ?_⟩⟩
    · obtain rfl := Option.some.inj hg
      exact ⟨hmem, fun k hk hbelow => h.sent_before hi hidle (by omega) hget hk hbelow⟩
    · show t.client.currentFileIndex + 1 ≤ t.client.inputQueue.items.length
      omega
    · have hi' : (i : Int) < t.client.currentFileIndex + 1 := hi'
      have hg : t.client.inputQueue.items[i]? = some g := hg
      by_cases hlast : (i : Int) = t.client.currentFileIndex
      · right
        have : i = t.client.currentFileIndex.toNat := by omega
        rw [this, hget] at hg
        exact hg
      · left
        rcases hi.before i g (by omega) hg with hg | hg
        · exact hg
        · rw [hidle] at hg
          cases hg
  | @made m₀ m item hdone hdeinit hend hmessages hroom hread =>
    have hidle := hidle hdone hdeinit
    have hlen := readIndex_eq_none hend hnonneg
    have hitems := items_write hroom (t.client.messageFile item)
    refine ⟨h.add (hmade _ _ hchoice) rfl rfl hitems rfl rfl rfl fun g hg => ?_,
      ⟨?_, fun hs => absurd hs hstage, fun i g hi' hg => ?_⟩⟩
    · obtain rfl := Option.some.inj hg
      refine ⟨List.mem_append_right _ List.mem_cons_self, fun k hk hbelow => ?_⟩
      rcases List.mem_append.1 hk with hk | hk
      · -- the whole queue is before the index
        rw [h.split] at hk
        rcases List.mem_append.1 hk with hk | hk
        · exact h.acknowledged k (h.removed k hk)
        · obtain ⟨j, hj⟩ := List.mem_iff_getElem?.1 hk
          have := (List.getElem?_eq_some_iff.1 hj).1
          rcases hi.before j k (by omega) hj with hk | hk
          · exact hk
          · rw [hidle] at hk
            cases hk
      · rw [List.mem_singleton.1 hk, trFileIdCompare_self] at hbelow
        cases hbelow
    · have hle := hi.le
      show t.client.currentFileIndex + 1 ≤ ((t.client.inputQueue.write (t.client.messageFile item)).items.length : Int)
      rw [hitems, List.length_append, List.length_singleton]
      omega
    · have hi' : (i : Int) < t.client.currentFileIndex + 1 := hi'
      have hle := hi.le
      have hg : (t.client.inputQueue.write (t.client.messageFile item)).items[i]? = some g := hg
      rw [hitems] at hg
      rcases getElem?_concat_cases hg with hg | ⟨-, rfl⟩
      · left
        have hlt := (List.getElem?_eq_some_iff.1 hg).1
        rcases hi.before i g (by omega) hg with hg | hg
        · exact hg
        · rw [hidle] at hg
          cases hg
      · exact .inr rfl

/-! ## Sending -/

/-- The file under way is sent: what lies below it was. -/
theorem Kept.finish (h : Kept t) : Kept t.finish := by
  cases hsending : t.sending with
  | none =>
    have hsent : t.finish.sent = t.sent := by
      rw [Tracked.finish, hsending]
      exact List.append_nil _
    exact h.congr rfl rfl rfl rfl hsent rfl fun f hf => by cases hf
  | some f =>
    have hsent : t.finish.sent = t.sent ++ [f] := by
      rw [Tracked.finish, hsending]
      rfl
    obtain ⟨hmem, hbelow⟩ := h.sending f hsending
    refine ⟨h.split, h.increasing, h.above, h.removed, fun g hg => ?_, fun g hg => ?_,
      fun before g after hsplit k hk hcmp => ?_, ?_, h.acked, fun g hg => by cases hg⟩
    · rw [hsent]
      exact List.mem_append_left _ (h.acknowledged g hg)
    · rw [hsent] at hg
      rcases List.mem_append.1 hg with hg | hg
      · exact h.sent g hg
      · rw [List.mem_singleton.1 hg]
        exact hmem
    · rw [hsent] at hsplit
      rcases List.eq_nil_or_concat after with rfl | ⟨after', last, rfl⟩
      · obtain ⟨rfl, hlast⟩ := List.append_inj' hsplit rfl
        obtain rfl := (List.cons.inj hlast).1
        exact hbelow k hk hcmp
      · rw [List.concat_eq_append, ← List.cons_append, ← List.append_assoc] at hsplit
        obtain ⟨hsplit', -⟩ := List.append_inj' hsplit rfl
        exact h.closed before g after' hsplit' k hk hcmp
    · rw [hsent]
      refine h.ackId.imp_right ?_
      rintro ⟨named, hnamed, hr⟩
      exact ⟨named, List.mem_append_left _ hnamed, hr⟩

theorem Kept.transmit (h : Kept t) (n : Nat) : Kept (t.transmit n) := by
  obtain ⟨-, -, hqueue, hack, -⟩ := t.client.fillBuffer_same
  have hflushed : Kept (t.flushed (t.client.fillBuffer.bufferSend n).1 (t.client.fillBuffer.bufferSend n).2) :=
    h.congr rfl rfl (congrArg Fifo.items hqueue) rfl rfl hack fun _ hf => hf
  rcases t.transmit_cases n with ⟨-, heq⟩ | ⟨-, heq⟩
  · rw [heq]
    exact hflushed.finish
  · rw [heq]
    exact hflushed

theorem Indexed.transmit (h : Indexed t) (n : Nat) : Indexed (t.transmit n) := by
  obtain ⟨-, -, hqueue, -, hindex, -⟩ := t.client.fillBuffer_same
  rcases t.transmit_cases n with ⟨-, heq⟩ | ⟨-, heq⟩
  · rw [heq]
    refine h.congr (congrArg Fifo.items hqueue) hindex (fun hs => by cases hs)
      (fun f hf => List.mem_append_left _ hf) fun f hf => .inl ?_
    show f ∈ t.sent ++ t.sending.toList
    rw [hf]
    exact List.mem_append_right _ List.mem_cons_self
  · rw [heq]
    exact h.congr (congrArg Fifo.items hqueue) hindex (fun hs => by cases hs) (fun _ hf => hf) fun _ hf => .inr hf

/-! ## Steps -/

/-- What enters the queue in a step is above all that was there. -/
def AddsAbove (t : Tracked) : Action → Prop
  | .queueAddFile f => t.client.inputQueue.isFull = false → Above t { f with handle := t.client.allocated }
  | .select e       => ∀ f client, t.client.chooseFile e = some (.made f client) → Above t f
  | _               => True

/-- The acknowledgements are in order. -/
structure Ordered (t : Tracked) : Prop where
  kept : Kept t
  wired : t.client.stage ≠ .notConnected → Wired t
  indexed : t.client.stage ≠ .notConnected → Indexed t

theorem ordered_start (client : TrClient) (hstage : client.stage = .notConnected)
    (hqueue : client.inputQueue.items = []) (hack : client.ackId = noneAcknowledged) : Ordered (start client) where
  kept := by
    refine ⟨by rw [start, hqueue]; rfl, .nil, fun f hf => ?_, fun f hf => ?_, fun f hf => ?_, fun f hf => ?_,
      fun before f after hsplit => ?_, .inl ?_, fun f hf => ?_, fun f hf => ?_⟩
    · exact absurd hf List.not_mem_nil
    · exact absurd hf List.not_mem_nil
    · exact absurd hf List.not_mem_nil
    · exact absurd hf List.not_mem_nil
    · exact absurd hsplit.symm (List.append_ne_nil_of_right_ne_nil _ (List.cons_ne_nil _ _))
    · rw [start, hack]
      exact ⟨rfl, rfl⟩
    · exact absurd hf List.not_mem_nil
    · cases hf
  wired := fun h => absurd hstage h
  indexed := fun h => absurd hstage h

theorem Kept.onMessages {call : Perm.Env × Perm.Call} (h : Kept t) (hs : t.onMessages call = some t') :
    Kept t' ∧ (Indexed t → Indexed t') := by
  unfold Tracked.onMessages at hs
  split at hs
  · obtain rfl := Option.some.inj hs
    exact ⟨h, fun hi => hi⟩
  · obtain ⟨m, -, rfl⟩ := Option.map_eq_some_iff.1 hs
    exact ⟨h.congr rfl rfl rfl rfl rfl rfl fun _ hf => hf,
      fun hi => hi.congr rfl rfl (fun h => h) (fun _ hf => hf) fun _ hf => .inr hf⟩

/-- Replies are no matter of the queues. -/
structure SameQueues (t t' : Tracked) : Prop where
  input : t'.client.inputQueue = t.client.inputQueue
  output : t'.client.outputQueue = t.client.outputQueue
  messages : t'.client.inputQueueMsg = t.client.inputQueueMsg
  index : t'.client.currentFileIndex = t.client.currentFileIndex
  sent : t'.sent = t.sent
  sending : t'.sending = t.sending
  queued : t'.queued = t.queued
  removed : t'.removed = t.removed
  permAcks : t'.permAcks = t.permAcks

theorem replies_queues : ∀ (lines : List Bytes) (t : Tracked), SameQueues t (lines.foldl Tracked.reply t)
  | [], _ => ⟨rfl, rfl, rfl, rfl, rfl, rfl, rfl, rfl, rfl⟩
  | line :: lines, t => by
    have h := replies_queues lines (t.reply line)
    exact ⟨h.input, h.output, h.messages, h.index, h.sent, h.sending, h.queued, h.removed, h.permAcks⟩

/-- **Every step keeps the acknowledgements in order**, with a server that acknowledges what it received and files that
enter the queue above those that were there. -/
theorem ordered_step (a : Action) (h : Ordered t) (hserver : ServerAcks t a) (hadds : AddsAbove t a)
    (hs : t.step a = some t') : Ordered t' := by
  have hwired := wired_step a h.wired hs
  cases a with
  | connect direct =>
    obtain ⟨hat, hs⟩ := Option.ite_none_right_eq_some.1 hs
    obtain rfl := Option.some.inj hs
    refine ⟨h.kept.congr rfl rfl rfl rfl rfl rfl (fun f hf => by cases hf), hwired, fun _ => ⟨Int.natCast_nonneg _,
      fun _ => Int.le_refl 0, fun i f hi => absurd hi (Int.not_lt.2 (Int.natCast_nonneg i))⟩⟩
  | lose =>
    obtain ⟨hat, hs⟩ := Option.ite_none_right_eq_some.1 hs
    obtain rfl := Option.some.inj hs
    exact ⟨h.kept.congr rfl rfl rfl rfl rfl rfl fun _ hf => hf, hwired, fun hstage => absurd rfl hstage⟩
  | replies lines =>
    obtain ⟨hat, hs⟩ := Option.ite_none_right_eq_some.1 hs
    obtain rfl := Option.some.inj hs
    have hq := replies_queues lines t
    have hkept := h.kept.replies lines hserver
    refine ⟨hkept.congr rfl rfl rfl rfl rfl rfl fun _ hf => hf, hwired, fun _ => ?_⟩
    exact (h.indexed (by rw [hat]; decide)).congr (congrArg Fifo.items hq.input) hq.index (fun hs => by cases hs)
      (fun f hf => hq.sent ▸ hf) fun f hf => .inr (hq.sending.trans hf)
  | remove =>
    obtain ⟨hat, hs⟩ := Option.ite_none_right_eq_some.1 hs
    obtain rfl := Option.some.inj hs
    have hr := remove_removes t
    exact ⟨h.kept.removes hr, hwired, fun _ => (h.indexed (by rw [hat]; decide)).removes hat hr⟩
  | select e =>
    obtain ⟨hat, hs⟩ := Option.ite_none_right_eq_some.1 hs
    have hstage : t.client.stage ≠ .notConnected := by rw [hat]; decide
    obtain ⟨hkept, hindexed⟩ := h.kept.select (h.wired hstage) (h.indexed hstage) hat hadds hs
    exact ⟨hkept, hwired, fun _ => hindexed⟩
  | transmit n =>
    obtain ⟨hat, hs⟩ := Option.ite_none_right_eq_some.1 hs
    obtain rfl := Option.some.inj hs
    exact ⟨h.kept.transmit n, hwired, fun _ => (h.indexed (by rw [hat]; decide)).transmit n⟩
  | flush e =>
    obtain ⟨hat, hs⟩ := Option.ite_none_right_eq_some.1 hs
    exact ⟨(h.kept.onMessages hs).1, hwired, fun hstage => absurd ((onMessages_stage hs).trans hat) hstage⟩
  | sendMsg e msg =>
    obtain ⟨hkept, hindexed⟩ := h.kept.onMessages hs
    exact ⟨hkept, hwired, fun hstage => hindexed (h.indexed (by rw [← onMessages_stage hs]; exact hstage))⟩
  | queueAddFile f =>
    obtain rfl := Option.some.inj hs
    exact ⟨h.kept.queueAddFile f hadds, hwired,
      fun hstage => (h.indexed (by rw [← queueAddFile_stage t f]; exact hstage)).queueAddFile f⟩
  | getLastFileSent =>
    obtain rfl := Option.some.inj hs
    exact ⟨h.kept.congr rfl rfl rfl rfl rfl rfl fun _ hf => hf, hwired, fun hstage =>
      (h.indexed hstage).congr rfl rfl (fun h => h) (fun _ hf => hf) fun _ hf => .inr hf⟩

end Tracked
end Transport
end Flp
