import FlpPrototype.PermFifo.Invariant
/-!
# Operations — each operation of a permanent FIFO keeps its records in place

`Readable` is the client side of the invariant, `Inv` the whole of it.  One law for each of `permFIFO_write`,
`permFIFO_read`, `permFIFO_ack` and `permFIFO_flush`: the parts it leaves and what it returned.
-/
namespace Flp
namespace Perm

open CircularTable

/-- **The client side**: the counters find every record not read yet, in order. -/
structure Readable (f : PermFifo) (size : Nat) (p : Parts) : Prop where
  client : f.tableClient.Holds p.client
  size_eq : f.tableClient.size = size
  ok : ∀ r ∈ p.all, r.Ok
  increasing : Increasing p.all
  current : f.currentId = lastId p.all
  pending : p.all.filter (fun r => decide (f.lastIdOut < r.id)) = p.pending
  lastIdOut_le : f.lastIdOut ≤ f.currentId
  gone_le : ∀ r ∈ p.gone, r.id ≤ f.lastIdOut
  scanned_not : ∀ r ∈ p.scanned, r ∉ p.later
  consecutive : Consecutive (lastId (p.gone ++ p.saved)) p.unsaved
  next_le : f.nextIdInClientTable ≤ f.currentId + 1
  next_eq : f.nextIdInClientTable = f.currentId + 1 → p.later = []

/-- What every FIFO opened on a path keeps. -/
structure Inv (f : PermFifo) (size : Nat) (hdr : MainHeader) (p : Parts) : Prop where
  stored : Stored f size hdr p
  readable : Readable f size p

variable {f f' : PermFifo} {size : Nat} {hdr : MainHeader} {p : Parts}

/-- `Readable` reads nothing a save changes. -/
theorem Readable.same (h : Readable f size p) (hs : SameClient f f') : Readable f' size p where
  client := by rw [hs.tableClient]; exact h.client
  size_eq := by rw [hs.tableClient]; exact h.size_eq
  ok := h.ok
  increasing := h.increasing
  current := by rw [hs.currentId]; exact h.current
  pending := by rw [hs.lastIdOut]; exact h.pending
  lastIdOut_le := by rw [hs.lastIdOut, hs.currentId]; exact h.lastIdOut_le
  gone_le := by rw [hs.lastIdOut]; exact h.gone_le
  scanned_not := h.scanned_not
  consecutive := h.consecutive
  next_le := by rw [hs.next, hs.currentId]; exact h.next_le
  next_eq := by rw [hs.next, hs.currentId]; exact h.next_eq

theorem Readable.save (h : Readable f size p) : Readable f size p.save where
  client := h.client
  size_eq := h.size_eq
  ok := by rw [Parts.all_save]; exact h.ok
  increasing := by rw [Parts.all_save]; exact h.increasing
  current := by rw [Parts.all_save]; exact h.current
  pending := by rw [Parts.all_save]; exact h.pending
  lastIdOut_le := h.lastIdOut_le
  gone_le := h.gone_le
  scanned_not := h.scanned_not
  consecutive := trivial
  next_le := h.next_le
  next_eq := h.next_eq

/-! ## `permFIFO_flush` -/

theorem Inv.save {e : Env} {c : Ret} (h : Inv f size hdr p) (he : e.Succeeds)
    (hs : permFifoSaveTabledisk e f = some (c, f')) : c = .ok ∧ Inv f' size hdr p.save ∧ SameClient f f' := by
  obtain ⟨hc, hst, hsame⟩ := h.stored.save he hs
  exact ⟨hc, ⟨hst, (h.readable.save).same hsame⟩, hsame⟩

theorem Inv.flush {e : Env} {c : Ret} {timeout : Int} (h : Inv f size hdr p) (he : e.Succeeds)
    (hs : permFifoFlush e f timeout = some (c, f')) :
    c = .ok ∧ SameClient f f' ∧ (Inv f' size hdr p ∨ Inv f' size hdr p.save) := by
  unfold permFifoFlush at hs
  split at hs
  · obtain ⟨hc, hi, hsame⟩ := h.save he hs
    exact ⟨hc, hsame, .inr hi⟩
  · obtain ⟨rfl, rfl⟩ := Prod.mk.inj (Option.some.inj hs)
    exact ⟨rfl, .refl f, .inl h⟩

theorem flush_isSome {e : Env} {timeout : Int} (h : Inv f size hdr p) (he : e.Succeeds) (hf : size ≤ 2 ^ 30) :
    (permFifoFlush e f timeout).isSome = true := by
  unfold permFifoFlush
  split
  · exact save_isSome h.stored he hf
  · rfl

/-! ## `permFIFO_write` -/

/-- Where a new record is to be read from: the client table took it, or it is read after all others. -/
def Parts.offer (p : Parts) (taken : Bool) (r : Record) : Parts :=
  if taken then { p with client := p.client ++ [r] } else { p with later := p.later ++ [r] }

/-- The new record, offered to the client side and added to the disk table, keeps the counters right. -/
theorem Readable.write {g : PermFifo} {r : Record} {taken : Bool} (h : Readable f size p) (hr : r.Ok)
    (hid : r.id = f.currentId + 1) (hcur : g.currentId = r.id) (hout : g.lastIdOut = f.lastIdOut)
    (hclient : g.tableClient.Holds (p.offer taken r).client) (hsize : g.tableClient.size = size)
    (hnext : if taken then g.nextIdInClientTable = r.id + 1 ∧ p.later = [] else g.nextIdInClientTable ≤ r.id) :
    Readable g size ((p.offer taken r).push r) := by
  have hall : ((p.offer taken r).push r).all = p.all ++ [r] := by
    rw [Parts.all_push]
    cases taken <;> rfl
  have hlt : ∀ x ∈ p.all, x.id < r.id := fun x hx => by
    have := h.increasing.id_le_lastId x hx
    rw [← h.current] at this
    omega
  have hscan : ∀ x ∈ p.scanned, x ∈ p.all := fun x hx => by
    simp [Parts.all, Parts.saved, hx]
  have hseen : seenId (lastId (p.gone ++ p.saved)) p.unsaved = f.currentId := by
    rw [h.current, Parts.all, ← List.append_assoc]
    exact (lastId_append _ _).symm
  refine ⟨hclient, hsize, ?_, ?_, ?_, ?_, ?_, ?_, ?_, ?_, ?_, ?_⟩
  · rw [hall]
    intro x hx
    rcases List.mem_append.1 hx with hx | hx
    · exact h.ok x hx
    · rw [List.mem_singleton.1 hx]
      exact hr
  · rw [hall]
    refine List.pairwise_append.2 ⟨h.increasing, List.pairwise_singleton _ _, fun x hx y hy => ?_⟩
    rw [List.mem_singleton.1 hy]
    exact hlt x hx
  · rw [hall, lastId_append_singleton, hcur]
  · have hout' := h.lastIdOut_le
    rw [hall, hout, List.filter_append, h.pending, List.filter_cons_of_pos (by simp; omega), List.filter_nil]
    cases taken with
    | false => simp [Parts.pending, Parts.offer, Parts.push]
    | true =>
      have hlater := hnext.2
      simp [Parts.pending, Parts.offer, Parts.push, hlater]
  · have hout' := h.lastIdOut_le
    omega
  · have hgone := h.gone_le
    cases taken <;> (intro x hx; rw [hout]; exact hgone x hx)
  · intro x hx
    cases taken with
    | true => exact h.scanned_not x hx
    | false =>
      intro hmem
      rcases List.mem_append.1 hmem with hmem | hmem
      · exact h.scanned_not x hx hmem
      · have := hlt x (hscan x hx)
        rw [List.mem_singleton.1 hmem] at this
        exact absurd this (Nat.lt_irrefl _)
  · have : Consecutive (lastId (p.gone ++ p.saved)) (p.unsaved ++ [r]) := by
      rw [Consecutive.append, hseen]
      exact ⟨h.consecutive, by simpa [Consecutive] using hid⟩
    cases taken <;> exact this
  · cases taken with
    | true => rw [hnext.1, hcur]
    | false => have := hnext; simp at this; omega
  · intro heq
    cases taken with
    | true => exact hnext.2
    | false => have := hnext; simp at this; omega

/-- What the client side of a write leaves: the table took the item or not, and the disk table may have been saved. -/
theorem insertClient_spec {e : Env} {taken : Bool} {r : Record} (h : Inv f size hdr p)
    (he : e.Succeeds) (hid : r.id = f.currentId + 1)
    (hi : insertClient e { f with currentId := f.currentId + 1 } r.item = some (taken, f')) :
    f'.currentId = r.id ∧ f'.lastIdOut = f.lastIdOut ∧ f'.tableClient.Holds (p.offer taken r).client ∧
      f'.tableClient.size = size ∧
      (if taken then f'.nextIdInClientTable = r.id + 1 ∧ p.later = [] else f'.nextIdInClientTable ≤ r.id) ∧
      (Stored f' size hdr p ∨ Stored f' size hdr p.save) := by
  have hst := h.stored
  unfold insertClient at hi
  by_cases hne : r.item.id ≠ f.nextIdInClientTable
  · rw [if_pos hne] at hi
    rw [Record.item_id] at hne
    obtain ⟨rfl, rfl⟩ := Prod.mk.inj (Option.some.inj hi)
    have hle := h.readable.next_le
    exact ⟨hid.symm, rfl, h.readable.client, h.readable.size_eq, by simp; omega,
      .inl ⟨hst.disk, hst.file, hst.offset, hst.nonempty, hst.onDisk, hst.ackOnDisk⟩⟩
  · rw [if_neg hne] at hi
    have heq : r.id = f.nextIdInClientTable := not_not.1 hne
    have hlater : p.later = [] := h.readable.next_eq (by omega)
    split at hi
    · cases hi
    · obtain ⟨⟨c, g⟩, hs, hcg⟩ := Option.map_eq_some_iff.1 hi
      obtain ⟨rfl, rfl⟩ := Prod.mk.inj hcg
      have hst' : Stored { f with currentId := f.currentId + 1, nextIdInClientTable := 0 } size hdr p :=
        ⟨hst.disk, hst.file, hst.offset, hst.nonempty, hst.onDisk, hst.ackOnDisk⟩
      obtain ⟨-, hst₁, hsame⟩ := hst'.save he hs
      refine ⟨hsame.currentId.trans hid.symm, hsame.lastIdOut, ?_, ?_, ?_, .inr hst₁⟩
      · rw [hsame.tableClient]
        exact h.readable.client
      · rw [hsame.tableClient]
        exact h.readable.size_eq
      · simp [hsame.next]
    · rename_i c hw
      obtain ⟨rfl, rfl⟩ := Prod.mk.inj (Option.some.inj hi)
      rcases h.readable.client.write hw with ⟨hc, -⟩ | ⟨-, -, hold, hs⟩
      · cases hc
      · exact ⟨hid.symm, rfl, hold, hs.trans h.readable.size_eq, by simp [hlater, heq],
          .inl ⟨hst.disk, hst.file, hst.offset, hst.nonempty, hst.onDisk, hst.ackOnDisk⟩⟩

theorem Parts.offer_save (p : Parts) (taken : Bool) (r : Record) : (p.offer taken r).save = p.save.offer taken r := by
  cases taken <;> rfl

theorem Stored.offer {taken : Bool} {r : Record} (h : Stored f size hdr p) : Stored f size hdr (p.offer taken r) := by
  cases taken <;> exact ⟨h.disk, h.file, h.offset, h.nonempty, h.onDisk, h.ackOnDisk⟩

/-- The write of a FIFO with a disk table: the client side, then the disk table. -/
theorem writeItem_disk {e : Env} {b : Bytes} {t : CircularTable} (ht : f.tableDisk = some t) :
    writeItem e f b =
      (insertClient e { f with currentId := f.currentId + 1 } (Record.item ⟨f.currentId + 1, b⟩)).bind
        fun q => insertDisk e q.2 q.1 (if q.1 && !e.alloc 1 then
          { Record.item ⟨f.currentId + 1, b⟩ with data := none } else Record.item ⟨f.currentId + 1, b⟩) := by
  cases f
  simp only at ht
  subst ht
  simp only [writeItem]
  cases insertClient e _ _ <;> rfl

theorem writeItem_eq {e : Env} {b : Bytes} {t : CircularTable} (ht : f.tableDisk = some t) (he : e.Succeeds) :
    writeItem e f b =
      (insertClient e { f with currentId := f.currentId + 1 } (Record.item ⟨f.currentId + 1, b⟩)).bind
        fun q => insertDisk e q.2 q.1 (Record.item ⟨f.currentId + 1, b⟩) := by
  rw [writeItem_disk ht]
  simp only [he.1, Bool.not_true, Bool.and_false, Bool.false_eq_true, if_false]

/-- What a save and a write may do to the stored records: those of the disk table go behind those of the file, new
ones behind all. -/
structure Grown (p p' : Parts) (rs : List Record) : Prop where
  gone : p'.gone = p.gone
  stored : (p'.saved = p.saved ∧ p'.unsaved = p.unsaved ++ rs) ∨ (p'.saved = p.saved ++ p.unsaved ∧ p'.unsaved = rs)

theorem Grown.save (p : Parts) : Grown p p.save [] := ⟨rfl, .inr ⟨p.saved_save, rfl⟩⟩

/-- **Writing** adds the record after all others and returns 0. -/
theorem Inv.write {e : Env} {b : Bytes} {c : Ret} (h : Inv f size hdr p) (he : e.Succeeds)
    (hb : b ≠ []) (hlen : b.length ≤ ioMax) (hid : f.currentId + 1 < 2 ^ 32)
    (hw : writeItem e f b = some (c, f')) :
    c = .ok ∧ f'.currentId = f.currentId + 1 ∧ f'.lastIdOut = f.lastIdOut ∧
      ∃ p', Inv f' size hdr p' ∧ p'.all = p.all ++ [⟨f.currentId + 1, b⟩] ∧ Grown p p' [⟨f.currentId + 1, b⟩] := by
  obtain ⟨t, ht, -⟩ := h.stored.disk
  have hr : Record.Ok ⟨f.currentId + 1, b⟩ := ⟨by simp, by simp only; omega, hlen⟩
  generalize hrec : (⟨f.currentId + 1, b⟩ : Record) = r at hr
  have hrid : r.id = f.currentId + 1 := by rw [← hrec]
  have hdata : r.data ≠ [] := by rw [← hrec]; exact hb
  rw [writeItem_eq ht he, hrec] at hw
  obtain ⟨⟨taken, g⟩, hi, hw⟩ := Option.bind_eq_some_iff.1 hw
  obtain ⟨hcur, hout, hclient, hsize, hnext, hst⟩ := insertClient_spec h he hrid hi
  -- the disk table may be saved before, by the client side, and once more when it is full
  have hmain : ∀ q : Parts, Readable f size q → q.client = p.client → q.later = p.later → q.all = p.all →
      (∀ q', Grown q q' [r] → Grown p q' [r]) → Stored g size hdr q →
      c = .ok ∧ f'.currentId = f.currentId + 1 ∧ f'.lastIdOut = f.lastIdOut ∧
      ∃ p', Inv f' size hdr p' ∧ p'.all = p.all ++ [r] ∧ Grown p p' [r] := by
    intro q hq hqc hql hqa hqg hgst
    have hoffer : Stored g size hdr (q.offer taken r) := hgst.offer
    obtain ⟨hc, hsame, hst'⟩ := hoffer.insert he hdata hw
    have hcl : (q.offer taken r).client = (p.offer taken r).client := by
      cases taken <;> simp [Parts.offer, hqc]
    have hrd : Readable f' size ((q.offer taken r).push r) := by
      refine (Readable.write (g := g) hq hr hrid hcur hout (by rw [hcl]; exact hclient) hsize ?_).same hsame
      rw [hql]
      exact hnext
    have hrds : Readable f' size ((q.offer taken r).save.push r) := by
      rw [Parts.offer_save]
      refine (Readable.write (g := g) hq.save hr hrid hcur hout ?_ hsize ?_).same hsame
      · have : (q.save.offer taken r).client = (q.offer taken r).client := by cases taken <;> rfl
        rw [this, hcl]
        exact hclient
      · have : q.save.later = p.later := hql
        rw [this]
        exact hnext
    have hsv : (q.offer taken r).saved = q.saved ∧ (q.offer taken r).unsaved = q.unsaved ∧
        (q.offer taken r).gone = q.gone ∧ (q.offer taken r).all = q.all := by
      cases taken <;> exact ⟨rfl, rfl, rfl, rfl⟩
    refine ⟨hc, by rw [hsame.currentId, hcur, hrid], by rw [hsame.lastIdOut, hout], ?_⟩
    rcases hst' with hst' | hst'
    · refine ⟨_, ⟨hst', hrd⟩, by rw [Parts.all_push, hsv.2.2.2, hqa], hqg _ ⟨hsv.2.2.1, .inl ⟨hsv.1, ?_⟩⟩⟩
      simp [Parts.push, hsv.2.1]
    · refine ⟨_, ⟨hst', hrds⟩, by rw [Parts.all_push, Parts.all_save, hsv.2.2.2, hqa],
        hqg _ ⟨hsv.2.2.1, .inr ⟨?_, ?_⟩⟩⟩
      · rw [Parts.saved_push, Parts.saved_save, hsv.1, hsv.2.1]
      · simp [Parts.push, Parts.save]
  rcases hst with hst | hst
  · exact hmain p h.readable rfl rfl rfl (fun _ hg => hg) hst
  · refine hmain p.save h.readable.save rfl rfl p.all_save (fun q' hg => ⟨hg.gone, .inr ?_⟩) hst
    rcases hg.stored with ⟨h1, h2⟩ | ⟨h1, h2⟩
    · exact ⟨by rw [h1, Parts.saved_save], by simpa [Parts.save] using h2⟩
    · exact ⟨by rw [h1, Parts.saved_save]; simp [Parts.save], h2⟩

theorem writeItem_isSome {e : Env} {b : Bytes} (h : Inv f size hdr p) (he : e.Succeeds) (hf : size ≤ 2 ^ 30) :
    (writeItem e f b).isSome = true := by
  obtain ⟨t, ht, -⟩ := h.stored.disk
  have hst : ∀ n, Stored { f with currentId := f.currentId + 1, nextIdInClientTable := n } size hdr p := fun n =>
    ⟨h.stored.disk, h.stored.file, h.stored.offset, h.stored.nonempty, h.stored.onDisk, h.stored.ackOnDisk⟩
  have hclient : (insertClient e { f with currentId := f.currentId + 1 }
      (Record.item ⟨f.currentId + 1, b⟩)).isSome = true := by
    unfold insertClient
    split
    · rfl
    · obtain ⟨⟨c, t'⟩, hw⟩ := Option.isSome_iff_exists.1 (ctWrite_isSome (Record.item ⟨f.currentId + 1, b⟩)
        h.readable.client.wf (by unfold CircularTable.Fits; rw [h.readable.size_eq]; exact hf))
      simp only [hw]
      cases c with
      | ok => rfl
      | error =>
        have := save_isSome (hst 0) he hf
        simpa using this
  obtain ⟨⟨taken, g⟩, hi⟩ := Option.isSome_iff_exists.1 hclient
  obtain ⟨-, -, -, -, -, hg⟩ := insertClient_spec (r := ⟨f.currentId + 1, b⟩) h he rfl hi
  rw [writeItem_eq ht he, hi, Option.bind_some]
  rcases hg with hg | hg <;> exact insertDisk_isSome hg he hf

end Perm
end Flp
