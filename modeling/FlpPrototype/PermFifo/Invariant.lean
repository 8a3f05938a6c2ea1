import FlpPrototype.PermFifo.Loops
/-!
# Invariant — where each record of a permanent FIFO is

At any time the records the FIFO ever held, in order of id, are those no longer stored (`gone`), those in the file
(`scanned` before `lastOutOffset`, `ahead` behind it) and those only in the disk table (`unsaved`).  The ones the
consumer has not read are the client table's (`client`) followed by the ones that must still come from the disk table
or the file (`later`).  `Stored` says this of the file and the disk table, `Readable` of the client side; each
operation moves records between the parts and keeps both.
-/
namespace Flp
namespace Perm

open CircularTable

/-! ## Increasing records -/

theorem Increasing.lt_of_append {xs ys : List Record} (h : Increasing (xs ++ ys)) :
    ∀ x ∈ xs, ∀ y ∈ ys, x.id < y.id := (List.pairwise_append.1 h).2.2

theorem Increasing.left {xs ys : List Record} (h : Increasing (xs ++ ys)) : Increasing xs :=
  (List.pairwise_append.1 h).1

theorem Increasing.right {xs ys : List Record} (h : Increasing (xs ++ ys)) : Increasing ys :=
  (List.pairwise_append.1 h).2.1

theorem filter_above_eq_nil {a : Nat} {rs : List Record} (h : Increasing rs) :
    rs.filter (fun r => decide (a < r.id)) = [] ↔ lastId rs ≤ a := by
  rw [List.filter_eq_nil_iff]
  constructor
  · intro hall
    by_cases hne : rs = []
    · rw [hne]; exact Nat.zero_le _
    · obtain ⟨r, hr, hid⟩ := lastId_mem hne
      rw [← hid]
      simpa using hall r hr
  · intro hle r hr
    simpa using Nat.le_trans (h.id_le_lastId r hr) hle

theorem Increasing.next {a : Nat} {rs rest : List Record} {r : Record} (h : Increasing rs)
    (hf : rs.filter (fun x => decide (a < x.id)) = r :: rest) :
    rs.filter (fun x => decide (r.id < x.id)) = rest ∧
      rs.filter (fun x => decide (x.id ≤ r.id)) = rs.filter (fun x => decide (x.id ≤ a)) ++ [r] := by
  have hsplit := h.split a
  rw [hf] at hsplit
  have hlow : ∀ x ∈ rs.filter (fun x => decide (x.id ≤ a)), x.id ≤ a := fun x hx => by
    simpa using (List.mem_filter.1 hx).2
  have har : a < r.id := by
    have : r ∈ rs.filter (fun x => decide (a < x.id)) := by rw [hf]; exact List.mem_cons_self
    simpa using (List.mem_filter.1 this).2
  generalize rs.filter (fun x => decide (x.id ≤ a)) = low at hsplit hlow
  subst hsplit
  have hrest : ∀ x ∈ rest, r.id < x.id := fun x hx => List.rel_of_pairwise_cons h.right hx
  refine ⟨?_, ?_⟩
  · rw [List.filter_append, List.filter_eq_nil_iff.2 (fun x hx => by have := hlow x hx; simp; omega),
      List.nil_append, List.filter_cons_of_neg (by simp),
      List.filter_eq_self.2 (fun x hx => by simpa using hrest x hx)]
  · rw [List.filter_append, List.filter_eq_self.2 (fun x hx => by have := hlow x hx; simp; omega),
      List.filter_cons_of_pos (by simp),
      List.filter_eq_nil_iff.2 (fun x hx => by simpa using hrest x hx)]

/-! ## The parts -/

/-- Where the records are. -/
structure Parts where
  gone : List Record
  scanned : List Record
  ahead : List Record
  unsaved : List Record
  client : List Record
  later : List Record

namespace Parts

/-- The records in the file. -/
def saved (p : Parts) : List Record := p.scanned ++ p.ahead

/-- Every record the FIFO ever held. -/
def all (p : Parts) : List Record := p.gone ++ (p.saved ++ p.unsaved)

/-- The records the consumer has not read. -/
def pending (p : Parts) : List Record := p.client ++ p.later

/-- After the disk table is saved. -/
def save (p : Parts) : Parts := { p with ahead := p.ahead ++ p.unsaved, unsaved := [] }

/-- After a record is added to the disk table. -/
def push (p : Parts) (r : Record) : Parts := { p with unsaved := p.unsaved ++ [r] }

/-- After an acknowledgement: what it covers is stored no longer, the file as a whole or not at all. -/
def ack (p : Parts) (id : Nat) : Parts :=
  if lastId p.saved ≤ id then { p with
    gone := p.gone ++ (p.saved ++ p.unsaved.takeWhile (fun r => decide (r.id ≤ id)))
    scanned := []
    ahead := []
    unsaved := p.unsaved.dropWhile (fun r => decide (r.id ≤ id)) }
  else p

@[simp] theorem saved_save (p : Parts) : p.save.saved = p.saved ++ p.unsaved := by simp [save, saved]

@[simp] theorem saved_push (p : Parts) (r : Record) : (p.push r).saved = p.saved := rfl

@[simp] theorem all_save (p : Parts) : p.save.all = p.all := by simp [all, saved_save]; simp [save]

@[simp] theorem all_push (p : Parts) (r : Record) : (p.push r).all = p.all ++ [r] := by
  simp [all, saved_push]; simp [push]

@[simp] theorem all_ack (p : Parts) (id : Nat) : (p.ack id).all = p.all := by
  unfold ack
  split
  · simp [all, saved]
  · rfl

@[simp] theorem pending_ack (p : Parts) (id : Nat) : (p.ack id).pending = p.pending := by
  unfold ack
  split <;> rfl

end Parts

/-! ## The file and the disk table -/

/-- The file behind the descriptor and the disk table hold the parts they should. -/
structure Stored (f : PermFifo) (size : Nat) (hdr : MainHeader) (p : Parts) : Prop where
  disk : ∃ t, f.tableDisk = some t ∧ t.Holds p.unsaved ∧ t.size = size
  file : f.file = some (hdr.bytes ++ encode p.saved)
  offset : f.lastOutOffset = headerSize + (encode p.scanned).length
  nonempty : ∀ r ∈ p.unsaved, r.data ≠ []
  onDisk : p.saved ≠ [] → f.lastIdOnDisk = lastId p.saved
  ackOnDisk : f.ackOnDisk = true ↔ p.saved ≠ []

/-- What a save leaves alone. -/
structure SameClient (f f' : PermFifo) : Prop where
  tableClient : f'.tableClient = f.tableClient
  currentId : f'.currentId = f.currentId
  lastIdOut : f'.lastIdOut = f.lastIdOut
  next : f'.nextIdInClientTable = f.nextIdInClientTable

theorem SameClient.refl (f : PermFifo) : SameClient f f := ⟨rfl, rfl, rfl, rfl⟩

theorem SameClient.trans {f g h : PermFifo} (a : SameClient f g) (b : SameClient g h) : SameClient f h :=
  ⟨b.1.trans a.1, b.2.trans a.2, b.3.trans a.3, b.4.trans a.4⟩

/-- **Saving**: the records of the disk table go behind those of the file. -/
theorem Stored.save {e : Env} {f f' : PermFifo} {size : Nat} {hdr : MainHeader} {p : Parts} {c : Ret}
    (h : Stored f size hdr p) (he : e.Succeeds) (hs : permFifoSaveTabledisk e f = some (c, f')) :
    c = .ok ∧ Stored f' size hdr p.save ∧ SameClient f f' := by
  obtain ⟨t, ht, hold, hsize⟩ := h.disk
  unfold permFifoSaveTabledisk at hs
  simp only [ht, h.file, he.2, Bool.true_eq_false, if_false] at hs
  split at hs
  · rename_i hzero
    obtain ⟨rfl, rfl⟩ := Prod.mk.inj (Option.some.inj hs)
    have hnil := hold.nil_iff.1 hzero
    have hp : p.save = p := by
      cases p
      simp only at hnil
      simp [Parts.save, hnil]
    rw [hp]
    exact ⟨rfl, ⟨⟨t, rfl, hold, hsize⟩, rfl, h.offset, h.nonempty, h.onDisk, h.ackOnDisk⟩, ⟨rfl, rfl, rfl, rfl⟩⟩
  · rename_i hne
    split at hs
    · cases hs
    · rename_i i hi
      obtain ⟨rfl, rfl⟩ := Prod.mk.inj (Option.some.inj hs)
      obtain ⟨hempty, hss, hchunks⟩ := ctSave_spec hold h.nonempty
      have hun : p.unsaved ≠ [] := fun hn => hne (hold.nil_iff.2 hn)
      obtain ⟨us, u, hu⟩ := (List.eq_nil_or_concat p.unsaved).resolve_left hun
      rw [List.concat_eq_append] at hu
      have hlast : (t.items.getD i emptyFifoItem).id = u.id := by
        rw [hu] at hold
        rw [hold.getD_lastIndex hi, Record.item_id]
      refine ⟨rfl, ⟨⟨_, rfl, hempty, hss.trans hsize⟩, ?_, h.offset, ?_, ?_, ?_⟩, ⟨rfl, rfl, rfl, rfl⟩⟩
      · simp [hchunks, flatten_recordChunks]
      · intro r hr
        cases hr
      · intro _
        rw [Parts.saved_save, hu, ← List.append_assoc, lastId_append_singleton]
        exact hlast
      · simp [hun]

theorem save_isSome {e : Env} {f : PermFifo} {size : Nat} {hdr : MainHeader} {p : Parts}
    (h : Stored f size hdr p) (he : e.Succeeds) (hf : size ≤ 2 ^ 30) : (permFifoSaveTabledisk e f).isSome = true := by
  obtain ⟨t, ht, hold, hsize⟩ := h.disk
  obtain ⟨i, hi⟩ := Option.isSome_iff_exists.1 (hold.lastIndex_isSome (by unfold CircularTable.Fits; omega))
  unfold permFifoSaveTabledisk
  simp only [ht, h.file, he.2, hi, Bool.true_eq_false, if_false]
  split <;> rfl

/-- **Adding a record to the disk table**, after a save when it is full. -/
theorem Stored.insert {e : Env} {f f' : PermFifo} {size : Nat} {hdr : MainHeader} {p : Parts} {c : Ret} {r : Record}
    {doCopy : Bool} (h : Stored f size hdr p) (he : e.Succeeds) (hr : r.data ≠ [])
    (hi : insertDisk e f doCopy r.item = some (c, f')) :
    c = .ok ∧ SameClient f f' ∧ (Stored f' size hdr (p.push r) ∨ Stored f' size hdr (p.save.push r)) := by
  have hput : ∀ {g : PermFifo} {q : Parts} {t t' : CircularTable}, Stored g size hdr q → g.tableDisk = some t →
      ctWrite t r.item = some (.ok, t') → Stored { g with tableDisk := some t' } size hdr (q.push r) := by
    intro g q t t' hg ht hw
    obtain ⟨t₀, ht₀, hold, hsize⟩ := hg.disk
    obtain rfl := Option.some.inj (ht₀.symm.trans ht)
    rcases hold.write hw with ⟨hc, -⟩ | ⟨-, -, hold', hs⟩
    · cases hc
    · refine ⟨⟨t', rfl, hold', hs.trans hsize⟩, hg.file, hg.offset, ?_, hg.onDisk, hg.ackOnDisk⟩
      intro x hx
      rcases List.mem_append.1 hx with hx | hx
      · exact hg.nonempty x hx
      · rw [List.mem_singleton.1 hx]
        exact hr
  unfold insertDisk at hi
  split at hi
  · cases hi
  · rename_i t ht
    split at hi
    · cases hi
    · rename_i t' hw
      obtain ⟨rfl, rfl⟩ := Prod.mk.inj (Option.some.inj hi)
      exact ⟨rfl, ⟨rfl, rfl, rfl, rfl⟩, .inl (hput h ht hw)⟩
    · split at hi
      · cases hi
      · rename_i c₁ f₁ hs
        obtain ⟨-, h₁, hsame⟩ := h.save he hs
        obtain ⟨t₁, ht₁, hold₁, hsize₁⟩ := h₁.disk
        rw [ht₁] at hi
        simp only at hi
        split at hi
        · cases hi
        · rename_i t' hw
          obtain ⟨rfl, rfl⟩ := Prod.mk.inj (Option.some.inj hi)
          exact ⟨rfl, hsame.trans ⟨rfl, rfl, rfl, rfl⟩, .inr (hput h₁ ht₁ hw)⟩
        · rename_i hw
          -- an empty table has room
          rcases hold₁.write hw with ⟨-, hfull, -⟩ | ⟨hc, -⟩
          · exact absurd hfull (Nat.ne_of_lt hold₁.wf.pos)
          · cases hc

theorem insertDisk_isSome {e : Env} {f : PermFifo} {size : Nat} {hdr : MainHeader} {p : Parts} {r : Record}
    {doCopy : Bool} (h : Stored f size hdr p) (he : e.Succeeds) (hf : size ≤ 2 ^ 30) :
    (insertDisk e f doCopy r.item).isSome = true := by
  have hw : ∀ {g : PermFifo} {q : Parts} {t : CircularTable}, Stored g size hdr q → g.tableDisk = some t →
      ∃ c t', ctWrite t r.item = some (c, t') := by
    intro g q t hg ht
    obtain ⟨t₀, ht₀, hold, hsize⟩ := hg.disk
    obtain rfl := Option.some.inj (ht₀.symm.trans ht)
    obtain ⟨⟨c, t'⟩, hct⟩ := Option.isSome_iff_exists.1
      (ctWrite_isSome r.item hold.wf (by unfold CircularTable.Fits; omega))
    exact ⟨c, t', hct⟩
  obtain ⟨t, ht, -⟩ := h.disk
  obtain ⟨c, t', hct⟩ := hw h ht
  unfold insertDisk
  simp only [ht, hct]
  cases c with
  | ok => rfl
  | error =>
    obtain ⟨⟨c₁, f₁⟩, hs⟩ := Option.isSome_iff_exists.1 (save_isSome h he hf)
    obtain ⟨-, h₁, -⟩ := h.save he hs
    obtain ⟨t₁, ht₁, -⟩ := h₁.disk
    obtain ⟨c₂, t₂, hct₂⟩ := hw h₁ ht₁
    simp only [hs, ht₁, hct₂]
    cases c₂ with
    | ok => rfl
    | error => cases doCopy <;> rfl

end Perm
end Flp
