import FlpPrototype.Lib.Ring
import FlpPrototype.Lib.CInt
import FlpPrototype.Lib.Bytes
import Mathlib.Data.List.GetD
/-!
# Table — the circular table both halves of a permanent FIFO are made of

`struct circular_table` of `permanentFIFO.c`: the table the consumer reads from and the table of items still to be
saved on disk.  Every index is an `int` sum brought back by one subtraction; the sum overflows once a table is larger
than `2 ^ 30`, and then the operation has no defined result (`none`).  Seen through `toList`, a table is a queue of at
most `size` items.
-/
namespace Flp
namespace Perm

/-- `struct FIFO_item`; `data` is `none` for a NULL pointer. -/
structure FifoItem where
  size : Nat
  data : Option Bytes
  id : Nat
  deriving DecidableEq, Repr

def emptyFifoItem : FifoItem := ⟨0, none, 0⟩

structure CircularTable where
  size : Nat
  indexFirst : Nat
  nItems : Nat
  items : List FifoItem
  deriving DecidableEq, Repr

/-- The return codes 0 and -1 of the table functions. -/
inductive Ret where
  | ok
  | error
  deriving DecidableEq, Repr

/-- `ct_new`: no table for a size that is not positive. -/
def ctNew (size : Int) : Option CircularTable :=
  if size ≤ 0 then none else some ⟨size.toNat, 0, 0, List.replicate size.toNat emptyFifoItem⟩

/-- The slot `i` places after the first item: an `int` sum, then one subtraction. -/
def CircularTable.index (t : CircularTable) (i : Nat) : Option Nat :=
  (intAdd t.indexFirst i).map (Ring.wrap t.size)

def ctWrite (t : CircularTable) (item : FifoItem) : Option (Ret × CircularTable) :=
  if t.size = t.nItems then some (.error, t)
  else if item.data = none then some (.error, t)
  else (t.index t.nItems).map fun indexNew =>
    (.ok, { t with nItems := t.nItems + 1, items := t.items.set indexNew item })

/-- `ct_read`: `none` when there is no item, return code -1. -/
def ctRead (t : CircularTable) : Option (FifoItem × CircularTable) :=
  if t.nItems = 0 then none
  else some (t.items.getD t.indexFirst emptyFifoItem,
    { t with
      items := t.items.set t.indexFirst emptyFifoItem
      nItems := t.nItems - 1
      indexFirst := Ring.wrap t.size (t.indexFirst + 1) })

namespace CircularTable

/-- The items from the first one on. -/
def toList (t : CircularTable) : List FifoItem := Ring.window t.items t.indexFirst t.nItems

/-- What every table made by `ctNew` keeps. -/
structure Wf (t : CircularTable) : Prop where
  slots : t.items.length = t.size
  first : t.indexFirst < t.size
  count : t.nItems ≤ t.size

/-- A table whose index sums all fit an `int`. -/
def Fits (t : CircularTable) : Prop := t.size ≤ 2 ^ 30

theorem Wf.pos {t : CircularTable} (h : t.Wf) : 0 < t.size := Nat.lt_of_le_of_lt (Nat.zero_le _) h.first

@[simp] theorem Wf.length_toList {t : CircularTable} (h : t.Wf) : t.toList.length = t.nItems :=
  Ring.length_window _ (by rw [h.slots]; exact h.count)

theorem Wf.toList_eq_nil {t : CircularTable} (h : t.Wf) : t.toList = [] ↔ t.nItems = 0 := by
  rw [← List.length_eq_zero_iff, h.length_toList]

theorem Wf.getElem?_index {t : CircularTable} {i j : Nat} (h : t.Wf) (hi : i < t.nItems) (hj : t.index i = some j) :
    t.items[j]? = t.toList[i]? := by
  obtain ⟨s, hs, rfl⟩ := Option.map_eq_some_iff.1 hj
  obtain ⟨rfl, -⟩ := intAdd_eq_some hs
  unfold toList
  rw [Ring.getElem?_window (by rw [h.slots]; exact h.first) (by rw [h.slots]; exact h.count) hi, h.slots]

theorem Wf.index_isSome {t : CircularTable} {i : Nat} (h : t.Wf) (hf : t.Fits) (hi : i ≤ t.size) :
    (t.index i).isSome = true := by
  have hfirst := h.first
  unfold Fits at hf
  unfold index
  rw [intAdd_of_le (by unfold intMax; omega)]
  rfl

end CircularTable

open CircularTable

theorem ctNew_spec {size : Int} {t : CircularTable} (h : ctNew size = some t) :
    t.Wf ∧ t.toList = [] ∧ t.size = size.toNat := by
  unfold ctNew at h
  split at h
  · cases h
  · obtain rfl := (Option.some.inj h).symm
    exact ⟨⟨by simp, by simp; omega, Nat.zero_le _⟩, rfl, rfl⟩

theorem ctNew_of_pos {size : Nat} (h : 0 < size) :
    ctNew size = some ⟨size, 0, 0, List.replicate size emptyFifoItem⟩ := by
  unfold ctNew
  rw [if_neg (by omega)]
  rfl

/-- **What a write does**: a full table refuses, any other appends the item. -/
theorem ctWrite_spec {t t' : CircularTable} {item : FifoItem} {r : Ret} (hw : t.Wf) (hd : item.data ≠ none)
    (h : ctWrite t item = some (r, t')) :
    (r = .error ∧ t.nItems = t.size ∧ t' = t) ∨
    (r = .ok ∧ t.nItems < t.size ∧ t'.Wf ∧ t'.size = t.size ∧ t'.nItems = t.nItems + 1 ∧
      t'.toList = t.toList ++ [item]) := by
  unfold ctWrite at h
  split at h
  · rename_i hfull
    simp only [Option.some.injEq, Prod.mk.injEq] at h
    exact .inl ⟨h.1.symm, hfull.symm, h.2.symm⟩
  · rename_i hfull
    obtain ⟨j, hj, heq⟩ := Option.map_eq_some_iff.1 h
    simp only [Prod.mk.injEq] at heq
    obtain ⟨rfl, rfl⟩ := heq
    obtain ⟨s, hs, rfl⟩ := Option.map_eq_some_iff.1 hj
    obtain ⟨rfl, -⟩ := intAdd_eq_some hs
    have hlt : t.nItems < t.size := Nat.lt_of_le_of_ne hw.count (fun he => hfull he.symm)
    refine .inr ⟨rfl, hlt, ⟨by simp [hw.slots], hw.first, hlt⟩, rfl, rfl, ?_⟩
    have := @Ring.window_push _ t.items _ _ item (by rw [hw.slots]; exact hw.first) (by rw [hw.slots]; exact hlt)
    rw [hw.slots] at this
    exact this

theorem ctWrite_isSome {t : CircularTable} (item : FifoItem) (hw : t.Wf) (hf : t.Fits) :
    (ctWrite t item).isSome = true := by
  unfold ctWrite
  split
  · rfl
  · split
    · rfl
    · simpa using hw.index_isSome hf hw.count

/-- **What a read does**: the first item leaves the table. -/
theorem ctRead_spec {t t' : CircularTable} {item : FifoItem} (hw : t.Wf) (h : ctRead t = some (item, t')) :
    t'.Wf ∧ t'.size = t.size ∧ t.nItems = t'.nItems + 1 ∧ t.toList = item :: t'.toList := by
  unfold ctRead at h
  split at h
  · cases h
  · rename_i hne
    simp only [Option.some.injEq, Prod.mk.injEq] at h
    obtain ⟨rfl, rfl⟩ := h
    have hfirst := hw.first
    have hcount := hw.count
    have hslots : t.indexFirst < t.items.length := by rw [hw.slots]; exact hfirst
    refine ⟨⟨by simp [hw.slots], Ring.wrap_lt (by omega), Nat.le_trans (Nat.sub_le _ _) hcount⟩, rfl,
      by simp only; omega, ?_⟩
    obtain ⟨n, hn⟩ : ∃ n, t.nItems = n + 1 := ⟨t.nItems - 1, by omega⟩
    have := Ring.window_pop (n := n) emptyFifoItem hslots (by rw [hw.slots]; omega)
    unfold toList
    rw [hn, this, hw.slots, List.getD_eq_getElem _ _ hslots]
    rfl

theorem ctRead_eq_none {t : CircularTable} (hw : t.Wf) : ctRead t = none ↔ t.toList = [] := by
  rw [hw.toList_eq_nil]
  unfold ctRead
  split <;> simp_all

end Perm
end Flp
