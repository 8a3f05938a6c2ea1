import FlpPrototype.Lib.Bytes
import Mathlib.Data.List.Range
/-!
# ByteMemory — the memory of a process

A byte at every address.  `load` is the bytes from an address on, `store` puts bytes there: what was stored is loaded
again (`load_store`), and what is loaded elsewhere is what was there (`load_store_apart`).
-/
namespace Flp

abbrev ByteMemory := Nat → UInt8

namespace ByteMemory

variable {m : ByteMemory} {a n : Nat}

def load (m : ByteMemory) (a n : Nat) : Bytes := (List.range n).map fun k => m (a + k)

def store (m : ByteMemory) (a : Nat) (bs : Bytes) : ByteMemory := fun x => if a ≤ x then bs.getD (x - a) (m x) else m x

@[simp] theorem length_load : (m.load a n).length = n := by simp [load]

@[simp] theorem load_zero : m.load a 0 = [] := rfl

theorem load_add (k : Nat) : m.load a (n + k) = m.load a n ++ m.load (a + n) k := by
  simp [load, List.range_add, Function.comp_def, Nat.add_assoc]

theorem getElem?_load {k : Nat} (h : k < n) : (m.load a n)[k]? = some (m (a + k)) := by
  simp [load, h]

theorem store_apply {bs : Bytes} {k : Nat} (h : k < bs.length) : m.store a bs (a + k) = bs[k] := by
  simp [store, h]

theorem store_outside {bs : Bytes} {x : Nat} (h : x < a ∨ a + bs.length ≤ x) : m.store a bs x = m x := by
  rcases h with h | h
  · rw [store, if_neg (Nat.not_le.2 h)]
  · rw [store, if_pos (by omega), List.getD_eq_getElem?_getD, List.getElem?_eq_none (by omega), Option.getD_none]

/-- **What was stored is loaded again.** -/
theorem load_store (bs : Bytes) : (m.store a bs).load a bs.length = bs := by
  apply List.ext_getElem length_load
  intro k _ hk
  rw [← Option.some_inj, ← List.getElem?_eq_getElem, getElem?_load hk, store_apply hk]

/-- **Elsewhere** a store is not seen. -/
theorem load_store_apart {bs : Bytes} {c k : Nat} (h : c + k ≤ a ∨ a + bs.length ≤ c) :
    (m.store a bs).load c k = m.load c k := by
  apply List.map_congr_left
  intro i hi
  have := List.mem_range.1 hi
  exact store_outside (by omega)

end ByteMemory
end Flp
