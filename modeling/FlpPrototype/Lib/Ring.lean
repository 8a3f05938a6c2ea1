import Mathlib.Data.List.Rotate
import Mathlib.Data.Nat.ModEq
/-!
# Ring — a bounded queue kept in a circular array

A circular array holds its queue in the `n` slots from `first` on, going around at the end: its *window*.  The code
that keeps such an array computes an index by one addition and at most one subtraction (`wrap`), never by a
remainder.  Each law here says what one array update does to the window, so a proof about a queue never opens the
array again.
-/
namespace Flp
namespace Ring

variable {α : Type}

/-- An index that passed the end of the array at most once, brought back into it. -/
def wrap (size i : Nat) : Nat := if size ≤ i then i - size else i

theorem wrap_eq_mod {size i : Nat} (h : i < 2 * size) : wrap size i = i % size := by
  unfold wrap
  split
  · rename_i hge
    rw [Nat.mod_eq_sub_mod hge, Nat.mod_eq_of_lt (by omega)]
  · rw [Nat.mod_eq_of_lt (by omega)]

theorem wrap_lt {size i : Nat} (h : i < 2 * size) : wrap size i < size := by
  unfold wrap
  split <;> omega

theorem wrap_wrap_add {size i j : Nat} (h : i + j < 2 * size) : wrap size (wrap size i + j) = wrap size (i + j) := by
  by_cases hi : size ≤ i
  · rw [wrap, wrap, wrap, if_pos hi, if_neg (by omega), if_pos (by omega)]
    omega
  · have inside : wrap size i = i := if_neg hi
    rw [inside]

/-- The `n` slots from `first` on, in queue order. -/
def window (slots : List α) (first n : Nat) : List α := (slots.rotate first).take n

@[simp] theorem window_zero (slots : List α) (first : Nat) : window slots first 0 = [] := rfl

theorem length_window {slots : List α} {n : Nat} (first : Nat) (h : n ≤ slots.length) :
    (window slots first n).length = n := by
  simp [window, h]

theorem window_wrap {slots : List α} {first : Nat} (n : Nat) (h : first < 2 * slots.length) :
    window slots (wrap slots.length first) n = window slots first n := by
  unfold window
  rw [wrap_eq_mod h, List.rotate_mod]

/-- The queue's `i`-th element sits `i` slots after the first one. -/
theorem getElem?_window {slots : List α} {first n i : Nat} (hf : first < slots.length) (hn : n ≤ slots.length)
    (hi : i < n) : (window slots first n)[i]? = slots[wrap slots.length (first + i)]? := by
  have hlt : i < slots.length := Nat.lt_of_lt_of_le hi hn
  unfold window
  rw [List.getElem?_take_of_lt hi, List.getElem?_rotate hlt, wrap_eq_mod (by omega), Nat.add_comm]

/-- Writing the slot `k` places after the first one writes the `k`-th place of the rotated array. -/
theorem rotate_set {slots : List α} {first k : Nat} (x : α) (hf : first < slots.length) (hk : k < slots.length) :
    (slots.set (wrap slots.length (first + k)) x).rotate first = (slots.rotate first).set k x := by
  rw [wrap_eq_mod (by omega)]
  apply List.ext_getElem (by simp)
  intro i h1 h2
  have hi : i < slots.length := by simpa using h2
  rw [List.getElem_rotate, List.getElem_set, List.getElem_set, List.getElem_rotate]
  simp only [List.length_set]
  have hiff : (first + k) % slots.length = (i + first) % slots.length ↔ k = i := by
    constructor
    · intro h
      have hmod : Nat.ModEq slots.length k i :=
        Nat.ModEq.add_left_cancel' first (by rw [Nat.add_comm first i]; exact h)
      rwa [Nat.ModEq, Nat.mod_eq_of_lt hk, Nat.mod_eq_of_lt hi] at hmod
    · rintro rfl
      rw [Nat.add_comm]
  simp only [hiff]

/-- **Writing behind the last element appends it.** -/
theorem window_push {slots : List α} {first n : Nat} (x : α) (hf : first < slots.length) (hn : n < slots.length) :
    window (slots.set (wrap slots.length (first + n)) x) first (n + 1) = window slots first n ++ [x] := by
  unfold window
  rw [rotate_set x hf hn, List.take_add_one, List.take_set_of_le (Nat.le_refl n),
    List.getElem?_set_self (by simpa using hn)]
  rfl

/-- **Taking the first slot**, which may be overwritten, leaves the window behind it. -/
theorem window_pop {slots : List α} {first n : Nat} (e : α) (hf : first < slots.length) (hn : n < slots.length) :
    window slots first (n + 1) = slots[first] :: window (slots.set first e) (wrap slots.length (first + 1)) n := by
  obtain ⟨a, t, hat⟩ : ∃ a t, slots.rotate first = a :: t :=
    List.exists_cons_of_ne_nil (List.ne_nil_of_length_pos (by simp; omega))
  have ha : slots[first] = a := by
    have h0 : (slots.rotate first)[0]? = some a := by rw [hat]; rfl
    rw [List.getElem?_rotate (by omega), Nat.zero_add, Nat.mod_eq_of_lt hf, List.getElem?_eq_getElem hf] at h0
    exact Option.some.inj h0
  have hset : (slots.set first e).rotate first = e :: t := by
    have := rotate_set (k := 0) e hf (by omega)
    rw [hat, Nat.add_zero, wrap, if_neg (by omega)] at this
    simpa using this
  have hlen : t.length + 1 = slots.length := by
    simpa using (congrArg List.length hat).symm
  have hw := @window_wrap _ (slots.set first e) (first + 1) n (by simp; omega)
  rw [List.length_set] at hw
  rw [hw]
  unfold window
  rw [hat, ha, ← List.rotate_rotate, hset, List.rotate_cons_succ, List.rotate_zero, List.take_succ_cons,
    List.take_append_of_le_length (by omega)]

end Ring
end Flp
