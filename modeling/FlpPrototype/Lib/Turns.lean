import Mathlib.Data.List.Range
import Mathlib.Data.List.Nodup
/-!
# Turns — indices taken in turn

One of `n` things after the other, from some index on, and around (`turns`).  A whole number of times around takes each
of them equally often (`count_turns`).
-/
namespace Flp

/-- The `t` indices below `n` from `r` on. -/
def turns (n r t : Nat) : List Nat := (List.range' r t).map (· % n)

@[simp] theorem turns_zero (n r : Nat) : turns n r 0 = [] := rfl

@[simp] theorem length_turns (n r t : Nat) : (turns n r t).length = t := by
  rw [turns, List.length_map, List.length_range']

theorem turns_add (n r t u : Nat) : turns n r (t + u) = turns n r t ++ turns n (r + t) u := by
  unfold turns
  rw [← List.map_append, List.range'_append_1]

theorem turns_succ (n r t : Nat) : turns n r (t + 1) = turns n r t ++ [(r + t) % n] := turns_add n r t 1

/-- **Once around** takes each index once. -/
theorem count_turns_one {n k : Nat} (hk : k < n) (r : Nat) : (turns n r n).count k = 1 := by
  induction r with
  | zero =>
    have hid : turns n 0 n = List.range n := by
      unfold turns
      rw [← List.range_eq_range']
      exact (List.map_congr_left fun i hi => Nat.mod_eq_of_lt (List.mem_range.1 hi)).trans (List.map_id _)
    rw [hid]
    exact List.count_eq_one_of_mem List.nodup_range (List.mem_range.2 hk)
  | succ r ih =>
    -- the first index goes and comes again at the end
    have hsplit : turns n r (n + 1) = r % n :: turns n (r + 1) n := rfl
    rw [turns_succ, Nat.add_mod_right] at hsplit
    have hcount := congrArg (List.count k) hsplit
    rw [List.count_append, List.count_cons, List.count_cons, List.count_nil, ih] at hcount
    omega

theorem count_turns {n k : Nat} (hk : k < n) (r : Nat) : ∀ q, (turns n r (n * q)).count k = q
  | 0     => by rw [Nat.mul_zero]; rfl
  | q + 1 => by
    rw [Nat.mul_succ, turns_add, List.count_append, count_turns hk r q, count_turns_one hk]

end Flp
