import Mathlib.Data.Nat.Notation
import Mathlib.Data.List.Basic
/-!
# Scan — a loop that stops at the first failure

A loop looks at consecutive places until one of them fails.  `scan` gives the places looked at and the failing one:
a place is looked at exactly if all places before it passed (`mem_scan`).
-/
namespace Flp

/-- The places looked at from `j` on, at most `n` of them, and the one that failed. -/
def scan (ok : Nat → Bool) : Nat → Nat → List Nat × Option Nat
  | 0, _     => ([], none)
  | n + 1, j => if ok j then (j :: (scan ok n (j + 1)).1, (scan ok n (j + 1)).2) else ([j], some j)

variable {ok : Nat → Bool}

theorem mem_scan {k : Nat} : ∀ {n j : Nat},
    k ∈ (scan ok n j).1 ↔ j ≤ k ∧ k < j + n ∧ ∀ i, j ≤ i → i < k → ok i = true
  | 0, j => by simp [scan]; omega
  | n + 1, j => by
    by_cases hok : ok j = true
    · rw [scan, if_pos hok, List.mem_cons, mem_scan]
      constructor
      · rintro (rfl | ⟨hle, hlt, hbefore⟩)
        · exact ⟨Nat.le_refl _, by omega, fun i hi hik => absurd hi (by omega)⟩
        · refine ⟨by omega, by omega, fun i hi hik => ?_⟩
          rcases Nat.eq_or_lt_of_le hi with rfl | hi
          · exact hok
          · exact hbefore i hi hik
      · rintro ⟨hle, hlt, hbefore⟩
        rcases Nat.eq_or_lt_of_le hle with rfl | hle
        · exact .inl rfl
        · exact .inr ⟨hle, by omega, fun i hi => hbefore i (by omega)⟩
    · rw [scan, if_neg hok, List.mem_singleton]
      constructor
      · rintro rfl
        exact ⟨Nat.le_refl _, by omega, fun i hi hik => absurd hi (by omega)⟩
      · rintro ⟨hle, -, hbefore⟩
        rcases Nat.eq_or_lt_of_le hle with rfl | hle
        · rfl
        · exact absurd (hbefore j (Nat.le_refl j) hle) hok

theorem scan_eq_none : ∀ {n j : Nat}, (scan ok n j).2 = none ↔ ∀ k, j ≤ k → k < j + n → ok k = true
  | 0, j => by simp [scan]; omega
  | n + 1, j => by
    by_cases hok : ok j = true
    · rw [scan, if_pos hok, scan_eq_none]
      constructor
      · intro h k hle hlt
        rcases Nat.eq_or_lt_of_le hle with rfl | hle
        · exact hok
        · exact h k hle (by omega)
      · exact fun h k hle hlt => h k (by omega) (by omega)
    · rw [scan, if_neg hok]
      exact iff_of_false nofun fun h => hok (h j (Nat.le_refl j) (by omega))

end Flp
