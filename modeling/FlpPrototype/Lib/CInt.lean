import Mathlib.Data.Int.Notation
import Mathlib.Data.Nat.Notation
import Mathlib.Tactic.Ring
/-!
# CInt — C integer arithmetic on 64-bit Linux

Signed arithmetic that overflows has no defined result, so it is an `Option` here and `none` is undefined behaviour.
Conversions keep the low bits, as the compilers the code is built with do.
-/
namespace Flp

def intMax : Nat := 2 ^ 31 - 1

/-- `a + b` on `int`: undefined past `intMax`. -/
def intAdd (a b : Nat) : Option Nat := if a + b ≤ intMax then some (a + b) else none

theorem intAdd_eq_some {a b c : Nat} (h : intAdd a b = some c) : c = a + b ∧ a + b ≤ intMax := by
  unfold intAdd at h
  split at h
  · rename_i hle
    exact ⟨(Option.some.inj h).symm, hle⟩
  · cases h

theorem intAdd_of_le {a b : Nat} (h : a + b ≤ intMax) : intAdd a b = some (a + b) := if_pos h

/-- `a + b` on signed `int`s: undefined outside their range. -/
def intPlus (a b : Int) : Option Int := if -2 ^ 31 ≤ a + b ∧ a + b ≤ intMax then some (a + b) else none

theorem intPlus_of_le {a b : Int} (h : -2 ^ 31 ≤ a + b) (h' : a + b ≤ intMax) : intPlus a b = some (a + b) :=
  if_pos ⟨h, h'⟩

theorem intPlus_overflow {a b : Int} (h : (intMax : Int) < a + b) : intPlus a b = none :=
  if_neg fun ⟨_, h'⟩ => absurd h' (Int.not_le.2 h)

/-- The value kept when `n` is converted to a signed type of `w` bits. -/
def toSigned (w n : Nat) : Int :=
  if n % 2 ^ w < 2 ^ (w - 1) then (n % 2 ^ w : Nat) else (n % 2 ^ w : Nat) - (2 ^ w : Nat)

/-- The value kept when a signed number is converted to an unsigned type of `w` bits. -/
def toUnsigned (w : Nat) (n : Int) : Nat := (n % (2 ^ w : Nat)).toNat

theorem toSigned_of_lt {w n : Nat} (h : n < 2 ^ (w - 1)) : toSigned w n = n := by
  have hw : n < 2 ^ w := Nat.lt_of_lt_of_le h (Nat.pow_le_pow_right (by decide) (Nat.sub_le w 1))
  unfold toSigned
  rw [Nat.mod_eq_of_lt hw, if_pos h]

theorem toSigned_le (w n : Nat) : toSigned w n ≤ n := by
  have hmod : n % 2 ^ w ≤ n := Nat.mod_le _ _
  unfold toSigned
  split
  · exact Int.ofNat_le.2 hmod
  · exact Int.le_trans (Int.sub_le_self _ (Int.natCast_nonneg _)) (Int.ofNat_le.2 hmod)

theorem toUnsigned_natCast {w n : Nat} (h : n < 2 ^ w) : toUnsigned w n = n := by
  unfold toUnsigned
  rw [← Int.natCast_emod, Nat.mod_eq_of_lt h, Int.toNat_natCast]

/-! ## Numbers `%d` reads -/

/-- What `strtol` makes of a number: the nearest `long`. -/
def clampLong (n : Int) : Int := max (-2 ^ 63) (min n (2 ^ 63 - 1))

/-- The `int` that `%d` stores for a number: the `long`, converted. -/
def intOf (n : Int) : Int32 := Int32.ofInt (clampLong n)

theorem clampLong_of_int {n : Int} (h : -2 ^ 31 ≤ n) (h' : n < 2 ^ 31) : clampLong n = n := by
  unfold clampLong
  omega

theorem intOf_eq {n : Int} (h : -2 ^ 31 ≤ n) (h' : n < 2 ^ 31) : (intOf n).toInt = n := by
  rw [intOf, clampLong_of_int h h', Int32.toInt_ofInt_of_le h h']

theorem intOf_toInt (n : Int32) : intOf n.toInt = n := by
  rw [intOf, clampLong_of_int n.le_toInt n.toInt_lt, Int32.ofInt_toInt]

end Flp
