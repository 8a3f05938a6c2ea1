import Mathlib.Data.Int.Notation
import Mathlib.Data.Nat.Notation
import Mathlib.Algebra.Order.Ring.Int
import Mathlib.Tactic.Linarith
/-!
# FixedWidth — the integer types of C and their arithmetic

A type has a width and a sign.  A conversion keeps the residue modulo `2 ^ bits`; arithmetic is done in `int` for the
types narrower than it, undefined (`none`) where a signed result overflows and modulo `2 ^ bits` where the type is
unsigned.  `quotient_times_iff` is the overflow check by division: with the product computed and converted, the quotient
by one factor is the other exactly if the product fits.
-/
namespace Flp

inductive Width where
  | w8
  | w16
  | w32
  | w64
  deriving DecidableEq, Repr

def Width.bits : Width → Nat
  | .w8  => 8
  | .w16 => 16
  | .w32 => 32
  | .w64 => 64

structure FixedWidth where
  width : Width
  signed : Bool
  deriving DecidableEq, Repr

namespace FixedWidth

variable {T : FixedWidth} {a b n : Int}

def int32 : FixedWidth := ⟨.w32, true⟩
def uint64 : FixedWidth := ⟨.w64, false⟩

/-- How many values the type has. -/
def modulus (T : FixedWidth) : Int := 2 ^ T.width.bits

def least (T : FixedWidth) : Int := if T.signed then -2 ^ (T.width.bits - 1) else 0

def InRange (T : FixedWidth) (n : Int) : Prop := T.least ≤ n ∧ n < T.least + T.modulus

instance (T : FixedWidth) (n : Int) : Decidable (T.InRange n) := inferInstanceAs (Decidable (_ ∧ _))

/-- What a conversion to the type keeps of a number. -/
def convert (T : FixedWidth) (n : Int) : Int := T.least + (n - T.least) % T.modulus

/-- The type in which arithmetic on the type is done. -/
def promote (T : FixedWidth) : FixedWidth :=
  match T.width with
  | .w8 | .w16 => int32
  | _          => T

/-- A result of an operation, as the type has it. -/
def result (T : FixedWidth) (n : Int) : Option Int :=
  if T.signed then (if T.InRange n then some n else none) else some (T.convert n)

def times (T : FixedWidth) (a b : Int) : Option Int := T.promote.result (a * b)

/-- `a / b`, towards zero. -/
def quotient (T : FixedWidth) (a b : Int) : Option Int := T.promote.result (a.tdiv b)

/-! ## Ranges and conversions -/

theorem modulus_pos : 0 < T.modulus := Int.pow_pos (by decide)

theorem convert_inRange : T.InRange (T.convert n) := by
  have := Int.emod_nonneg (n - T.least) (Int.ne_of_gt (modulus_pos (T := T)))
  have := Int.emod_lt_of_pos (n - T.least) (modulus_pos (T := T))
  unfold InRange convert
  omega

theorem convert_of_inRange (h : T.InRange n) : T.convert n = n := by
  obtain ⟨hlo, hhi⟩ := h
  rw [convert, Int.emod_eq_of_lt (by omega) (by omega)]
  omega

theorem exists_convert (T : FixedWidth) (n : Int) : ∃ k, T.convert n = n + T.modulus * k := by
  refine ⟨-((n - T.least) / T.modulus), ?_⟩
  have := Int.emod_add_mul_ediv (n - T.least) T.modulus
  rw [convert, Int.mul_neg]
  omega

theorem inRange_zero : T.InRange 0 := by
  rcases T with ⟨_ | _ | _ | _, _ | _⟩ <;> decide

theorem inRange_promote (h : T.InRange n) : T.promote.InRange n := by
  rcases T with ⟨_ | _ | _ | _, _ | _⟩ <;>
    simp only [InRange, promote, least, modulus, Width.bits, int32, Bool.false_eq_true, if_false, if_true] at h ⊢ <;>
    omega

theorem natAbs_lt_modulus (h : T.InRange n) : (n.natAbs : Int) < T.modulus := by
  rcases T with ⟨_ | _ | _ | _, _ | _⟩ <;>
    simp only [InRange, least, modulus, Width.bits, Bool.false_eq_true, if_false, if_true] at h ⊢ <;> omega

theorem result_of_inRange (h : T.InRange n) : T.result n = some n := by
  unfold result
  rw [if_pos h, convert_of_inRange h, ite_self]

theorem inRange_of_mul {f : Nat} (hf : 0 < f) (h : T.InRange (n * f)) : T.InRange n := by
  have hone : (1 : Int) ≤ f := Int.ofNat_le.2 hf
  obtain ⟨hlo, hhi⟩ := h
  obtain ⟨hzlo, hzhi⟩ := inRange_zero (T := T)
  rcases le_total 0 n with hn | hn
  · have hle : n ≤ n * f := le_mul_of_one_le_right hn hone
    exact ⟨by omega, by omega⟩
  · have hle : n * f ≤ n := mul_le_of_one_le_right hn hone
    exact ⟨by omega, by omega⟩

theorem times_of_inRange (h : T.InRange (a * b)) : T.times a b = some (a * b) :=
  result_of_inRange (inRange_promote h)

/-! ## The overflow check -/

/-- A product changed by a multiple of the modulus does not give the other factor back. -/
theorem tdiv_ne_of_wrapped {m k : Int} (ha : T.InRange a) (h0 : a ≠ 0) (hm : m = a * b + T.modulus * k) (hk : k ≠ 0) :
    m.tdiv a ≠ b := by
  intro hq
  have hdiv := Int.mul_tdiv_add_tmod m a
  rw [hq] at hdiv
  have hrem : m.tmod a = T.modulus * k := by omega
  have hlt : (m.tmod a).natAbs < a.natAbs := by
    rw [Int.natAbs_tmod]
    exact Nat.mod_lt _ (Int.natAbs_pos.2 h0)
  have hle : T.modulus.natAbs ≤ (m.tmod a).natAbs := by
    rw [hrem, Int.natAbs_mul]
    exact Nat.le_mul_of_pos_right _ (Int.natAbs_pos.2 hk)
  have := natAbs_lt_modulus ha
  omega

theorem exists_times {p : Int} (hp : T.times a b = some p) : ∃ k, T.convert p = a * b + T.modulus * k := by
  obtain ⟨k, hk⟩ := T.exists_convert p
  rw [times, result] at hp
  split at hp
  · split at hp
    · exact ⟨k, by rw [hk, Option.some.inj hp]⟩
    · cases hp
  · rename_i hsigned
    have hsame : T.promote = T := by
      rcases T with ⟨_ | _ | _ | _, _ | _⟩ <;> first | rfl | exact absurd rfl hsigned
    obtain ⟨k', hk'⟩ := T.exists_convert (a * b)
    rw [hsame] at hp
    refine ⟨k' + k, ?_⟩
    rw [hk, ← Option.some.inj hp, hk', Int.mul_add]
    omega

theorem inRange_tdiv {m : Int} (hm : T.InRange m) (ha : T.InRange a) (h : T.promote.signed = true → T.promote ≠ T) :
    T.promote.InRange (m.tdiv a) := by
  have hle := Int.natAbs_tdiv_le_natAbs m a
  rcases T with ⟨_ | _ | _ | _, _ | _⟩
  case w32.true | w64.true => exact absurd rfl (h rfl)
  case w32.false | w64.false =>
    have hnonneg : 0 ≤ m.tdiv a := Int.tdiv_nonneg hm.1 ha.1
    simp only [InRange, promote, least, modulus, Width.bits, Bool.false_eq_true, if_false] at hm ⊢
    omega
  all_goals
    simp only [InRange, promote, least, modulus, Width.bits, int32, Bool.false_eq_true, if_false, if_true] at hm ⊢
    omega

/-- **The overflow check**: the product of two numbers of the type, once computed and converted, is divided by the one
and gives the other exactly if it fits. -/
theorem quotient_times_iff {p : Int} (ha : T.InRange a) (h0 : a ≠ 0) (hb : T.InRange b) (hp : T.times a b = some p) :
    ∃ q, T.quotient (T.convert p) a = some q ∧ (q = b ↔ T.InRange (a * b)) := by
  by_cases hfits : T.InRange (a * b)
  · rw [times_of_inRange hfits] at hp
    refine ⟨b, ?_, iff_of_true rfl hfits⟩
    rw [← Option.some.inj hp, convert_of_inRange hfits, quotient, Int.mul_tdiv_cancel_left b h0]
    exact result_of_inRange (inRange_promote hb)
  · obtain ⟨k, hk⟩ := exists_times hp
    have hk0 : k ≠ 0 := by
      rintro rfl
      rw [Int.mul_zero, Int.add_zero] at hk
      exact hfits (hk ▸ convert_inRange)
    have hnarrow : T.promote.signed = true → T.promote ≠ T := by
      intro hsigned hsame
      rw [times, result, if_pos hsigned, hsame, if_neg hfits] at hp
      cases hp
    exact ⟨_, result_of_inRange (inRange_tdiv convert_inRange ha hnarrow),
      iff_of_false (tdiv_ne_of_wrapped ha h0 hk hk0) hfits⟩

end FixedWidth
end Flp
