import FlpPrototype.Lib.CString
import FlpPrototype.Lib.Decimal
import FlpPrototype.Lib.FixedWidth
/-!
# SuffixNumber — numbers with a unit

`parse` cuts the numeric part off, converts it and multiplies it by the factor of the unit that follows, a `size_t`
converted to the number's type first; overflow is looked for afterwards, by a division.  What is missed is the factor
the conversion has changed, and the product that has no result at all (`exactOrRejected_iff`).
-/
namespace Flp
namespace Common

def SuffixNumberTable.get : List (Bytes × Nat) :=
  [(ascii ['k'], 1000),
   (ascii ['M'], 1000000),
   (ascii ['G'], 1000000000),
   (ascii ['T'], 1000000000000),
   (ascii ['P'], 1000000000000000),
   (ascii ['E'], 1000000000000000000),
   (ascii ['K', 'i'], 1024),
   (ascii ['M', 'i'], 1048576),
   (ascii ['G', 'i'], 1073741824),
   (ascii ['T', 'i'], 1099511627776),
   (ascii ['P', 'i'], 1125899906842624),
   (ascii ['E', 'i'], 1152921504606846976)]

inductive ErrorInfo where
  | Input (s : Bytes)
  | Suffix (s : Bytes)
  deriving DecidableEq, Repr

structure Exception where
  Message : String
  info : ErrorInfo
  deriving DecidableEq, Repr

structure SuffixNumber where
  mNumber : Int
  deriving DecidableEq, Repr

namespace SuffixNumber

/-- The characters of the numeric part. -/
def numeric : Bytes := ascii ['-', '.', '0', '1', '2', '3', '4', '5', '6', '7', '8', '9']

def isNumeric (c : UInt8) : Bool := numeric.contains c

/-- A number times its unit, `none` where a signed product overflows. -/
def multiply (T : FixedWidth) (input : Bytes) (number : Int) (factor : Nat) : Option (Except Exception Int) :=
  let a := number
  let b := T.convert factor
  match (T.times a b).map T.convert with
  | none            => none
  | some multiplied =>
    if a ≠ 0 then
      (T.quotient multiplied a).map fun quotient =>
        if quotient ≠ b then .error ⟨"Number too large for representation", .Input input⟩ else .ok multiplied
    else some (.ok multiplied)

/-- `parse`, with the conversion of the numeric part as `boost` does it for the type. -/
def parse (T : FixedWidth) (tryLexicalConvert : Bytes → Option Int) (input : Bytes) : Option (Except Exception Int) :=
  let numberString := input.takeWhile isNumeric
  match tryLexicalConvert numberString with
  | none        => some (.error ⟨"Could not convert number", .Input numberString⟩)
  | some number =>
    let unitString := input.dropWhile isNumeric
    if unitString = [] then some (.ok number)
    else
      match SuffixNumberTable.get.find? fun unit => unitString = unit.1 with
      | some unit => multiply T input number unit.2
      | none      => some (.error ⟨"Unrecognized unit", .Suffix unitString⟩)

/-- `setNumber`: what it throws, and the number afterwards. -/
def setNumber (T : FixedWidth) (tryLexicalConvert : Bytes → Option Int) (s : SuffixNumber) (input : Bytes) :
    Option (Option Exception × SuffixNumber) :=
  (parse T tryLexicalConvert input).map fun
    | .ok n    => (none, ⟨n⟩)
    | .error e => (some e, s)

/-! ## What the input means -/

/-- A decimal numeral: an optional minus sign and digits. -/
def decimalValue : Bytes → Option Int
  | [] => none
  | c :: cs =>
    if c = 45 then (if cs ≠ [] ∧ cs.all isDigit then some (-(digitsValue cs : Int)) else none)
    else if (c :: cs).all isDigit then some (digitsValue (c :: cs) : Int) else none

/-- The input is a numeral of value `n`, and nothing or a known unit of that factor. -/
def Denotes (input : Bytes) (n : Int) (factor : Nat) : Prop :=
  ∃ number unit, input = number ++ unit ∧ decimalValue number = some n ∧
    (unit = [] ∧ factor = 1 ∨ (unit, factor) ∈ SuffixNumberTable.get)

/-- What the code relies on: the conversion gives the value of a numeral in range, and fails on anything else. -/
def ExactConversion (T : FixedWidth) (tryLexicalConvert : Bytes → Option Int) : Prop :=
  ∀ s n, tryLexicalConvert s = some n ↔ decimalValue s = some n ∧ T.InRange n

/-- The product is stored where it fits; anything else is thrown out, with the number kept. -/
structure ExactOrRejected (T : FixedWidth) (tryLexicalConvert : Bytes → Option Int) (input : Bytes) : Prop where
  stores : ∀ s n factor, Denotes input n factor → T.InRange (n * factor) →
    setNumber T tryLexicalConvert s input = some (none, ⟨n * factor⟩)
  throws : ∀ s, (¬ ∃ n factor, Denotes input n factor ∧ T.InRange (n * factor)) →
    ∃ e, setNumber T tryLexicalConvert s input = some (some e, s)

/-- The product of the number and the converted factor has a result, in the type it is computed in. -/
def Computed (T : FixedWidth) (n : Int) (factor : Nat) : Prop :=
  T.promote.signed = true → T.promote.InRange (n * T.convert factor)

/-- The division afterwards shows that the product does not fit: it shows it with the converted factor, which the
product is computed of. -/
def OverflowSeen (T : FixedWidth) (n : Int) (factor : Nat) : Prop :=
  T.InRange n → T.InRange (n * factor) ∨ ¬ T.InRange (n * T.convert factor) ∧ Computed T n factor

/-! ## Cutting the input -/

theorem isNumeric_of_isDigit {c : UInt8} (h : isDigit c = true) : isNumeric c = true := by
  have hall : ∀ d < 10, isNumeric (digit d) = true := by decide
  obtain ⟨hlo, hhi⟩ := isDigit_iff.1 h
  have hc : c = digit (c.toNat - 48) := by
    apply UInt8.toNat_inj.1
    rw [toNat_digit (by omega)]
    omega
  rw [hc]
  exact hall _ (by omega)

theorem decimalValue_numeric : ∀ {s : Bytes} {n : Int}, decimalValue s = some n → ∀ c ∈ s, isNumeric c = true
  | [], _, h => by cases h
  | c :: cs, n, h => by
    rw [decimalValue] at h
    split at h
    · rename_i hminus
      split at h
      · rename_i hdigits
        intro x hx
        rcases List.mem_cons.1 hx with rfl | hx
        · rw [hminus]
          decide
        · exact isNumeric_of_isDigit (List.all_eq_true.1 hdigits.2 x hx)
      · cases h
    · split at h
      · rename_i hdigits
        exact fun x hx => isNumeric_of_isDigit (List.all_eq_true.1 hdigits x hx)
      · cases h

theorem takeWhile_cut {number unit : Bytes} (hn : ∀ c ∈ number, isNumeric c = true)
    (hu : unit.takeWhile isNumeric = []) : (number ++ unit).takeWhile isNumeric = number := by
  rw [List.takeWhile_append_of_pos hn, hu, List.append_nil]

theorem dropWhile_cut {number unit : Bytes} (hn : ∀ c ∈ number, isNumeric c = true)
    (hu : unit.takeWhile isNumeric = []) : (number ++ unit).dropWhile isNumeric = unit := by
  have h := List.takeWhile_append_dropWhile (p := isNumeric) (l := number ++ unit)
  rw [takeWhile_cut hn hu] at h
  exact List.append_cancel_left h

theorem denotes_iff {input : Bytes} {n : Int} {factor : Nat} : Denotes input n factor ↔
    decimalValue (input.takeWhile isNumeric) = some n ∧
      (input.dropWhile isNumeric = [] ∧ factor = 1 ∨ (input.dropWhile isNumeric, factor) ∈ SuffixNumberTable.get) := by
  constructor
  · rintro ⟨number, unit, rfl, hn, hunit⟩
    have hnumeric := decimalValue_numeric hn
    have hu : unit.takeWhile isNumeric = [] := by
      rcases hunit with ⟨rfl, -⟩ | hmem
      · rfl
      · have hall : ∀ u ∈ SuffixNumberTable.get, u.1.takeWhile isNumeric = [] := by decide
        exact hall _ hmem
    rw [takeWhile_cut hnumeric hu, dropWhile_cut hnumeric hu]
    exact ⟨hn, hunit⟩
  · rintro ⟨hn, hunit⟩
    exact ⟨_, _, (List.takeWhile_append_dropWhile).symm, hn, hunit⟩

/-! ## The units -/

theorem find_unit {u : Bytes} {factor : Nat} (h : (u, factor) ∈ SuffixNumberTable.get) :
    SuffixNumberTable.get.find? (fun unit => u = unit.1) = some (u, factor) := by
  have hall : ∀ p ∈ SuffixNumberTable.get,
      SuffixNumberTable.get.find? (fun unit => p.1 = unit.1) = some p := by decide
  exact hall _ h

theorem unit_ne_nil {factor : Nat} : ([], factor) ∉ SuffixNumberTable.get := fun h => by
  have hall : ∀ p ∈ SuffixNumberTable.get, p.1 ≠ [] := by decide
  exact hall _ h rfl

theorem factor_pos {u : Bytes} {factor : Nat} (h : (u, factor) ∈ SuffixNumberTable.get) : 0 < factor := by
  have hall : ∀ p ∈ SuffixNumberTable.get, 0 < p.2 := by decide
  exact hall _ h

/-- No factor is one more than the greatest number of a signed type. -/
theorem factor_ne {u : Bytes} {factor : Nat} (h : (u, factor) ∈ SuffixNumberTable.get) (w : Width) :
    factor ≠ 2 ^ (w.bits - 1) := by
  have hall : ∀ p ∈ SuffixNumberTable.get, p.2 ≠ 2 ^ 7 ∧ p.2 ≠ 2 ^ 15 ∧ p.2 ≠ 2 ^ 31 ∧ p.2 ≠ 2 ^ 63 := by decide
  obtain ⟨h8, h16, h32, h64⟩ := hall _ h
  cases w with
  | w8  => exact h8
  | w16 => exact h16
  | w32 => exact h32
  | w64 => exact h64

/-! ## The product -/

variable {T : FixedWidth} {tryLexicalConvert : Bytes → Option Int} {input : Bytes} {n : Int} {u : Bytes} {factor : Nat}

theorem convert_factor (h : (u, factor) ∈ SuffixNumberTable.get) (hn : n ≠ 0) (hfits : T.InRange (n * factor)) :
    T.convert factor = factor := by
  apply FixedWidth.convert_of_inRange
  have hne := factor_ne h T.width
  have hle : factor ≤ (n * factor).natAbs := by
    rw [Int.natAbs_mul, Int.natAbs_natCast]
    exact Nat.le_mul_of_pos_left _ (Int.natAbs_pos.2 hn)
  rcases T with ⟨_ | _ | _ | _, _ | _⟩ <;>
    simp only [FixedWidth.InRange, FixedWidth.least, FixedWidth.modulus, Width.bits, Bool.false_eq_true, if_false,
      if_true] at hfits hne ⊢ <;>
    omega

theorem multiply_of_inRange (h : (u, factor) ∈ SuffixNumberTable.get) (hfits : T.InRange (n * factor)) :
    multiply T input n factor = some (.ok (n * factor)) := by
  by_cases h0 : n = 0
  · subst h0
    have htimes : T.times 0 (T.convert factor) = some 0 := by
      have h := FixedWidth.times_of_inRange (T := T) (a := 0) (b := T.convert factor)
      rw [Int.zero_mul] at h
      exact h FixedWidth.inRange_zero
    simp [multiply, htimes, FixedWidth.convert_of_inRange FixedWidth.inRange_zero]
  · have hb := convert_factor h h0 hfits
    have htimes := FixedWidth.times_of_inRange hfits
    obtain ⟨q, hq, hiff⟩ := FixedWidth.quotient_times_iff (FixedWidth.inRange_of_mul (factor_pos h) hfits) h0
      (hb ▸ FixedWidth.convert_inRange (T := T) (n := factor)) htimes
    rw [FixedWidth.convert_of_inRange hfits] at hq
    simp [multiply, hb, htimes, FixedWidth.convert_of_inRange hfits, h0, hq, hiff.2 hfits]

theorem isSome_times : (T.times n (T.convert factor)).isSome = true ↔ Computed T n factor := by
  unfold FixedWidth.times FixedWidth.result Computed
  cases T.promote.signed with
  | false => simp
  | true => split <;> simp_all

/-- A product that does not fit is refused exactly if it is computed and the converted factor shows it. -/
theorem multiply_refused_iff (hn : T.InRange n) (h0 : n ≠ 0) : (∃ e, multiply T input n factor = some (.error e)) ↔
    ¬ T.InRange (n * T.convert factor) ∧ Computed T n factor := by
  rw [← isSome_times]
  cases htimes : T.times n (T.convert factor) with
  | none => simp [multiply, htimes]
  | some p =>
    obtain ⟨q, hq, hiff⟩ := FixedWidth.quotient_times_iff hn h0 FixedWidth.convert_inRange htimes
    by_cases hqb : q = T.convert factor
    · simp [multiply, htimes, h0, hq, hqb, hiff.1 hqb]
    · simp [multiply, htimes, h0, hq, hqb, mt hiff.2 hqb]

/-! ## The input as a whole -/

theorem parse_of_no_number (h : tryLexicalConvert (input.takeWhile isNumeric) = none) :
    ∃ e, parse T tryLexicalConvert input = some (.error e) := ⟨_, by rw [parse, h]⟩

theorem parse_of_denotes (hlex : ExactConversion T tryLexicalConvert) (h : Denotes input n factor) (hn : T.InRange n) :
    parse T tryLexicalConvert input = some (.ok n) ∧ factor = 1 ∨
      (∃ u, (u, factor) ∈ SuffixNumberTable.get) ∧ parse T tryLexicalConvert input = multiply T input n factor := by
  obtain ⟨hvalue, hunit⟩ := denotes_iff.1 h
  have hconv := (hlex _ _).2 ⟨hvalue, hn⟩
  rcases hunit with ⟨hnil, hone⟩ | hmem
  · exact .inl ⟨by simp only [parse, hconv, hnil, if_true], hone⟩
  · have hne : input.dropWhile isNumeric ≠ [] := fun hnil => unit_ne_nil (hnil ▸ hmem)
    exact .inr ⟨⟨_, hmem⟩, by simp only [parse, hconv, if_neg hne, find_unit hmem]⟩

theorem parse_refused (hlex : ExactConversion T tryLexicalConvert)
    (h : ¬ ∃ n factor, Denotes input n factor ∧ T.InRange n) :
    ∃ e, parse T tryLexicalConvert input = some (.error e) := by
  cases hconv : tryLexicalConvert (input.takeWhile isNumeric) with
  | none => exact parse_of_no_number hconv
  | some n =>
    obtain ⟨hvalue, hn⟩ := (hlex _ _).1 hconv
    have hnil : input.dropWhile isNumeric ≠ [] := fun hnil =>
      h ⟨n, 1, denotes_iff.2 ⟨hvalue, .inl ⟨hnil, rfl⟩⟩, hn⟩
    cases hfind : SuffixNumberTable.get.find? fun unit => input.dropWhile isNumeric = unit.1 with
    | none =>
      refine ⟨⟨"Unrecognized unit", .Suffix (input.dropWhile isNumeric)⟩, ?_⟩
      simp only [parse, hconv, if_neg hnil, hfind]
    | some unit =>
      have hname := List.find?_some hfind
      rw [decide_eq_true_eq] at hname
      exact absurd ⟨n, unit.2, denotes_iff.2 ⟨hvalue, .inr (hname ▸ List.mem_of_find?_eq_some hfind)⟩, hn⟩ h

theorem denotes_unique {n' : Int} {factor' : Nat} (h : Denotes input n factor) (h' : Denotes input n' factor') :
    n' = n ∧ factor' = factor := by
  obtain ⟨hvalue, hunit⟩ := denotes_iff.1 h
  obtain ⟨hvalue', hunit'⟩ := denotes_iff.1 h'
  refine ⟨Option.some.inj (hvalue'.symm.trans hvalue), ?_⟩
  rcases hunit with ⟨hnil, rfl⟩ | hmem <;> rcases hunit' with ⟨hnil', rfl⟩ | hmem'
  · rfl
  · exact absurd (hnil ▸ hmem') unit_ne_nil
  · exact absurd (hnil' ▸ hmem) unit_ne_nil
  · have hfind := (find_unit hmem).symm.trans (find_unit hmem')
    exact (congrArg Prod.snd (Option.some.inj hfind)).symm

theorem denotes_factor_pos (h : Denotes input n factor) : 0 < factor := by
  obtain ⟨-, hunit⟩ := denotes_iff.1 h
  rcases hunit with ⟨-, rfl⟩ | hmem
  · exact Nat.one_pos
  · exact factor_pos hmem

/-- **An input is read exactly or refused**, exactly if the overflow of its product is seen. -/
theorem exactOrRejected_iff (hlex : ExactConversion T tryLexicalConvert) :
    ExactOrRejected T tryLexicalConvert input ↔ ∀ n factor, Denotes input n factor → OverflowSeen T n factor := by
  constructor
  · rintro ⟨-, hthrows⟩ n factor h hn
    by_contra hunseen
    rw [not_or] at hunseen
    obtain ⟨hfits, hunseen⟩ := hunseen
    have h0 : n ≠ 0 := by
      rintro rfl
      rw [Int.zero_mul] at hfits
      exact hfits FixedWidth.inRange_zero
    have hnone : ¬ ∃ n factor, Denotes input n factor ∧ T.InRange (n * factor) := by
      rintro ⟨n', factor', h', hfits'⟩
      obtain ⟨rfl, rfl⟩ := denotes_unique h h'
      exact hfits hfits'
    obtain ⟨e, he⟩ := hthrows ⟨0⟩ hnone
    rcases parse_of_denotes hlex h hn with ⟨-, rfl⟩ | ⟨-, hparse⟩
    · exact hfits (by rwa [Nat.cast_one, Int.mul_one])
    · rw [setNumber, hparse] at he
      obtain ⟨r, hr, hmatch⟩ := Option.map_eq_some_iff.1 he
      cases r with
      | ok n    => cases hmatch
      | error e => exact hunseen ((multiply_refused_iff hn h0).1 ⟨e, hr⟩)
  · intro hseen
    constructor
    · intro s n factor h hfits
      rcases parse_of_denotes hlex h (FixedWidth.inRange_of_mul (denotes_factor_pos h) hfits) with
        ⟨hparse, rfl⟩ | ⟨⟨u, hmem⟩, hparse⟩
      · simp [setNumber, hparse]
      · rw [setNumber, hparse, multiply_of_inRange hmem hfits]
        rfl
    · intro s hnone
      suffices hparse : ∃ e, parse T tryLexicalConvert input = some (.error e) by
        obtain ⟨e, he⟩ := hparse
        exact ⟨e, by rw [setNumber, he]; rfl⟩
      by_cases hnumber : ∃ n factor, Denotes input n factor ∧ T.InRange n
      · obtain ⟨n, factor, h, hn⟩ := hnumber
        have hfits : ¬ T.InRange (n * factor) := fun hfits => hnone ⟨n, factor, h, hfits⟩
        rcases parse_of_denotes hlex h hn with ⟨-, rfl⟩ | ⟨-, hparse⟩
        · exact absurd (by rwa [Nat.cast_one, Int.mul_one]) hfits
        · have h0 : n ≠ 0 := by
            rintro rfl
            rw [Int.zero_mul] at hfits
            exact hfits FixedWidth.inRange_zero
          rw [hparse]
          exact (multiply_refused_iff hn h0).2 ((hseen n factor h hn).resolve_left hfits)
      · exact parse_refused hlex hnumber

/-- A conversion as the code relies on. -/
def exactConversion (T : FixedWidth) (s : Bytes) : Option Int := (decimalValue s).filter fun n => T.InRange n

theorem exactConversion_exact : ExactConversion T (exactConversion T) := fun s n => by
  simp [exactConversion, Option.filter_eq_some_iff]

theorem exactOrRejected_iff_fourKi : ExactOrRejected .int32 (exactConversion .int32) (ascii ['4', 'K', 'i']) ↔
    ∀ n factor, Denotes (ascii ['4', 'K', 'i']) n factor → OverflowSeen .int32 n factor :=
  exactOrRejected_iff exactConversion_exact

/-- `1T` in an `int32_t` is stored as -727379968. -/
theorem oneT_not_exact : ¬ ExactOrRejected .int32 (exactConversion .int32) (ascii ['1', 'T']) := by
  rintro ⟨-, hthrows⟩
  have hstored : setNumber .int32 (exactConversion .int32) ⟨0⟩ (ascii ['1', 'T']) = some (none, ⟨-727379968⟩) := by
    decide
  obtain ⟨e, he⟩ := hthrows ⟨0⟩ fun ⟨n, factor, h, hfits⟩ => by
    have hone : Denotes (ascii ['1', 'T']) 1 1000000000000 := denotes_iff.2 (by decide)
    obtain ⟨rfl, rfl⟩ := denotes_unique hone h
    exact absurd hfits (by decide)
  rw [hstored] at he
  cases he

/-! ## The types -/

/-- In a signed type of at least 32 bits an overflow is never seen: the product then has to fit. -/
theorem overflowSeen_wide_signed (hsame : T.promote = T) (hsigned : T.signed = true) :
    OverflowSeen T n factor ↔ (T.InRange n → T.InRange (n * factor)) := by
  constructor
  · intro h hn
    rcases h hn with hfits | ⟨hconv, hcomputed⟩
    · exact hfits
    · rw [Computed, hsame] at hcomputed
      exact absurd (hcomputed hsigned) hconv
  · exact fun h hn => .inl (h hn)

/-- In 64 bits without a sign every factor fits, and every overflow is seen. -/
theorem overflowSeen_uint64 (h : Denotes input n factor) : OverflowSeen .uint64 n factor := by
  have hfactor : FixedWidth.uint64.InRange factor := by
    obtain ⟨-, hunit⟩ := denotes_iff.1 h
    rcases hunit with ⟨-, rfl⟩ | hmem
    · decide
    · have hall : ∀ p ∈ SuffixNumberTable.get, FixedWidth.uint64.InRange p.2 := by decide
      exact hall _ hmem
  intro _
  rw [FixedWidth.convert_of_inRange hfactor]
  by_cases hfits : FixedWidth.uint64.InRange (n * factor)
  · exact .inl hfits
  · exact .inr ⟨hfits, fun hsigned => by cases hsigned⟩

end SuffixNumber
end Common
end Flp
