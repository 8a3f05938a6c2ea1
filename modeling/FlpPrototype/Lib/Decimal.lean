import FlpPrototype.Lib.Bytes
import Mathlib.Data.Nat.Digits.Defs
/-!
# Decimal — numbers as C prints and scans them

`printInt` is `%d` and `scanInt` its reading: blanks skipped, a sign, then as many digits as there are.  What was
printed is read back as long as no digit follows (`scanInt_printInt`).  `scanWord` is the reading of `%s`.
-/
namespace Flp

def digit (d : Nat) : UInt8 := UInt8.ofNat (48 + d)

def isDigit (c : UInt8) : Bool := 48 ≤ c && c ≤ 57

/-- What `isspace` accepts: the blank and the five controls from tab to carriage return. -/
def isSpace (c : UInt8) : Bool := c = 32 || (9 ≤ c && c ≤ 13)

/-- The digits of a number, most significant first; zero has one. -/
def printNat (n : Nat) : Bytes := if n = 0 then [digit 0] else ((Nat.digits 10 n).map digit).reverse

/-- `%d`. -/
def printInt : Int → Bytes
  | .ofNat n   => printNat n
  | .negSucc n => 45 :: printNat (n + 1)

/-- The number a string of digits stands for. -/
def digitsValue (ds : Bytes) : Nat := ds.foldl (fun v c => 10 * v + (c.toNat - 48)) 0

def scanNat (s : Bytes) : Option (Nat × Bytes) :=
  if s.takeWhile isDigit = [] then none else some (digitsValue (s.takeWhile isDigit), s.dropWhile isDigit)

/-- `%d` read: the number and what is left, or no number. -/
def scanInt (s : Bytes) : Option (Int × Bytes) :=
  match s.dropWhile isSpace with
  | []     => none
  | c :: s =>
    if c = 45 then (scanNat s).map (fun r => (-(r.1 : Int), r.2))
    else if c = 43 then (scanNat s).map (fun r => ((r.1 : Int), r.2))
    else (scanNat (c :: s)).map (fun r => ((r.1 : Int), r.2))

/-! ## Digits -/

theorem toNat_digit {d : Nat} (h : d < 10) : (digit d).toNat = 48 + d := by
  rw [digit, UInt8.toNat_ofNat', Nat.mod_eq_of_lt (by omega)]

theorem isDigit_digit {d : Nat} (h : d < 10) : isDigit (digit d) = true := by
  simp only [isDigit, Bool.and_eq_true, decide_eq_true_eq, UInt8.le_iff_toNat_le, toNat_digit h]
  exact ⟨Nat.le_add_right _ _, by show 48 + d ≤ 57; omega⟩

theorem isDigit_iff {c : UInt8} : isDigit c = true ↔ 48 ≤ c.toNat ∧ c.toNat ≤ 57 := by
  simp only [isDigit, Bool.and_eq_true, decide_eq_true_eq, UInt8.le_iff_toNat_le]
  exact Iff.rfl

theorem isSpace_eq_false {c : UInt8} (h : 32 < c.toNat) : isSpace c = false := by
  have h32 : c ≠ 32 := fun e => by rw [e] at h; exact absurd h (by decide)
  have h13 : ¬ c ≤ 13 := fun e => by rw [UInt8.le_iff_toNat_le] at e; change c.toNat ≤ 13 at e; omega
  simp [isSpace, h32, h13]

theorem isDigit_of_mem_printNat {n : Nat} {c : UInt8} (h : c ∈ printNat n) : isDigit c = true := by
  unfold printNat at h
  split at h
  · rw [List.mem_singleton.1 h]
    exact isDigit_digit (by decide)
  · obtain ⟨d, hd, rfl⟩ := List.mem_map.1 (List.mem_reverse.1 h)
    exact isDigit_digit (Nat.digits_lt_base (by decide) hd)

theorem printNat_ne_nil (n : Nat) : printNat n ≠ [] := by
  unfold printNat
  split
  · exact List.cons_ne_nil _ _
  · rename_i h
    simpa using Nat.digits_ne_nil_iff_ne_zero.2 h

theorem digitsValue_printNat (n : Nat) : digitsValue (printNat n) = n := by
  have value : ∀ ds : List Nat, (∀ d ∈ ds, d < 10) → digitsValue (ds.map digit).reverse = Nat.ofDigits 10 ds := by
    intro ds
    induction ds with
    | nil => exact fun _ => rfl
    | cons d ds ih =>
      intro h
      have hd := toNat_digit (h d List.mem_cons_self)
      have ih := ih (fun e he => h e (List.mem_cons_of_mem _ he))
      rw [digitsValue] at ih ⊢
      rw [List.map_cons, List.reverse_cons, List.foldl_append, ih, List.foldl_cons, List.foldl_nil, hd,
        Nat.ofDigits_cons]
      omega
  unfold printNat
  split
  · rename_i h
    rw [h]
    decide
  · rw [value _ (fun d hd => Nat.digits_lt_base (by decide) hd), Nat.ofDigits_digits]

/-! ## What was printed is read back -/

/-- A text a number can be followed by and still be read whole. -/
def NoDigit (rest : Bytes) : Prop := ∀ c, rest.head? = some c → isDigit c = false

theorem noDigit_nil : NoDigit [] := fun _ h => by cases h

theorem noDigit_cons {c : UInt8} {rest : Bytes} (h : isDigit c = false) : NoDigit (c :: rest) :=
  fun d hd => by rw [← Option.some.inj hd]; exact h

theorem scanNat_printNat (n : Nat) {rest : Bytes} (h : NoDigit rest) :
    scanNat (printNat n ++ rest) = some (n, rest) := by
  have hall : ∀ c ∈ printNat n, isDigit c = true := fun c hc => isDigit_of_mem_printNat hc
  have hrest : rest.takeWhile isDigit = [] ∧ rest.dropWhile isDigit = rest := by
    cases rest with
    | nil => exact ⟨rfl, rfl⟩
    | cons c cs =>
      have := h c rfl
      exact ⟨by simp [this], by simp [this]⟩
  have ht : (printNat n ++ rest).takeWhile isDigit = printNat n := by
    rw [List.takeWhile_append_of_pos hall, hrest.1, List.append_nil]
  have hd : (printNat n ++ rest).dropWhile isDigit = rest := by
    rw [List.dropWhile_append_of_pos hall, hrest.2]
  rw [scanNat, ht, hd, if_neg (printNat_ne_nil n), digitsValue_printNat]

theorem exists_printNat_cons (n : Nat) : ∃ c cs, printNat n = c :: cs ∧ isDigit c = true := by
  cases h : printNat n with
  | nil => exact absurd h (printNat_ne_nil n)
  | cons c cs => exact ⟨c, cs, rfl, isDigit_of_mem_printNat (h ▸ List.mem_cons_self)⟩

/-- **A printed number is read back**, blanks before it skipped and no digit after it. -/
theorem scanInt_printInt (n : Int) {blanks rest : Bytes} (hb : ∀ c ∈ blanks, isSpace c = true) (h : NoDigit rest) :
    scanInt (blanks ++ (printInt n ++ rest)) = some (n, rest) := by
  have hskip : ∀ (c : UInt8) (cs : Bytes), 32 < c.toNat → (blanks ++ c :: cs).dropWhile isSpace = c :: cs :=
    fun c cs hc => by rw [List.dropWhile_append_of_pos hb, List.dropWhile_cons_of_neg (by simp [isSpace_eq_false hc])]
  unfold scanInt
  cases n with
  | negSucc n =>
    rw [printInt, List.cons_append, hskip _ _ (by decide)]
    simp only [if_true, scanNat_printNat (n + 1) h, Option.map_some]
    rfl
  | ofNat n =>
    obtain ⟨c, cs, hc, hdig⟩ := exists_printNat_cons n
    obtain ⟨h48, h57⟩ := isDigit_iff.1 hdig
    have h45 : c ≠ 45 := fun e => by rw [e] at h48; exact absurd h48 (by decide)
    have h43 : c ≠ 43 := fun e => by rw [e] at h48; exact absurd h48 (by decide)
    have hs := scanNat_printNat n h
    rw [hc, List.cons_append] at hs
    rw [printInt, hc, List.cons_append, hskip _ _ (by omega)]
    simp only [if_neg h45, if_neg h43, hs, Option.map_some]
    rfl

theorem mem_printInt {n : Int} {c : UInt8} (h : c ∈ printInt n) : c = 45 ∨ isDigit c = true := by
  cases n with
  | ofNat n => exact .inr (isDigit_of_mem_printNat h)
  | negSucc n =>
    rcases List.mem_cons.1 h with h | h
    · exact .inl h
    · exact .inr (isDigit_of_mem_printNat h)

theorem printInt_ne_nil (n : Int) : printInt n ≠ [] := by
  cases n with
  | ofNat n => exact printNat_ne_nil n
  | negSucc n => exact List.cons_ne_nil _ _

/-! ## Words -/

/-- `%s` read: blanks skipped, then as many other bytes as there are. -/
def scanWord (s : Bytes) : Option (Bytes × Bytes) :=
  let s := s.dropWhile isSpace
  if s.takeWhile (fun c => !isSpace c) = [] then none
  else some (s.takeWhile (fun c => !isSpace c), s.dropWhile (fun c => !isSpace c))

/-- **A word is read back**, blanks before it skipped and a blank after it. -/
theorem scanWord_word {w blanks rest : Bytes} {c : UInt8} (hb : ∀ c ∈ blanks, isSpace c = true) (hne : w ≠ [])
    (hw : ∀ c ∈ w, isSpace c = false) (hc : isSpace c = true) :
    scanWord (blanks ++ (w ++ c :: rest)) = some (w, c :: rest) := by
  have hword : ∀ c ∈ w, (!isSpace c) = true := fun c hc => by rw [hw c hc]; rfl
  have hskip : (blanks ++ (w ++ c :: rest)).dropWhile isSpace = w ++ c :: rest := by
    rw [List.dropWhile_append_of_pos hb]
    cases w with
    | nil => exact absurd rfl hne
    | cons d w => rw [List.cons_append, List.dropWhile_cons_of_neg (by simp [hw d List.mem_cons_self])]
  have htake : (w ++ c :: rest).takeWhile (fun c => !isSpace c) = w := by
    rw [List.takeWhile_append_of_pos hword, List.takeWhile_cons_of_neg (by simp [hc]), List.append_nil]
  have hdrop : (w ++ c :: rest).dropWhile (fun c => !isSpace c) = c :: rest := by
    rw [List.dropWhile_append_of_pos hword, List.dropWhile_cons_of_neg (by simp [hc])]
  unfold scanWord
  simp only [hskip, htake, hdrop, if_neg hne]

end Flp
