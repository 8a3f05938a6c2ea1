import FlpPrototype.Lib.CInt
import FlpPrototype.Lib.Scan
/-!
# DmaBenchCheck — the error check of a DMA page in the benchmark

The page's header tells how many 256-bit words it has.  `checkErrorsCru` compares their size in bytes with the page's,
but computes the size modulo `2 ^ 32`, and then reads word after word up to the first wrong one.  So a header that tells
too many words is followed past the page as long as the data is right (`readsInside_iff`).
-/
namespace Flp
namespace DmaBench

def MAX_RECORDED_ERRORS : Int := 1000

/-- The header words, which are skipped. -/
def HEADER_WORDS : Nat := 2

/-- Each word holds as many identical integers. -/
def INTS_PER_WORD : Nat := 8

/-- A line of the error stream. -/
inductive ErrorLine where
  /-- `event:%d cnt:%d size out of range` -/
  | size (event cnt : Int)
  /-- `event:%d i:%d cnt:%d exp:0x%x val:0x%x` -/
  | value (event : Int) (i : Nat) (cnt : Int) (exp val : Nat)
  deriving DecidableEq, Repr

structure ErrorChecker where
  mDataGeneratorCounter : Int
  mErrorCount : Int
  mErrorStream : List ErrorLine
  deriving DecidableEq, Repr

def ErrorChecker.report (s : ErrorChecker) (line : ErrorLine) : ErrorChecker :=
  let s := { s with mErrorCount := s.mErrorCount + 1 }
  if s.mErrorCount < MAX_RECORDED_ERRORS then { s with mErrorStream := s.mErrorStream ++ [line] } else s

/-- What a check returns, the 32-bit words of the page it reads, by their index, and the checker behind it. -/
structure Checked where
  hasError : Bool
  reads : List Nat
  checker : ErrorChecker
  deriving DecidableEq, Repr

/-- The content of the memory from the page's address on, in 32-bit words. -/
abbrev PageWords := Nat → UInt32

/-- `(i + HEADER_WORDS) * INTS_PER_WORD + j`, a `uint32_t`. -/
def wordIndex (i j : Nat) : Nat := ((i + HEADER_WORDS) * INTS_PER_WORD + j) % 2 ^ 32

def expectedValue (counter : Int) (i : Nat) : Nat := toUnsigned 32 (counter + i)

/-- The integer is the expected one. -/
def agrees (page : PageWords) (counter : Int) (i j : Nat) : Bool :=
  (page (wordIndex i j)).toNat = expectedValue counter i

/-- The two loops: the words read, and where a wrong one was found. -/
def checkWords (page : PageWords) (counter : Int) : Nat → Nat → List Nat × Option (Nat × Nat)
  | 0, _     => ([], none)
  | n + 1, i =>
    match scan (agrees page counter i) INTS_PER_WORD 0 with
    | (js, some j) => (js.map (wordIndex i), some (i, j))
    | (js, none)   => (js.map (wordIndex i) ++ (checkWords page counter n (i + 1)).1,
        (checkWords page counter n (i + 1)).2)

/-- The size of the words, in bytes, a `uint32_t`. -/
def wordsBytes (words : Nat) : Nat := words * 256 % 2 ^ 32 / 8

/-- `checkErrorsCru`.  The outer loop runs as long as `i + HEADER_WORDS < words`. -/
def checkErrorsCru (page : PageWords) (pageSize : Nat) (eventNumber : Int) (s : ErrorChecker) : Checked :=
  let counter := s.mDataGeneratorCounter
  let words := (page 4).toNat
  if words < 2 ∨ wordsBytes words > pageSize then ⟨false, [4], s.report (.size eventNumber counter)⟩
  else
    let s := { s with mDataGeneratorCounter := s.mDataGeneratorCounter + (words - 2 : Nat) }
    match checkWords page counter (words - HEADER_WORDS) 0 with
    | (reads, none)        => ⟨false, 4 :: reads, s⟩
    | (reads, some (i, j)) => ⟨true, 4 :: reads,
        s.report (.value eventNumber i counter (expectedValue counter i) (page (wordIndex i j)).toNat)⟩

/-- All words read are inside the page. -/
def Checked.ReadsInside (c : Checked) (pageSize : Nat) : Prop := ∀ k ∈ c.reads, 4 * k + 4 ≤ pageSize

/-- The check ends before the page does: the header is refused, its words are in the page, the page has all words an
index can name, or one of its words is wrong. -/
def EndsInPage (page : PageWords) (pageSize : Nat) (counter : Int) : Prop :=
  let words := (page 4).toNat
  words < 2 ∨ wordsBytes words > pageSize ∨ 32 * words ≤ pageSize ∨ 2 ^ 34 ≤ pageSize ∨
    ∃ i j, j < 8 ∧ 4 * ((i + 2) * 8 + j) + 4 ≤ pageSize ∧ agrees page counter i j = false

/-! ## What is read -/

variable {page : PageWords} {counter : Int} {pageSize : Nat}

/-- The integers of one word that are read. -/
theorem mem_word {i k : Nat} : k ∈ ((scan (agrees page counter i) INTS_PER_WORD 0).1).map (wordIndex i) ↔
    ∃ j' < 8, k = wordIndex i j' ∧ ∀ j < j', agrees page counter i j = true := by
  simp only [List.mem_map, mem_scan, INTS_PER_WORD]
  constructor
  · rintro ⟨j', ⟨-, hlt, hbefore⟩, rfl⟩
    exact ⟨j', by omega, rfl, fun j hj => hbefore j (Nat.zero_le j) hj⟩
  · rintro ⟨j', hlt, rfl, hbefore⟩
    exact ⟨j', ⟨Nat.zero_le j', by omega, fun j _ hj => hbefore j hj⟩, rfl⟩

/-- **An integer is read exactly if all before it are right.** -/
theorem mem_checkWords {k : Nat} : ∀ {n i : Nat}, k ∈ (checkWords page counter n i).1 ↔
    ∃ i' j', i ≤ i' ∧ i' < i + n ∧ j' < 8 ∧ k = wordIndex i' j' ∧ (∀ j < j', agrees page counter i' j = true) ∧
      ∀ i'', i ≤ i'' → i'' < i' → ∀ j < 8, agrees page counter i'' j = true
  | 0, i => by
    simp only [checkWords, List.not_mem_nil, false_iff]
    rintro ⟨i', j', hle, hlt, -⟩
    omega
  | n + 1, i => by
    have hword := @mem_word page counter i k
    have hall := @scan_eq_none (agrees page counter i) INTS_PER_WORD 0
    have hfirst : k ∈ ((scan (agrees page counter i) INTS_PER_WORD 0).1).map (wordIndex i) →
        ∃ i' j', i ≤ i' ∧ i' < i + (n + 1) ∧ j' < 8 ∧ k = wordIndex i' j' ∧
          (∀ j < j', agrees page counter i' j = true) ∧
          ∀ i'', i ≤ i'' → i'' < i' → ∀ j < 8, agrees page counter i'' j = true := by
      intro hk
      obtain ⟨j', hlt, hkj, hbefore⟩ := hword.1 hk
      exact ⟨i, j', Nat.le_refl i, by omega, hlt, hkj, hbefore, fun i'' hi hi' => absurd hi (by omega)⟩
    rw [checkWords]
    cases hscan : scan (agrees page counter i) INTS_PER_WORD 0 with
    | mk js found =>
      rw [hscan] at hword hall hfirst
      cases found with
      | some j =>
        refine ⟨hfirst, ?_⟩
        rintro ⟨i', j', hle, hlt, hj', hk, hbefore, hrows⟩
        rcases Nat.eq_or_lt_of_le hle with rfl | hle
        · exact hword.2 ⟨j', hj', hk, hbefore⟩
        · exact absurd (hall.2 fun j _ hj => hrows i (Nat.le_refl i) hle j (by simpa [INTS_PER_WORD] using hj)) nofun
      | none =>
        have hrow : ∀ j < 8, agrees page counter i j = true := fun j hj =>
          hall.1 rfl j (Nat.zero_le j) (by simpa [INTS_PER_WORD] using hj)
        rw [List.mem_append, mem_checkWords]
        constructor
        · rintro (hk | ⟨i', j', hle, hlt, hj', hk, hbefore, hrows⟩)
          · exact hfirst hk
          · refine ⟨i', j', by omega, by omega, hj', hk, hbefore, fun i'' hi hi' => ?_⟩
            rcases Nat.eq_or_lt_of_le hi with rfl | hi
            · exact hrow
            · exact hrows i'' hi hi'
        · rintro ⟨i', j', hle, hlt, hj', hk, hbefore, hrows⟩
          rcases Nat.eq_or_lt_of_le hle with rfl | hle
          · exact .inl (hword.2 ⟨j', hj', hk, hbefore⟩)
          · exact .inr ⟨i', j', hle, by omega, hj', hk, hbefore, fun i'' hi => hrows i'' (by omega)⟩

theorem reads_refused {eventNumber : Int} {s : ErrorChecker}
    (h : (page 4).toNat < 2 ∨ wordsBytes (page 4).toNat > pageSize) :
    (checkErrorsCru page pageSize eventNumber s).reads = [4] := by
  rw [checkErrorsCru]
  simp only [if_pos h]

theorem reads_checked {eventNumber : Int} {s : ErrorChecker}
    (h : ¬ ((page 4).toNat < 2 ∨ wordsBytes (page 4).toNat > pageSize)) :
    (checkErrorsCru page pageSize eventNumber s).reads =
      4 :: (checkWords page s.mDataGeneratorCounter ((page 4).toNat - HEADER_WORDS) 0).1 := by
  rw [checkErrorsCru]
  simp only [if_neg h]
  cases checkWords page s.mDataGeneratorCounter ((page 4).toNat - HEADER_WORDS) 0 with
  | mk reads found => cases found <;> rfl

/-- An index inside the page is the place itself. -/
theorem wordIndex_of_lt {i j : Nat} (h : (i + 2) * 8 + j < 2 ^ 32) : wordIndex i j = (i + 2) * 8 + j :=
  Nat.mod_eq_of_lt h

/-- **The check reads inside the page exactly if it ends there.** -/
theorem readsInside_iff {eventNumber : Int} {s : ErrorChecker} (hsize : 8192 ≤ pageSize) :
    (checkErrorsCru page pageSize eventNumber s).ReadsInside pageSize ↔
      EndsInPage page pageSize s.mDataGeneratorCounter := by
  have hlt : (page 4).toNat < 2 ^ 32 := (page 4).toNat_lt
  have hheader : 4 * 4 + 4 ≤ pageSize := by omega
  unfold EndsInPage Checked.ReadsInside
  generalize hcounter : s.mDataGeneratorCounter = counter
  by_cases hrefused : (page 4).toNat < 2 ∨ wordsBytes (page 4).toNat > pageSize
  · rw [reads_refused hrefused]
    refine iff_of_true (fun k hk => ?_) (hrefused.elim .inl fun h => .inr (.inl h))
    rwa [List.mem_singleton.1 hk]
  · rw [reads_checked hrefused, List.forall_mem_cons, hcounter]
    obtain ⟨hwords, hbytes⟩ := not_or.1 hrefused
    constructor
    · rintro ⟨-, hreads⟩
      by_contra hout
      simp only [not_or, not_exists, not_and, Bool.not_eq_false] at hout
      obtain ⟨-, -, hpast, hsmall, hright⟩ := hout
      -- the first integer behind the page: all before it are right, so it is read
      have hindex : wordIndex (pageSize / 4 / 8 - 2) (pageSize / 4 % 8) = pageSize / 4 := by
        rw [wordIndex_of_lt (by omega)]
        omega
      have hread := hreads (pageSize / 4) (mem_checkWords.2 ⟨pageSize / 4 / 8 - 2, pageSize / 4 % 8, Nat.zero_le _,
        by simp only [HEADER_WORDS]; omega, Nat.mod_lt _ (by decide), hindex.symm,
        fun j hj => hright _ j (by omega) (by omega), fun i _ hi j hj => hright i j hj (by omega)⟩)
      omega
    · intro hends
      refine ⟨hheader, fun k hk => ?_⟩
      obtain ⟨i, j, -, hi, hj, rfl, hbefore, hrows⟩ := mem_checkWords.1 hk
      have hmod : wordIndex i j ≤ (i + 2) * 8 + j := Nat.mod_le _ _
      have hlt32 : wordIndex i j < 2 ^ 32 := Nat.mod_lt _ (by decide)
      simp only [HEADER_WORDS] at hi
      rcases hends with h | h | h | h | ⟨i', j', hj', hin, hwrong⟩
      · exact absurd h hwords
      · exact absurd h hbytes
      · omega
      · omega
      · -- the wrong integer is not before the one that is read
        have hle : (i + 2) * 8 + j ≤ (i' + 2) * 8 + j' := by
          by_contra hlater
          have hright : agrees page counter i' j' = true := by
            rcases Nat.lt_or_ge i' i with hlt | hge
            · exact hrows i' (Nat.zero_le _) hlt j' hj'
            · obtain rfl : i' = i := by omega
              exact hbefore j' (by omega)
          rw [hright] at hwrong
          cases hwrong
        omega

/-- A page of 8 KiB that is all right, also behind its end, with a header of 2^24 words: they are 2^29 bytes, and
`wordsBytes` is 0. -/
def endlessPage : PageWords := fun k => if k = 4 then 16777216 else UInt32.ofNat (k / 8 - 2)

theorem endlessPage_not_ends : ¬ EndsInPage endlessPage 8192 0 := by
  rintro (h | h | h | h | ⟨i, j, hj, hin, hwrong⟩)
  · exact absurd h (by decide)
  · exact absurd h (by decide)
  · exact absurd h (by decide)
  · exact absurd h (by decide)
  · have hne : (i + 2) * 8 + j ≠ 4 := by omega
    have hword : ((i + 2) * 8 + j) / 8 - 2 = i := by omega
    have hlt : i < 2 ^ 32 := by omega
    rw [agrees, wordIndex_of_lt (by omega), endlessPage, if_neg hne, hword, expectedValue, Int.zero_add,
      toUnsigned_natCast hlt, UInt32.toNat_ofNat', Nat.mod_eq_of_lt hlt] at hwrong
    simp at hwrong

end DmaBench
end Flp
