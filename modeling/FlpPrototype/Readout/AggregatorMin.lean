import FlpPrototype.Readout.AggregatorRuns
import Mathlib.Data.List.Basic
/-!
# AggregatorMin — which blocks a data set takes

The first loop of the callback searches the smallest id with 0 for "none yet", but a block may have the id 0: an id that
comes behind it replaces it.  A set is the right one exactly if no block at the head of an input has the id 0 or the
last one does (`rightSet_iff`).  The callback is watched for that: what was at the heads when it began is kept beside
the set it emits.
-/
namespace Flp
namespace Readout

/-! ## What the two loops make of the heads -/

/-- The first loop over the inputs before `i`. -/
def lookUpTo (h : Nat → Option Block) : Nat → Look
  | 0     => .start
  | i + 1 =>
    match h i with
    | some b => (lookUpTo h i).see b.id
    | none   => (lookUpTo h i).miss

/-- The block of input `j`, if it has the id. -/
def pick (h : Nat → Option Block) (m : UInt64) (j : Nat) : Option (Nat × Block) :=
  (h j).bind fun b => if b.id = m then some (j, b) else none

/-- The head blocks with the id, of the inputs before `i`. -/
def collected (h : Nat → Option Block) (m : UInt64) (i : Nat) : DataSet := (List.range i).filterMap (pick h m)

/-- The id the callback collects. -/
def minIdOf (n : Nat) (h : Nat → Option Block) : UInt64 := (lookUpTo h n).minId

/-- The head blocks of the smallest id there is. -/
def RightSet (n : Nat) (h : Nat → Option Block) (d : DataSet) : Prop :=
  ∃ m, (∃ j < n, ∃ b, h j = some b ∧ b.id = m) ∧ (∀ j < n, ∀ b, h j = some b → m ≤ b.id) ∧ d = collected h m n

/-- No block at a head has the id 0, or the last one has. -/
def ZeroLast (n : Nat) (h : Nat → Option Block) : Prop :=
  (∀ j < n, ∀ b, h j = some b → b.id ≠ 0) ∨
    ∃ j < n, ∃ b, h j = some b ∧ b.id = 0 ∧ ∀ k, j < k → k < n → h k = none

variable {n outputSize : Nat} {h now : Nat → Option Block}

theorem mem_collected {m : UInt64} {i : Nat} {p : Nat × Block} :
    p ∈ collected h m i ↔ p.1 < i ∧ h p.1 = some p.2 ∧ p.2.id = m := by
  obtain ⟨j, b⟩ := p
  simp only [collected, pick, List.mem_filterMap, List.mem_range, Option.bind_eq_some_iff,
    Option.ite_none_right_eq_some, Option.some.injEq, Prod.mk.injEq]
  constructor
  · rintro ⟨k, hk, c, hc, hid, rfl, rfl⟩
    exact ⟨hk, hc, hid⟩
  · rintro ⟨hj, hb, hid⟩
    exact ⟨j, hj, b, hb, hid, rfl, rfl⟩

theorem collected_succ {m : UInt64} {i : Nat} : collected h m (i + 1) = collected h m i ++ (pick h m i).toList := by
  rw [collected, List.range_succ, List.filterMap_append]
  cases hpick : pick h m i <;> simp [hpick, collected]

/-- **The in-band value**: the search holds 0 exactly if the last block seen has the id 0, or none was seen. -/
theorem lookUpTo_minId_eq_zero : ∀ {i : Nat}, (lookUpTo h i).minId = 0 ↔
    ∀ j < i, ∀ b, h j = some b → (∀ k, j < k → k < i → h k = none) → b.id = 0
  | 0 => by simp [lookUpTo, Look.start]
  | i + 1 => by
    cases hi : h i with
    | none =>
      rw [lookUpTo, hi]
      refine lookUpTo_minId_eq_zero.trans ⟨fun hall j hj b hb hlast => ?_, fun hall j hj b hb hlast => ?_⟩
      · have hne : j ≠ i := by
          rintro rfl
          rw [hi] at hb
          cases hb
        exact hall j (by omega) b hb fun k hjk hk => hlast k hjk (by omega)
      · refine hall j (by omega) b hb fun k hjk hk => ?_
        rcases Nat.lt_succ_iff_lt_or_eq.1 hk with hk | rfl
        · exact hlast k hjk hk
        · exact hi
    | some b =>
      have hsee : (lookUpTo h (i + 1)).minId = 0 ↔ b.id = 0 := by
        rw [lookUpTo, hi]
        simp only [Look.see]
        split
        · exact Iff.rfl
        · rename_i hnot
          rw [not_or, UInt64.not_lt] at hnot
          constructor
          · exact fun h0 => absurd h0 hnot.1
          · intro h0
            rw [h0] at hnot
            exact absurd (UInt64.le_zero_iff.1 hnot.2) hnot.1
      rw [hsee]
      constructor
      · intro h0 j hj c hc hlast
        rcases Nat.lt_succ_iff_lt_or_eq.1 hj with hj | rfl
        · have hnone := hlast i hj (Nat.lt_succ_self i)
          rw [hi] at hnone
          cases hnone
        · rw [hi] at hc
          rwa [← Option.some.inj hc]
      · exact fun hall => hall i (Nat.lt_succ_self i) b hi fun k hik hk => absurd hk (by omega)

/-- **Without the id 0** the search is right: nothing was seen, or it holds the smallest id. -/
theorem lookUpTo_least : ∀ {i : Nat}, (∀ j < i, ∀ b, h j = some b → b.id ≠ 0) →
    ((lookUpTo h i).minId = 0 → ∀ j < i, h j = none) ∧
      (∀ j < i, ∀ b, h j = some b → (lookUpTo h i).minId ≤ b.id) ∧
      ((lookUpTo h i).minId ≠ 0 → ∃ j < i, ∃ b, h j = some b ∧ b.id = (lookUpTo h i).minId)
  | 0, _ => ⟨fun _ j hj => absurd hj (Nat.not_lt_zero j), fun j hj => absurd hj (Nat.not_lt_zero j),
      fun h0 => absurd rfl h0⟩
  | i + 1, hne => by
    obtain ⟨hnone, hleast, hfound⟩ := @lookUpTo_least i fun j hj => hne j (by omega)
    cases hi : h i with
    | none =>
      rw [lookUpTo, hi]
      refine ⟨fun h0 j hj => ?_, fun j hj b hb => ?_, fun h0 => ?_⟩
      · rcases Nat.lt_succ_iff_lt_or_eq.1 hj with hj | rfl
        · exact hnone h0 j hj
        · exact hi
      · rcases Nat.lt_succ_iff_lt_or_eq.1 hj with hj | rfl
        · exact hleast j hj b hb
        · rw [hi] at hb
          cases hb
      · obtain ⟨j, hj, b, hb, hid⟩ := hfound h0
        exact ⟨j, by omega, b, hb, hid⟩
    | some b =>
      have hb0 := hne i (Nat.lt_succ_self i) b hi
      rw [lookUpTo, hi]
      simp only [Look.see]
      split
      · rename_i hnew
        refine ⟨fun h0 => absurd h0 hb0, fun j hj c hc => ?_, fun _ => ⟨i, Nat.lt_succ_self i, b, hi, rfl⟩⟩
        rcases Nat.lt_succ_iff_lt_or_eq.1 hj with hj | rfl
        · rcases hnew with h0 | hlt
          · rw [hnone h0 j hj] at hc
            cases hc
          · exact UInt64.le_trans (UInt64.le_of_lt hlt) (hleast j hj c hc)
        · rw [hi] at hc
          rw [Option.some.inj hc]
          exact UInt64.le_refl _
      · rename_i hnot
        rw [not_or, UInt64.not_lt] at hnot
        refine ⟨fun h0 => absurd h0 hnot.1, fun j hj c hc => ?_, fun h0 => ?_⟩
        · rcases Nat.lt_succ_iff_lt_or_eq.1 hj with hj | rfl
          · exact hleast j hj c hc
          · rw [hi] at hc
            rw [← Option.some.inj hc]
            exact hnot.2
        · obtain ⟨j, hj, c, hc, hid⟩ := hfound h0
          exact ⟨j, by omega, c, hc, hid⟩

theorem zero_le_id (m : UInt64) : 0 ≤ m := UInt64.le_iff_toNat_le.2 (Nat.zero_le _)

/-- Where the condition holds, the id collected is the smallest one. -/
theorem minIdOf_least (hzero : ZeroLast n h) (hsome : ∃ j < n, h j ≠ none) :
    (∃ j < n, ∃ b, h j = some b ∧ b.id = minIdOf n h) ∧ ∀ j < n, ∀ b, h j = some b → minIdOf n h ≤ b.id := by
  rcases hzero with hne | ⟨j, hj, b, hb, h0, hlast⟩
  · obtain ⟨hnone, hleast, hfound⟩ := lookUpTo_least hne
    refine ⟨hfound fun h0 => ?_, hleast⟩
    obtain ⟨j, hj, hjne⟩ := hsome
    exact hjne (hnone h0 j hj)
  · have hmin : minIdOf n h = 0 := by
      refine lookUpTo_minId_eq_zero.2 fun k hk c hc hlast' => ?_
      rcases Nat.lt_trichotomy j k with hjk | rfl | hkj
      · rw [hlast k hjk hk] at hc
        cases hc
      · rw [hb] at hc
        rwa [← Option.some.inj hc]
      · rw [hlast' j hkj hj] at hb
        cases hb
    rw [hmin]
    exact ⟨⟨j, hj, b, hb, h0⟩, fun k _ c _ => zero_le_id c.id⟩

theorem exists_last (hsome : ∃ j < n, h j ≠ none) :
    ∃ j < n, ∃ b, h j = some b ∧ ∀ k, j < k → k < n → h k = none := by
  induction n with
  | zero =>
    obtain ⟨j, hj, -⟩ := hsome
    exact absurd hj (Nat.not_lt_zero j)
  | succ n ih =>
    obtain ⟨j, hj, hne⟩ := hsome
    cases hn : h n with
    | some b => exact ⟨n, Nat.lt_succ_self n, b, hn, fun k hnk hk => absurd hk (by omega)⟩
    | none =>
      have hjn : j ≠ n := fun he => hne (he ▸ hn)
      obtain ⟨i, hi, b, hb, hlast⟩ := ih ⟨j, by omega, hne⟩
      refine ⟨i, by omega, b, hb, fun k hik hk => ?_⟩
      by_cases hkn : k = n
      · rw [hkn, hn]
      · exact hlast k hik (by omega)

/-- **What the callback collects is the right set exactly if the last of the zeros is the last of all.** -/
theorem rightSet_iff (hsome : ∃ j < n, h j ≠ none) :
    RightSet n h (collected h (minIdOf n h) n) ↔ ZeroLast n h := by
  constructor
  · rintro ⟨m, ⟨j, hj, b, hb, hid⟩, hleast, hset⟩
    have hsame : m = minIdOf n h := by
      have hmem : (j, b) ∈ collected h m n := mem_collected.2 ⟨hj, hb, hid⟩
      rw [← hset] at hmem
      exact hid.symm.trans (mem_collected.1 hmem).2.2
    by_cases h0 : m = 0
    · obtain ⟨i, hi, c, hc, hlast⟩ := exists_last hsome
      have hc0 := lookUpTo_minId_eq_zero.1 (hsame.symm.trans h0) i hi c hc hlast
      exact .inr ⟨i, hi, c, hc, hc0, hlast⟩
    · refine .inl fun k hk c hc hc0 => h0 ?_
      have hle := hleast k hk c hc
      rw [hc0] at hle
      exact UInt64.le_zero_iff.1 hle
  · intro hzero
    obtain ⟨hfound, hleast⟩ := minIdOf_least hzero hsome
    exact ⟨minIdOf n h, hfound, hleast, rfl⟩

/-! ## Watching the callback -/

/-- A set that was emitted, with what was at the heads when the callback began, and whether nothing was pushed since
then to an input that was empty. -/
structure Emission where
  heads : Nat → Option Block
  quiet : Bool
  set : DataSet

/-- The aggregator, the heads at the beginning of the call, whether it is quiet, and what was emitted. -/
structure Watched where
  agg : Aggregator
  heads : Nat → Option Block
  quiet : Bool
  log : List Emission

def Watched.start (sizes : Nat → Nat) : Watched := ⟨.start sizes, fun _ => none, true, []⟩

/-- What is recorded of a step. -/
def Watched.record (n outputSize : Nat) (w : Watched) (a : Action) (s' : Aggregator) : Watched :=
  match a with
  | .threadCallback => ⟨s', w.agg.heads, true, w.log⟩
  | .pushInput i _  => ⟨s', w.heads, w.quiet && (decide (n ≤ i) || (w.heads i).isSome), w.log⟩
  | .popOutput      => ⟨s', w.heads, w.quiet, w.log⟩
  | .step _ _       =>
    match w.agg.pc with
    | .push d =>
        ⟨s', w.heads, w.quiet, if w.agg.output.length < outputSize then w.log ++ [⟨w.heads, w.quiet, d⟩] else w.log⟩
    | _       => ⟨s', w.heads, w.quiet, w.log⟩

def stepWatched (n outputSize : Nat) (w : Watched) (a : Action) : Option Watched :=
  (step n outputSize w.agg a).map (w.record n outputSize a)

def ProperWatched (w : Watched) (a : Action) : Prop := Proper w.agg a

/-- The heads of the inputs that were not taken from are as they were. -/
structure Untouched (n : Nat) (h now : Nat → Option Block) (i : Nat) : Prop where
  same : ∀ j < n, (j < i → ∀ b, h j = some b → b.id ≠ minIdOf n h) → now j = h j
  some : ∃ j < n, h j ≠ none

/-- What the callback has made so far of the heads at its beginning. -/
def Pc.Saw (n : Nat) (h now : Nat → Option Block) : Pc → Prop
  | .idle                 => True
  | .isFull               => ∀ j < n, now j = h j
  | .look i a             => (∀ j < n, now j = h j) ∧ (n < 2 ^ 32 → i ≤ n ∧ a = lookUpTo h i)
  | .lookFront i a        => (∀ j < n, now j = h j) ∧ (n < 2 ^ 32 → a = lookUpTo h i)
  | .decide a             => (∀ j < n, now j = h j) ∧ a = lookUpTo h n
  | .collect i m d        => Untouched n h now i ∧ m = minIdOf n h ∧ d = collected h m i
  | .collectFront i m d   => Untouched n h now i ∧ m = minIdOf n h ∧ d = collected h m i
  | .collectPop i m d b   => Untouched n h now i ∧ m = minIdOf n h ∧ d = collected h m i ∧ h i = some b
  | .push d               => Untouched n h now n ∧ d = collected h (minIdOf n h) n

theorem allEmpty_lookUpTo : ∀ {i : Nat}, (lookUpTo h i).allEmpty = true ↔ ∀ j < i, h j = none
  | 0 => by simp [lookUpTo, Look.start]
  | i + 1 => by
    have ih := @allEmpty_lookUpTo i
    cases hi : h i with
    | none =>
      rw [lookUpTo, hi]
      refine ih.trans ⟨fun hall j hj => ?_, fun hall j hj => hall j (by omega)⟩
      rcases Nat.lt_succ_iff_lt_or_eq.1 hj with hj | rfl
      · exact hall j hj
      · exact hi
    | some b =>
      rw [lookUpTo, hi]
      refine iff_of_false Bool.false_ne_true fun hall => ?_
      have hnone := hall i (Nat.lt_succ_self i)
      rw [hi] at hnone
      cases hnone

theorem Untouched.next {i : Nat} (hu : Untouched n h now i) : Untouched n h now (i + 1) :=
  ⟨fun j hj hne => hu.same j hj fun hji => hne (by omega), hu.some⟩

theorem Pc.Saw.mono {p : Pc} {now' : Nat → Option Block} (hs : p.Saw n h now)
    (hnow : ∀ j < n, now j = h j → now' j = h j) : p.Saw n h now' := by
  have hall : (∀ j < n, now j = h j) → ∀ j < n, now' j = h j := fun hsame j hj => hnow j hj (hsame j hj)
  have hun : ∀ {i : Nat}, Untouched n h now i → Untouched n h now' i := fun hu =>
    ⟨fun j hj hne => hnow j hj (hu.same j hj hne), hu.some⟩
  cases p with
  | idle => trivial
  | isFull => exact hall hs
  | look i a | lookFront i a | decide a => exact ⟨hall hs.1, hs.2⟩
  | collect i m d | collectFront i m d | collectPop i m d b | push d => exact ⟨hun hs.1, hs.2⟩

theorem collected_miss {m : UInt64} {i : Nat} (hi : ∀ b, h i = some b → b.id ≠ m) :
    collected h m (i + 1) = collected h m i := by
  have hpick : pick h m i = none := by
    rw [pick]
    cases hh : h i with
    | none => rfl
    | some b => exact if_neg (hi b hh)
  rw [collected_succ, hpick, Option.toList_none, List.append_nil]

theorem collected_hit {m : UInt64} {i : Nat} {b : Block} (hb : h i = some b) (hid : b.id = m) :
    collected h m (i + 1) = collected h m i ++ [(i, b)] := by
  rw [collected_succ, pick, hb, Option.bind_some, if_pos hid, Option.toList_some]

section

variable {s s' : Aggregator} {isTimeout allocated : Bool} {i : Nat} {a : Look} {m : UInt64} {d : DataSet} {b : Block}

theorem saw_isFull (hpc : s.pc = .isFull) (hsaw : s.pc.Saw n h s.heads)
    (hs : stepCallback n outputSize s isTimeout allocated = some s') : s'.pc.Saw n h s'.heads := by
  simp only [stepCallback, hpc] at hs hsaw
  split at hs
  · cases hs
    trivial
  · cases hs
    exact ⟨hsaw, fun _ => ⟨Nat.zero_le n, rfl⟩⟩

theorem saw_look (hi : Inv n outputSize s) (hpc : s.pc = .look i a) (hsaw : s.pc.Saw n h s.heads)
    (hs : stepCallback n outputSize s isTimeout allocated = some s') : s'.pc.Saw n h s'.heads := by
  have hk := hi.knows
  rw [hpc] at hk
  simp only [stepCallback, hpc] at hs hsaw
  obtain ⟨hsame, hlook⟩ := hsaw
  split at hs
  · rename_i hin
    split at hs
    · rename_i hq
      cases hs
      refine ⟨hsame, fun hsmall => ?_⟩
      rw [succIndex_of_lt (by omega), (hlook hsmall).2, lookUpTo, ← hsame i hin, heads_of_nil hq]
      exact ⟨hin, rfl⟩
    · cases hs
      exact ⟨hsame, fun hsmall => (hlook hsmall).2⟩
  · rename_i hin
    cases hs
    have hsmall : n < 2 ^ 32 := Nat.lt_of_le_of_lt (Nat.le_of_not_lt hin) hk.2.1
    obtain ⟨hle, ha⟩ := hlook hsmall
    obtain rfl : i = n := by omega
    exact ⟨hsame, ha⟩

theorem saw_lookFront (hi : Inv n outputSize s) (hpc : s.pc = .lookFront i a) (hsaw : s.pc.Saw n h s.heads)
    (hs : stepCallback n outputSize s isTimeout allocated = some s') : s'.pc.Saw n h s'.heads := by
  have hk := hi.knows
  rw [hpc] at hk
  simp only [stepCallback, hpc] at hs hsaw
  obtain ⟨hsame, hlook⟩ := hsaw
  have hin := hk.2.1
  obtain ⟨b, hb, rfl⟩ := Option.map_eq_some_iff.1 hs
  refine ⟨hsame, fun hsmall => ?_⟩
  have hbi : h i = some b := (hsame i hin).symm.trans hb
  rw [succIndex_of_lt (by omega), hlook hsmall, lookUpTo, hbi]
  exact ⟨hin, rfl⟩

/-- Behind the first loop some head is there, if a set is begun. -/
theorem saw_decide (hpc : s.pc = .decide a) (hsaw : s.pc.Saw n h s.heads)
    (hs : stepCallback n outputSize s isTimeout allocated = some s') : s'.pc.Saw n h s'.heads := by
  simp only [stepCallback, hpc] at hs hsaw
  obtain ⟨hsame, rfl⟩ := hsaw
  split at hs
  · cases hs
    trivial
  · rename_i hall
    split at hs
    · cases hs
      trivial
    · split at hs
      · cases hs
        refine ⟨⟨fun j hj _ => hsame j hj, ?_⟩, rfl, rfl⟩
        by_contra hnone
        refine hall (allEmpty_lookUpTo.2 fun j hj => ?_)
        by_contra hne
        exact hnone ⟨j, hj, hne⟩
      · cases hs
        trivial

theorem saw_collect (hi : Inv n outputSize s) (hpc : s.pc = .collect i m d) (hsaw : s.pc.Saw n h s.heads)
    (hs : stepCallback n outputSize s isTimeout allocated = some s') : s'.pc.Saw n h s'.heads := by
  have hk := hi.knows
  rw [hpc] at hk
  simp only [stepCallback, hpc] at hs hsaw
  obtain ⟨-, hsmall, hle, -⟩ := hk
  obtain ⟨hun, rfl, rfl⟩ := hsaw
  split at hs
  · rename_i hin
    split at hs
    · rename_i hq
      cases hs
      have hnone : h i = none := (hun.same i hin fun hii => absurd hii (Nat.lt_irrefl i)).symm.trans (heads_of_nil hq)
      rw [succIndex_of_lt (by omega)]
      refine ⟨hun.next, rfl, (collected_miss fun b hb => ?_).symm⟩
      rw [hnone] at hb
      cases hb
    · cases hs
      exact ⟨hun, rfl, rfl⟩
  · rename_i hin
    cases hs
    obtain rfl : i = n := by omega
    exact ⟨hun, rfl⟩

theorem saw_collectFront (hi : Inv n outputSize s) (hpc : s.pc = .collectFront i m d) (hsaw : s.pc.Saw n h s.heads)
    (hs : stepCallback n outputSize s isTimeout allocated = some s') : s'.pc.Saw n h s'.heads := by
  have hk := hi.knows
  rw [hpc] at hk
  simp only [stepCallback, hpc] at hs hsaw
  obtain ⟨-, hsmall, hin, -⟩ := hk
  obtain ⟨hun, rfl, rfl⟩ := hsaw
  obtain ⟨b, hb, rfl⟩ := Option.map_eq_some_iff.1 hs
  have hbi : h i = some b := (hun.same i hin fun hii => absurd hii (Nat.lt_irrefl i)).symm.trans hb
  split
  · exact ⟨hun, rfl, rfl, hbi⟩
  · rename_i hid
    rw [succIndex_of_lt (by omega)]
    refine ⟨hun.next, rfl, (collected_miss fun c hc => ?_).symm⟩
    rwa [← Option.some.inj (hbi.symm.trans hc)]

/-- A block of the smallest id is taken: only its own input is changed. -/
theorem saw_collectPop (hi : Inv n outputSize s) (hpc : s.pc = .collectPop i m d b) (hsaw : s.pc.Saw n h s.heads)
    (hs : stepCallback n outputSize s isTimeout allocated = some s') : s'.pc.Saw n h s'.heads := by
  have hk := hi.knows
  rw [hpc] at hk
  simp only [stepCallback, hpc] at hs hsaw
  obtain ⟨hun, rfl, rfl, hbi⟩ := hsaw
  obtain ⟨-, hsmall, hin, -, hid, -⟩ := hk
  cases hs
  rw [succIndex_of_lt (by omega)]
  refine ⟨⟨fun j hj hne => ?_, hun.some⟩, rfl, (collected_hit hbi hid).symm⟩
  have hji : j ≠ i := by
    rintro rfl
    exact hne (Nat.lt_succ_self j) b hbi hid
  rw [← hun.same j hj fun hlt => hne (by omega)]
  simp [Aggregator.heads, hji]

/-- **A step of the callback** makes of the heads at its beginning what the loops do. -/
theorem saw_stepCallback (hi : Inv n outputSize s) (hsaw : s.pc.Saw n h s.heads)
    (hs : stepCallback n outputSize s isTimeout allocated = some s') : s'.pc.Saw n h s'.heads := by
  cases hpc : s.pc with
  | idle => simp [stepCallback, hpc] at hs
  | isFull => exact saw_isFull hpc hsaw hs
  | look i a => exact saw_look hi hpc hsaw hs
  | lookFront i a => exact saw_lookFront hi hpc hsaw hs
  | decide a => exact saw_decide hpc hsaw hs
  | collect i m d => exact saw_collect hi hpc hsaw hs
  | collectFront i m d => exact saw_collectFront hi hpc hsaw hs
  | collectPop i m d b => exact saw_collectPop hi hpc hsaw hs
  | push d =>
    simp only [stepCallback, hpc] at hs
    split at hs <;> cases hs <;> trivial

end

/-! ## What is recorded -/

variable {w w' : Watched} {a : Action}

@[simp] theorem Watched.record_agg {s' : Aggregator} : (w.record n outputSize a s').agg = s' := by
  cases a with
  | step isTimeout allocated => cases h : w.agg.pc <;> simp only [record, h]
  | _ => rfl

@[simp] theorem Watched.record_step_heads {s' : Aggregator} {isTimeout allocated : Bool} :
    (w.record n outputSize (.step isTimeout allocated) s').heads = w.heads := by
  cases h : w.agg.pc <;> simp only [record, h]

@[simp] theorem Watched.record_step_quiet {s' : Aggregator} {isTimeout allocated : Bool} :
    (w.record n outputSize (.step isTimeout allocated) s').quiet = w.quiet := by
  cases h : w.agg.pc <;> simp only [record, h]

/-- What the callback collects of what it saw, and what it emitted of it. -/
structure Watching (n outputSize : Nat) (w : Watched) : Prop where
  inv : Inv n outputSize w.agg
  full : (∀ j < n, w.heads j ≠ none) → w.quiet = true
  saw : w.quiet = true → w.agg.pc.Saw n w.heads w.agg.heads
  emitted : w.log.map Emission.set = w.agg.emitted
  fullEach : ∀ e ∈ w.log, (∀ j < n, e.heads j ≠ none) → e.quiet = true
  setEach : ∀ e ∈ w.log, e.quiet = true →
    (∃ j < n, e.heads j ≠ none) ∧ e.set = collected e.heads (minIdOf n e.heads) n

theorem watching_start (n outputSize : Nat) (sizes : Nat → Nat) : Watching n outputSize (.start sizes) where
  inv := inv_start n outputSize sizes
  full _ := rfl
  saw _ := trivial
  emitted := rfl
  fullEach _ he := absurd he List.not_mem_nil
  setEach _ he := absurd he List.not_mem_nil

/-- Only the push to the output emits. -/
theorem stepCallback_keeps {s s' : Aggregator} {isTimeout allocated : Bool}
    (hs : stepCallback n outputSize s isTimeout allocated = some s') (hpc : ∀ d, s.pc ≠ .push d) :
    s'.emitted = s.emitted ∧ ∀ i, (s'.inputs i).pushed = (s.inputs i).pushed := by
  unfold stepCallback at hs
  cases h : s.pc with
  | idle => simp [h] at hs
  | push d => exact absurd h (hpc d)
  | isFull =>
    simp only [h] at hs
    split at hs <;> (cases hs; exact ⟨rfl, fun _ => rfl⟩)
  | look i a | collect i m d =>
    simp only [h] at hs
    split at hs
    · split at hs <;> (cases hs; exact ⟨rfl, fun _ => rfl⟩)
    · cases hs
      exact ⟨rfl, fun _ => rfl⟩
  | decide a =>
    simp only [h] at hs
    split at hs
    · cases hs
      exact ⟨rfl, fun _ => rfl⟩
    · split at hs
      · cases hs
        exact ⟨rfl, fun _ => rfl⟩
      · split at hs <;> (cases hs; exact ⟨rfl, fun _ => rfl⟩)
  | lookFront i a =>
    simp only [h] at hs
    obtain ⟨b, -, rfl⟩ := Option.map_eq_some_iff.1 hs
    exact ⟨rfl, fun _ => rfl⟩
  | collectFront i m d =>
    simp only [h] at hs
    obtain ⟨b, -, rfl⟩ := Option.map_eq_some_iff.1 hs
    split <;> exact ⟨rfl, fun _ => rfl⟩
  | collectPop i m d b =>
    simp only [h] at hs
    cases hs
    refine ⟨rfl, fun j => ?_⟩
    by_cases hji : j = i
    · subst hji
      simp only [Function.update_self, Input.pop]
      split <;> rfl
    · simp [hji]

/-- **What a step records**: it emits nothing and pushes a block at most to each input, or it emits what is
collected. -/
theorem stepWatched_cases (hi : Inv n outputSize w.agg) (hs : stepWatched n outputSize w a = some w') :
    (w'.log = w.log ∧ w'.agg.emitted = w.agg.emitted ∧
      ∀ i, (w'.agg.inputs i).pushed = (w.agg.inputs i).pushed ∨
        ∃ b, (w'.agg.inputs i).pushed = (w.agg.inputs i).pushed ++ [b]) ∨
    ∃ d, w.agg.pc = .push d ∧ w'.log = w.log ++ [⟨w.heads, w.quiet, d⟩] ∧ w'.agg.emitted = w.agg.emitted ++ [d] ∧
      w'.agg.inputs = w.agg.inputs := by
  obtain ⟨s', hs', rfl⟩ := Option.map_eq_some_iff.1 hs
  cases a with
  | threadCallback =>
    cases hs'
    exact .inl ⟨rfl, rfl, fun _ => .inl rfl⟩
  | pushInput k b =>
    cases hs'
    refine .inl ⟨rfl, rfl, fun i => ?_⟩
    by_cases hik : i = k
    · subst hik
      simp only [Watched.record, Function.update_self, Input.push]
      split
      · exact .inr ⟨b, rfl⟩
      · exact .inl rfl
    · exact .inl (by simp [Watched.record, hik])
  | popOutput =>
    refine .inl ⟨rfl, ?_, fun i => .inl ?_⟩ <;>
    · rw [step] at hs'
      split at hs' <;> (cases hs'; rfl)
  | step isTimeout allocated =>
    by_cases hpc : ∃ d, w.agg.pc = .push d
    · obtain ⟨d, hd⟩ := hpc
      have hlen := hi.knows
      rw [hd] at hlen
      rw [step, stepCallback, hd] at hs'
      simp only [if_pos hlen.1] at hs'
      cases hs'
      exact .inr ⟨d, hd, by simp only [Watched.record, hd, if_pos hlen.1], by rw [Watched.record_agg],
        by rw [Watched.record_agg]⟩
    · rw [not_exists] at hpc
      obtain ⟨hem, hpushed⟩ := stepCallback_keeps hs' hpc
      refine .inl ⟨?_, ?_, fun i => .inl ?_⟩
      · cases h : w.agg.pc with
        | push d => exact absurd h (hpc d)
        | _ => simp only [Watched.record, h]
      · rw [Watched.record_agg, hem]
      · rw [Watched.record_agg, hpushed]

/-- What was seen is kept by every step: a push to an input that was empty ends the quiet. -/
theorem saw_step (hw : Watching n outputSize w) (hs : stepWatched n outputSize w a = some w') :
    ((∀ j < n, w'.heads j ≠ none) → w'.quiet = true) ∧
      (w'.quiet = true → w'.agg.pc.Saw n w'.heads w'.agg.heads) := by
  obtain ⟨s', hs', rfl⟩ := Option.map_eq_some_iff.1 hs
  cases a with
  | threadCallback =>
    cases hs'
    exact ⟨fun _ => rfl, fun _ _ _ => rfl⟩
  | pushInput k b =>
    cases hs'
    constructor
    · intro hfull
      simp only [Watched.record, hw.full hfull, Bool.true_and, Bool.or_eq_true, decide_eq_true_eq]
      by_cases hk : k < n
      · exact .inr (Option.isSome_iff_ne_none.2 (hfull k hk))
      · exact .inl (Nat.le_of_not_lt hk)
    · intro hquiet
      simp only [Watched.record, Bool.and_eq_true, Bool.or_eq_true, decide_eq_true_eq] at hquiet
      obtain ⟨hquiet, hk⟩ := hquiet
      refine (hw.saw hquiet).mono fun j hj hsame => ?_
      by_cases hjk : j = k
      · subst hjk
        obtain ⟨c, hc⟩ := Option.isSome_iff_exists.1 (hk.resolve_left (Nat.not_le.2 hj))
        rw [hc] at hsame
        simpa [Aggregator.heads, Watched.record, hc] using Input.push_head hsame
      · simpa [Aggregator.heads, Watched.record, hjk] using hsame
  | popOutput =>
    rw [step] at hs'
    split at hs' <;> (cases hs'; exact ⟨hw.full, hw.saw⟩)
  | step isTimeout allocated =>
    rw [Watched.record_step_heads, Watched.record_step_quiet, Watched.record_agg]
    exact ⟨hw.full, fun hquiet => saw_stepCallback hw.inv (hw.saw hquiet) hs'⟩

/-- **Every step** keeps what the callback collects and emits. -/
theorem watching_step (w : Watched) (a : Action) (hw : Watching n outputSize w) (hok : ProperWatched w a) :
    ∃ w', stepWatched n outputSize w a = some w' ∧ Watching n outputSize w' := by
  obtain ⟨s', hs', hi⟩ := inv_step w.agg a hw.inv hok
  have hs : stepWatched n outputSize w a = some (w.record n outputSize a s') := Option.map_eq_some_iff.2 ⟨s', hs', rfl⟩
  obtain ⟨hfull, hsaw⟩ := saw_step hw hs
  refine ⟨_, hs, ?_⟩
  rcases stepWatched_cases hw.inv hs with ⟨hlog, hem, -⟩ | ⟨d, hpc, hlog, hem, -⟩
  · refine ⟨by rwa [Watched.record_agg], hfull, hsaw, ?_, ?_, ?_⟩
    · rw [hlog, hem, hw.emitted]
    · rw [hlog]
      exact hw.fullEach
    · rw [hlog]
      exact hw.setEach
  · refine ⟨by rwa [Watched.record_agg], hfull, hsaw, ?_, ?_, ?_⟩
    · rw [hlog, hem, List.map_append, hw.emitted, List.map_singleton]
    · rw [hlog]
      intro e he
      rcases List.mem_append.1 he with he | he
      · exact hw.fullEach e he
      · rw [List.mem_singleton.1 he]
        exact hw.full
    · rw [hlog]
      intro e he hquiet
      rcases List.mem_append.1 he with he | he
      · exact hw.setEach e he hquiet
      · rw [List.mem_singleton.1 he] at hquiet ⊢
        have hpush := hw.saw hquiet
        rw [hpc] at hpush
        exact ⟨hpush.1.some, hpush.2⟩

/-! ## The order of the sets -/

/-- The ids of each input increase, and each set was emitted with all inputs full and with the last of the zeros, if
there is one, behind all other heads. -/
structure InOrder (n : Nat) (w : Watched) : Prop where
  sorted : ∀ i < n, (w.agg.inputs i).pushed.Pairwise (·.id < ·.id)
  full : ∀ e ∈ w.log, ∀ j < n, e.heads j ≠ none
  zero : ∀ e ∈ w.log, ZeroLast n e.heads

/-- The ids of the sets increase; the blocks up to the id of a set have been emitted; each input has reached it. -/
structure Ordered (n : Nat) (s : Aggregator) : Prop where
  increase : s.emitted.Pairwise fun d d' => ∀ p ∈ d, ∀ q ∈ d', p.2.id < q.2.id
  behind : ∀ d ∈ s.emitted, ∀ p ∈ d, ∀ i < n, ∀ b ∈ (s.inputs i).pushed, b.id ≤ p.2.id → (i, b) ∈ s.emitted.flatten
  reached : ∀ d ∈ s.emitted, ∀ p ∈ d, ∀ i < n, ∃ b ∈ (s.inputs i).pushed, p.2.id ≤ b.id

theorem mem_fromInput {i : Nat} {b : Block} {d : DataSet} : b ∈ fromInput i d ↔ (i, b) ∈ d := by
  simp only [fromInput, List.mem_map, List.mem_filter, decide_eq_true_eq]
  constructor
  · rintro ⟨⟨j, c⟩, ⟨hmem, rfl⟩, rfl⟩
    exact hmem
  · exact fun hmem => ⟨(i, b), ⟨hmem, rfl⟩, rfl⟩

theorem InOrder.before (hw : InOrder n w') (hi : Inv n outputSize w.agg) (hs : stepWatched n outputSize w a = some w') :
    InOrder n w := by
  rcases stepWatched_cases hi hs with ⟨hlog, -, hpushed⟩ | ⟨d, -, hlog, -, hin⟩
  · refine ⟨fun i hin => ?_, hlog ▸ hw.full, hlog ▸ hw.zero⟩
    have hsorted := hw.sorted i hin
    rcases hpushed i with hp | ⟨b, hp⟩
    · rwa [hp] at hsorted
    · rw [hp] at hsorted
      exact (List.pairwise_append.1 hsorted).1
  · refine ⟨hin ▸ hw.sorted, fun e he => hw.full e ?_, fun e he => hw.zero e ?_⟩ <;>
    · rw [hlog]
      exact List.mem_append_left _ he

/-- What is still in an input when a set leaves is behind the id of the set. -/
theorem queue_behind {s : Aggregator} {d : DataSet} {i : Nat} {c : Block} (hi : Inv n outputSize s)
    (hpc : s.pc = .push d) (hsaw : s.pc.Saw n h s.heads) (hin : i < n) (hc : h i = some c)
    (hle : minIdOf n h ≤ c.id) (hsorted : (s.inputs i).pushed.Pairwise (·.id < ·.id)) :
    c ∈ (s.inputs i).pushed ∧ ∀ b ∈ (s.inputs i).queue, minIdOf n h < b.id := by
  rw [hpc] at hsaw
  obtain ⟨hun, hd⟩ := hsaw
  rw [← hi.queued i] at hsorted ⊢
  by_cases hid : c.id = minIdOf n h
  · have hpop : c ∈ (s.inputs i).popped := by
      rw [hi.popped i, hpc, fromInput_append, Pc.current, hd]
      exact List.mem_append_right _ (mem_fromInput.2 (mem_collected.2 ⟨hin, hc, hid⟩))
    refine ⟨List.mem_append_left _ hpop, fun b hb => ?_⟩
    rw [← hid]
    exact (List.pairwise_append.1 hsorted).2.2 c hpop b hb
  · have hhead : (s.inputs i).queue.head? = some c := by
      refine (hun.same i hin fun _ b hb => ?_).trans hc
      rwa [← Option.some.inj (hc.symm.trans hb)]
    obtain ⟨rest, hq⟩ := List.head?_eq_some_iff.1 hhead
    have hlt : minIdOf n h < c.id := UInt64.lt_of_le_of_ne hle (Ne.symm hid)
    rw [hq] at hsorted ⊢
    refine ⟨by simp, fun b hb => ?_⟩
    rcases List.mem_cons.1 hb with rfl | hb
    · exact hlt
    · exact UInt64.lt_trans hlt (List.rel_of_pairwise_cons (List.pairwise_append.1 hsorted).2.1 hb)

/-- No block is in two sets, nor twice in one, while the ids of its input increase. -/
theorem not_emitted_twice {s : Aggregator} {i : Nat} {b : Block} (hi : Inv n outputSize s)
    (hsorted : (s.inputs i).pushed.Pairwise (·.id < ·.id)) (hcur : (i, b) ∈ s.pc.current) :
    (i, b) ∉ s.emitted.flatten := by
  intro hem
  rw [← hi.queued i, hi.popped i, fromInput_append, List.append_assoc] at hsorted
  have hlt := (List.pairwise_append.1 hsorted).2.2 b (mem_fromInput.2 hem) b
    (List.mem_append_left _ (mem_fromInput.2 hcur))
  exact UInt64.lt_irrefl _ hlt

theorem Ordered.next (hw : Watching n outputSize w) (hs : stepWatched n outputSize w a = some w')
    (ho : Ordered n w.agg) (hin : InOrder n w') : Ordered n w'.agg := by
  have hbefore := hin.before hw.inv hs
  rcases stepWatched_cases hw.inv hs with ⟨-, hem, hpushed⟩ | ⟨d, hpc, hlog, hem, hinputs⟩
  · -- a block pushed to an input comes behind one that has reached the id of every set
    have hmem : ∀ i, ∀ b ∈ (w.agg.inputs i).pushed, b ∈ (w'.agg.inputs i).pushed := by
      intro i b hb
      rcases hpushed i with hp | ⟨c, hp⟩ <;> rw [hp]
      · exact hb
      · exact List.mem_append_left _ hb
    refine ⟨hem ▸ ho.increase, ?_, ?_⟩ <;> rw [hem]
    · intro d hd p hp i hi b hb hle
      rcases hpushed i with hq | ⟨c, hq⟩
      · exact ho.behind d hd p hp i hi b (hq ▸ hb) hle
      · rw [hq] at hb
        rcases List.mem_append.1 hb with hb | hb
        · exact ho.behind d hd p hp i hi b hb hle
        · obtain ⟨r, hr, hpr⟩ := ho.reached d hd p hp i hi
          have hsorted := hin.sorted i hi
          rw [hq] at hsorted
          have hlt := (List.pairwise_append.1 hsorted).2.2 r hr b hb
          exact absurd (UInt64.lt_of_lt_of_le hlt hle) (UInt64.not_lt.2 hpr)
    · intro d hd p hp i hi
      obtain ⟨r, hr, hpr⟩ := ho.reached d hd p hp i hi
      exact ⟨r, hmem i r hr, hpr⟩
  · have hlast : (⟨w.heads, w.quiet, d⟩ : Emission) ∈ w'.log := by simp [hlog]
    have hfull := hin.full _ hlast
    have hsaw := hw.saw (hw.full hfull)
    have hset := hsaw
    rw [hpc] at hset
    obtain ⟨-, hleast⟩ := minIdOf_least (hin.zero _ hlast) hset.1.some
    have hid : ∀ p ∈ d, p.2.id = minIdOf n w.heads := by
      intro p hp
      rw [hset.2] at hp
      exact (mem_collected.1 hp).2.2
    have hcur : ∀ p ∈ d, p ∈ w.agg.pc.current := fun p hp => by rwa [hpc]
    have hpopped : ∀ p ∈ d, p.2 ∈ (w.agg.inputs p.1).pushed := by
      intro p hp
      rw [← hw.inv.queued, hw.inv.popped, fromInput_append]
      exact List.mem_append_left _ (List.mem_append_right _ (mem_fromInput.2 (hcur p hp)))
    have hn : ∀ p ∈ d, p.1 < n := by
      intro p hp
      rw [hset.2] at hp
      exact (mem_collected.1 hp).1
    have hinput : ∀ i < n, ∃ c, w.heads i = some c ∧ c ∈ (w.agg.inputs i).pushed ∧ minIdOf n w.heads ≤ c.id ∧
        ∀ b ∈ (w.agg.inputs i).queue, minIdOf n w.heads < b.id := by
      intro i hi
      obtain ⟨c, hc⟩ := Option.ne_none_iff_exists'.1 (hfull i hi)
      obtain ⟨hmem, hqueue⟩ := queue_behind hw.inv hpc hsaw hi hc (hleast i hi c hc) (hbefore.sorted i hi)
      exact ⟨c, hc, hmem, hleast i hi c hc, hqueue⟩
    constructor
    · rw [hem]
      refine List.pairwise_append.2 ⟨ho.increase, List.pairwise_singleton _ _, fun e he d' hd' p hp q hq => ?_⟩
      obtain rfl := List.mem_singleton.1 hd'
      refine UInt64.not_le.1 fun hle => ?_
      exact not_emitted_twice hw.inv (hbefore.sorted q.1 (hn q hq)) (hcur q hq)
        (ho.behind e he p hp q.1 (hn q hq) q.2 (hpopped q hq) hle)
    · rw [hem, hinputs, List.flatten_append, List.flatten_singleton]
      intro e he p hp i hi b hb hle
      rcases List.mem_append.1 he with he | he
      · exact List.mem_append_left _ (ho.behind e he p hp i hi b hb hle)
      · rw [List.mem_singleton.1 he] at hp
        rw [hid p hp] at hle
        obtain ⟨-, -, -, -, hqueue⟩ := hinput i hi
        rw [← hw.inv.queued i, List.mem_append] at hb
        rcases hb with hb | hb
        · rw [hw.inv.popped i, mem_fromInput, hpc] at hb
          exact hb
        · exact absurd (UInt64.lt_of_lt_of_le (hqueue b hb) hle) (UInt64.lt_irrefl _)
    · rw [hem, hinputs]
      intro e he p hp i hi
      rcases List.mem_append.1 he with he | he
      · exact ho.reached e he p hp i hi
      · rw [List.mem_singleton.1 he] at hp
        obtain ⟨c, -, hc, hle, -⟩ := hinput i hi
        exact ⟨c, hc, (hid p hp).symm ▸ hle⟩

/-- All blocks of the id of a set are in the set. -/
theorem Ordered.whole {s : Aggregator} (ho : Ordered n s) {d : DataSet} (hd : d ∈ s.emitted) {p : Nat × Block}
    (hp : p ∈ d) {i : Nat} (hi : i < n) {b : Block} (hb : b ∈ (s.inputs i).pushed) (hid : b.id = p.2.id) :
    (i, b) ∈ d := by
  obtain ⟨d', hd', hmem⟩ := List.mem_flatten.1 (ho.behind d hd p hp i hi b hb (hid ▸ UInt64.le_refl _))
  have hall := List.Pairwise.forall_of_forall_of_flip
    (R := fun d d' : DataSet => ∀ p ∈ d, ∀ q ∈ d', p.2.id = q.2.id → d = d') (fun x _ p _ q _ _ => rfl)
    (ho.increase.imp fun hlt p hp q hq he => by
      have := hlt p hp q hq
      rw [he] at this
      exact absurd this (UInt64.lt_irrefl _))
    (ho.increase.imp fun hlt p hp q hq he => by
      have := hlt q hq p hp
      rw [he] at this
      exact absurd this (UInt64.lt_irrefl _))
  rwa [← hall hd' hd (i, b) hmem p hp hid]

theorem ordered_start (n outputSize : Nat) (sizes : Nat → Nat) : Watching n outputSize (.start sizes) ∧
    (InOrder n (.start sizes) → Ordered n (Watched.start sizes).agg) :=
  ⟨watching_start n outputSize sizes, fun _ => ⟨.nil, fun _ hd => absurd hd List.not_mem_nil,
    fun _ hd => absurd hd List.not_mem_nil⟩⟩

theorem ordered_step (w : Watched) (a : Action) (hw : Watching n outputSize w ∧ (InOrder n w → Ordered n w.agg))
    (hok : ProperWatched w a) : ∃ w', stepWatched n outputSize w a = some w' ∧
      Watching n outputSize w' ∧ (InOrder n w' → Ordered n w'.agg) := by
  obtain ⟨hw, ho⟩ := hw
  obtain ⟨w', hs, hw'⟩ := watching_step w a hw hok
  exact ⟨w', hs, hw', fun hin => Ordered.next hw hs (ho (hin.before hw.inv hs)) hin⟩

/-- The ids of the sets increase, and a set has all blocks of its id. -/
structure InIdOrder (n : Nat) (s : Aggregator) : Prop where
  increase : s.emitted.Pairwise fun d d' => ∀ p ∈ d, ∀ q ∈ d', p.2.id < q.2.id
  whole : ∀ d ∈ s.emitted, ∀ p ∈ d, ∀ i < n, ∀ b ∈ (s.inputs i).pushed, b.id = p.2.id → (i, b) ∈ d

/-- What is watched is the run of the aggregator. -/
theorem run_watched : ∀ (as : List Action) (w : Watched),
    (run (stepWatched n outputSize) w as).map Watched.agg = run (step n outputSize) w.agg as
  | [], _ => rfl
  | a :: as, w => by
    rw [run, run, stepWatched]
    cases hs : step n outputSize w.agg a with
    | none => rfl
    | some s' =>
      have ih := run_watched as (w.record n outputSize a s')
      rwa [Watched.record_agg] at ih

/-- **The smallest id, completely.**  In every run each set that is emitted, with no push to an empty input during the
call, is the right one exactly if no block at a head had the id 0 or the last one had; and where the ids of each input
increase, and every set was emitted with all inputs full and so, the sets come in the order of their ids and whole. -/
theorem aggregator_smallest_iff (n outputSize : Nat) (sizes : Nat → Nat) (as : List Action)
    (hl : Legal (stepWatched n outputSize) ProperWatched (.start sizes) as) :
    ∃ w, run (stepWatched n outputSize) (.start sizes) as = some w ∧
      run (step n outputSize) (.start sizes) as = some w.agg ∧ w.log.map Emission.set = w.agg.emitted ∧
      (∀ e ∈ w.log, e.quiet = true → (RightSet n e.heads e.set ↔ ZeroLast n e.heads)) ∧
      (InOrder n w → InIdOrder n w.agg) := by
  obtain ⟨w, hr, hw, ho⟩ := run_inv ordered_step as _ (ordered_start n outputSize sizes) hl
  refine ⟨w, hr, ?_, hw.emitted, fun e he hquiet => ?_, fun hin => ⟨(ho hin).increase, fun d hd p hp i hi b hb hid =>
    (ho hin).whole hd hp hi hb hid⟩⟩
  · have hagg := @run_watched n outputSize as (.start sizes)
    rw [hr] at hagg
    exact hagg.symm
  · obtain ⟨hsome, hset⟩ := hw.setEach e he hquiet
    rw [hset]
    exact rightSet_iff hsome

instance (w : Watched) (a : Action) : Decidable (ProperWatched w a) := inferInstanceAs (Decidable (Proper _ _))

/-- Two inputs with two blocks each, collected one id at a time. -/
def orderedRun : List Action :=
  [.pushInput 0 ⟨1, 10⟩, .pushInput 1 ⟨1, 11⟩, .pushInput 0 ⟨2, 12⟩, .pushInput 1 ⟨3, 13⟩, .threadCallback] ++
    List.replicate 15 (.step false true) ++ .threadCallback :: List.replicate 14 (.step false true)

theorem aggregator_smallest_orderedRun :
    ∃ w, run (stepWatched 2 4) (.start fun _ => 4) orderedRun = some w ∧
      run (step 2 4) (.start fun _ => 4) orderedRun = some w.agg ∧ w.log.map Emission.set = w.agg.emitted ∧
      (∀ e ∈ w.log, e.quiet = true → (RightSet 2 e.heads e.set ↔ ZeroLast 2 e.heads)) ∧
      (InOrder 2 w → InIdOrder 2 w.agg) :=
  aggregator_smallest_iff 2 4 (fun _ => 4) orderedRun (by decide +kernel)

/-- The first input's block has the id 0, the second's 5. -/
def zeroFirstRun : List Action :=
  [.pushInput 0 ⟨0, 10⟩, .pushInput 1 ⟨5, 11⟩, .threadCallback] ++ List.replicate 14 (.step false true)

/-- **The set of id 5 leaves** although a block of id 0 is at the head of the first input. -/
theorem zeroFirst_not_smallest :
    ∃ w, run (stepWatched 2 4) (.start fun _ => 4) zeroFirstRun = some w ∧
      Legal (stepWatched 2 4) ProperWatched (.start fun _ => 4) zeroFirstRun ∧
      ∃ e ∈ w.log, e.quiet = true ∧ ¬ RightSet 2 e.heads e.set := by
  have hlog : (run (stepWatched 2 4) (.start fun _ => 4) zeroFirstRun).map (fun w => w.log.map fun e =>
      (e.quiet, e.heads 0, e.set)) = some [(true, some ⟨0, 10⟩, [(1, ⟨5, 11⟩)])] := by decide +kernel
  obtain ⟨w, hr, hw⟩ := Option.map_eq_some_iff.1 hlog
  refine ⟨w, hr, by decide +kernel, ?_⟩
  obtain ⟨e, he, hval⟩ : ∃ e ∈ w.log, (e.quiet, e.heads 0, e.set) = (true, some ⟨0, 10⟩, [(1, ⟨5, 11⟩)]) :=
    List.mem_map.1 (by rw [hw]; exact List.mem_singleton_self _)
  simp only [Prod.mk.injEq] at hval
  obtain ⟨hquiet, hzero, hset⟩ := hval
  refine ⟨e, he, hquiet, ?_⟩
  rintro ⟨m, -, hleast, hd⟩
  have hm : m = 0 := UInt64.le_zero_iff.1 (hleast 0 (by omega) _ hzero)
  have hmem : (1, (⟨5, 11⟩ : Block)) ∈ collected e.heads m 2 := by
    rw [← hd, hset]
    exact List.mem_singleton_self _
  have hid := (mem_collected.1 hmem).2.2
  rw [hm] at hid
  revert hid
  decide

end Readout
end Flp
