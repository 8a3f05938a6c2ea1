import FlpPrototype.Readout.AggregatorMin
import Mathlib.Data.List.Chain
import Mathlib.Data.List.DropRight
/-!
# AggregatorTimer — how long the callback waits for a missing block

A call that finds some inputs empty and not all of them sets the pending flag and restarts the timer, unless the flag
is set.  Only a call that finds the same id everywhere takes the flag back: after a call that finds all inputs empty, or
none empty with different ids, a new wait goes by the old timer (`aggregator_waits_iff`).

Clock readings are nanoseconds.  `isTimeout` compares seconds as `double`; for a time-out given as an `int` of
microseconds that is the comparison of the nanoseconds.
-/
namespace Flp
namespace Common

/-- `Timer`: when it was reset, and after how long it is over. -/
structure Timer where
  t0 : Int
  tmax : Int
deriving DecidableEq

def Timer.reset (now timeout : Int) : Timer := ⟨now, timeout * 1000⟩

def Timer.isTimeout (t : Timer) (now : Int) : Bool := decide (t.tmax ≤ now - t.t0)

end Common

namespace Readout

open Common (Timer)

/-- A call that looks at the inputs: the id it finds at the head of each, none where the input is empty, when it
restarted the timer, and when it asked the timer. -/
structure Sight where
  seen : List (Option UInt64)
  restarted : Option Int
  asked : Option Int
deriving DecidableEq

/-- Some inputs are empty, but not all. -/
def Sight.incomplete (c : Sight) : Bool := c.seen.any (·.isNone) && c.seen.any (·.isSome)

/-- No input is empty, and each id but the last is the next one's or 0. -/
def Sight.Same (c : Sight) : Prop :=
  c.seen ≠ [] ∧ (∀ x ∈ c.seen, x ≠ none) ∧ c.seen.IsChain fun x y => x = y ∨ x = some 0

/-- The aggregator with its timer, what the call found so far, the calls that looked, and each set with the calls up to
the one it is of. -/
structure Timed where
  agg : Aggregator
  incompletePendingTimer : Timer
  seen : List (Option UInt64)
  calls : List Sight
  log : List (List Sight × DataSet)

/-- `t0` is when the timer was made. -/
def Timed.start (sizes : Nat → Nat) (t0 : Int) : Timed := ⟨.start sizes, .reset t0 0, [], [], []⟩

inductive TimedAction where
  | threadCallback
  | step (reset now : Int) (allocated : Bool)
  | pushInput (i : Nat) (b : Block)
  | popOutput

/-- The decision: the timer, if it is asked, is restarted at `reset` unless the flag is set, and asked at `now`. -/
def Timed.look (t : Timed) (a : Look) (reset now : Int) : Timer × Sight :=
  let waits := a.someEmpty && !a.allEmpty
  let restarts := waits && !t.agg.isIncompletePending
  (if restarts then .reset reset 500000 else t.incompletePendingTimer,
    ⟨t.seen, if restarts then some reset else none, if waits then some now else none⟩)

/-- What is found at an input is recorded in the order of the inputs, anew in every call. -/
def found (n : Nat) (s : Aggregator) (seen : List (Option UInt64)) : List (Option UInt64) :=
  match s.pc with
  | .isFull        => []
  | .look i _      => if i < n ∧ (s.inputs i).queue = [] then seen ++ [none] else seen
  | .lookFront i _ => seen ++ [(s.heads i).map Block.id]
  | _              => seen

def stepTimed (n outputSize : Nat) (t : Timed) : TimedAction → Option Timed
  | .threadCallback => (step n outputSize t.agg .threadCallback).map fun s' => { t with agg := s' }
  | .pushInput i b  => (step n outputSize t.agg (.pushInput i b)).map fun s' => { t with agg := s' }
  | .popOutput      => (step n outputSize t.agg .popOutput).map fun s' => { t with agg := s' }
  | .step reset now allocated =>
    match t.agg.pc with
    | .decide a =>
      let (timer, c) := t.look a reset now
      (stepCallback n outputSize t.agg (timer.isTimeout now) allocated).map fun s' =>
        ⟨s', timer, t.seen, t.calls ++ [c], t.log⟩
    | .push d =>
      (stepCallback n outputSize t.agg false allocated).map fun s' =>
        { t with agg := s', log := if t.agg.output.length < outputSize then t.log ++ [(t.calls, d)] else t.log }
    | _ =>
      (stepCallback n outputSize t.agg false allocated).map fun s' =>
        { t with agg := s', seen := found n t.agg t.seen }

def ProperTimed (t : Timed) : TimedAction → Prop
  | .threadCallback => t.agg.pc = .idle
  | .step _ _ _     => t.agg.pc ≠ .idle
  | _               => True

instance (t : Timed) : (a : TimedAction) → Decidable (ProperTimed t a)
  | .threadCallback => inferInstanceAs (Decidable (_ = _))
  | .step _ _ _     => inferInstanceAs (Decidable (_ ≠ _))
  | .pushInput _ _  => isTrue trivial
  | .popOutput      => isTrue trivial

/-! ## The period of incompleteness -/

/-- The last calls that all found the inputs incomplete. -/
def period (cs : List Sight) : List Sight := cs.rtakeWhile Sight.incomplete

/-- The calls before them. -/
def before (cs : List Sight) : List Sight := cs.rdropWhile Sight.incomplete

/-- The timer was restarted by the first call of the period, and the last one asked it 500 ms later or more. -/
def Waited (cs : List Sight) : Prop :=
  ∃ first last reset now, (period cs).head? = some first ∧ cs.getLast? = some last ∧ first.restarted = some reset ∧
    last.asked = some now ∧ 500000000 ≤ now - reset

/-- Some call found the inputs incomplete, and none since then the same id everywhere. -/
def Pending (cs : List Sight) : Prop :=
  ∃ pre c post, cs = pre ++ c :: post ∧ c.incomplete = true ∧ ∀ x ∈ post, ¬ x.Same

/-- Each time before this period that the inputs were incomplete, a call found the same id everywhere afterwards. -/
def Cleared (cs : List Sight) : Prop :=
  ∀ pre c post, before cs = pre ++ c :: post → c.incomplete = true → ∃ x ∈ post, x.Same

variable {n outputSize : Nat} {t : Timed} {cs : List Sight} {c : Sight}

theorem cleared_iff : Cleared cs ↔ ¬ Pending (before cs) := by
  constructor
  · rintro hcl ⟨pre, c, post, hcs, hc, hpost⟩
    obtain ⟨x, hx, hsame⟩ := hcl pre c post hcs hc
    exact hpost x hx hsame
  · intro hp pre c post hcs hc
    by_contra hnone
    exact hp ⟨pre, c, post, hcs, hc, fun x hx hsame => hnone ⟨x, hx, hsame⟩⟩

theorem not_pending_nil : ¬ Pending [] := by
  rintro ⟨pre, c, post, hcs, -⟩
  simp at hcs

/-- **One more call.** -/
theorem pending_concat : Pending (cs ++ [c]) ↔ c.incomplete = true ∨ Pending cs ∧ ¬ c.Same := by
  constructor
  · rintro ⟨pre, x, post, hcs, hx, hpost⟩
    rcases List.eq_nil_or_concat post with rfl | ⟨post, y, rfl⟩
    · obtain ⟨-, rfl⟩ := List.append_singleton_inj.1 hcs
      exact .inl hx
    · rw [List.concat_eq_append, ← List.cons_append, ← List.append_assoc] at hcs
      obtain ⟨rfl, rfl⟩ := List.append_singleton_inj.1 hcs
      rw [List.concat_eq_append] at hpost
      exact .inr ⟨⟨pre, x, post, rfl, hx, fun z hz => hpost z (List.mem_append_left _ hz)⟩, hpost c (by simp)⟩
  · rintro (hc | ⟨⟨pre, x, post, rfl, hx, hpost⟩, hc⟩)
    · exact ⟨cs, c, [], rfl, hc, fun _ hx => absurd hx List.not_mem_nil⟩
    · refine ⟨pre, x, post ++ [c], by simp, hx, fun z hz => ?_⟩
      rcases List.mem_append.1 hz with hz | hz
      · exact hpost z hz
      · rwa [List.mem_singleton.1 hz]

theorem period_incomplete (hc : c.incomplete = true) : period (cs ++ [c]) = period cs ++ [c] :=
  List.rtakeWhile_concat_pos _ _ _ hc

theorem period_ended (hc : c.incomplete = false) : period (cs ++ [c]) = [] :=
  List.rtakeWhile_concat_neg _ _ _ (by simp [hc])

theorem before_incomplete (hc : c.incomplete = true) : before (cs ++ [c]) = before cs :=
  List.rdropWhile_concat_pos _ _ _ hc

/-- While the inputs are incomplete the wait is pending. -/
theorem pending_of_period (hp : period cs ≠ []) : Pending cs := by
  rcases List.eq_nil_or_concat cs with rfl | ⟨pre, x, rfl⟩
  · exact absurd (List.rtakeWhile_nil _) hp
  · rw [List.concat_eq_append] at hp ⊢
    refine pending_concat.2 (.inl ?_)
    by_contra hx
    exact hp (period_ended (by simpa using hx))

/-! ## What the first loop makes of what it finds -/

/-- One input. -/
def Look.find (a : Look) : Option UInt64 → Look
  | some newId => a.see newId
  | none       => a.miss

def lookOf (seen : List (Option UInt64)) : Look := seen.foldl Look.find .start

variable {seen : List (Option UInt64)}

@[simp] theorem lookOf_concat {x : Option UInt64} : lookOf (seen ++ [x]) = (lookOf seen).find x := by
  rw [lookOf, List.foldl_append]
  rfl

theorem lookOf_empty : (lookOf seen).someEmpty = seen.any (·.isNone) ∧
    (lookOf seen).allEmpty = !seen.any (·.isSome) := by
  induction seen using List.reverseRecOn with
  | nil => exact ⟨rfl, rfl⟩
  | append_singleton seen x ih =>
    obtain ⟨hsome, hall⟩ := ih
    rw [lookOf_concat]
    cases x with
    | none => simp [Look.find, Look.miss, hall]
    | some newId => simp [Look.find, Look.see, hsome]

/-- The id before the next one, if all inputs before have one. -/
theorem lookOf_lastId (hfull : ∀ x ∈ seen, x ≠ none) :
    (lookOf seen).lastId = 0 ↔ ∀ x ∈ seen.getLast?, x = some 0 := by
  rcases List.eq_nil_or_concat seen with rfl | ⟨pre, x, rfl⟩
  · simp [lookOf, Look.start]
  · obtain ⟨newId, rfl⟩ := Option.ne_none_iff_exists'.1 (hfull x (by simp))
    simp [Look.find, Look.see]

theorem lookOf_lastId_eq (hfull : ∀ x ∈ seen, x ≠ none) (hne : (lookOf seen).lastId ≠ 0) {newId : UInt64} :
    newId = (lookOf seen).lastId ↔ ∀ x ∈ seen.getLast?, x = some newId := by
  rcases List.eq_nil_or_concat seen with rfl | ⟨pre, x, rfl⟩
  · exact absurd rfl hne
  · obtain ⟨lastId, rfl⟩ := Option.ne_none_iff_exists'.1 (hfull x (by simp))
    simp [Look.find, Look.see, eq_comm]

theorem lookOf_allSame : (lookOf seen).allSame = true ↔
    (∀ x ∈ seen, x ≠ none) ∧ seen.IsChain fun x y => x = y ∨ x = some 0 := by
  induction seen using List.reverseRecOn with
  | nil => simp [lookOf, Look.start]
  | append_singleton seen x ih =>
    rw [lookOf_concat]
    cases x with
    | none => exact iff_of_false Bool.false_ne_true fun h => h.1 none (by simp) rfl
    | some newId =>
      have hsee : ((lookOf seen).find (some newId)).allSame = true ↔
          (lookOf seen).allSame = true ∧ ((lookOf seen).lastId = 0 ∨ newId = (lookOf seen).lastId) := by
        simp only [Look.find, Look.see]
        split
        · rename_i hdiff
          exact iff_of_false Bool.false_ne_true fun h => h.2.elim hdiff.1 hdiff.2
        · rename_i hnot
          refine (and_iff_left ?_).symm
          by_contra hno
          exact hnot (not_or.1 hno)
      rw [hsee, ih, List.isChain_append]
      constructor
      · rintro ⟨⟨hfull, hchain⟩, hlast⟩
        refine ⟨by simpa [or_imp, forall_and] using hfull, hchain, .singleton _, fun x hx y hy => ?_⟩
        obtain rfl := Option.some.inj hy
        by_cases hzero : (lookOf seen).lastId = 0
        · exact .inr ((lookOf_lastId hfull).1 hzero x hx)
        · exact .inl ((lookOf_lastId_eq hfull hzero).1 (hlast.resolve_left hzero) x hx)
      · rintro ⟨hfull, hchain, -, hlast⟩
        have hfull' : ∀ x ∈ seen, x ≠ none := fun x hx => hfull x (List.mem_append_left _ hx)
        refine ⟨⟨hfull', hchain⟩, ?_⟩
        by_cases hzero : (lookOf seen).lastId = 0
        · exact .inl hzero
        · refine .inr ((lookOf_lastId_eq hfull' hzero).2 fun x hx => (hlast x hx _ rfl).resolve_right fun h0 => ?_)
          refine hzero ((lookOf_lastId hfull').2 fun y hy => ?_)
          rwa [Option.mem_unique hy hx]

theorem Sight.incomplete_eq : c.incomplete = ((lookOf c.seen).someEmpty && !(lookOf c.seen).allEmpty) := by
  obtain ⟨hsome, hall⟩ := @lookOf_empty c.seen
  rw [hsome, hall, Bool.not_not, incomplete]

theorem Sight.same_iff : c.Same ↔ (lookOf c.seen).allEmpty = false ∧ (lookOf c.seen).allSame = true := by
  rw [lookOf_empty.2, lookOf_allSame, Sight.Same]
  refine and_congr_left fun ⟨hfull, _⟩ => ?_
  cases hseen : c.seen with
  | nil => simp
  | cons x rest =>
    have hx : x ≠ none := hfull x (by simp [hseen])
    simp [Option.isSome_iff_ne_none, hx]

/-- An input that was empty is seen in `allSame`. -/
theorem lookOf_missed (hsome : (lookOf seen).someEmpty = true) : (lookOf seen).allSame = false := by
  rw [lookOf_empty.1, List.any_eq_true] at hsome
  obtain ⟨x, hx, hnone⟩ := hsome
  rw [← Bool.not_eq_true]
  exact fun hsame => (lookOf_allSame.1 hsame).1 x hx (Option.isNone_iff_eq_none.1 hnone)

/-! ## The timer and the flag -/

/-- The variables of the first loop are of what was found. -/
def Pc.Found (seen : List (Option UInt64)) : Pc → Prop
  | .look _ a | .lookFront _ a | .decide a => a = lookOf seen
  | _                                      => True

/-- The callback has decided to make a set. -/
def Pc.After : Pc → Prop
  | .collect _ _ _ | .collectFront _ _ _ | .collectPop _ _ _ _ | .push _ => True
  | _                                                                   => False

/-- What the last call found; where inputs were empty, the timer it asked was over. -/
def Timed.Decided (t : Timed) (cs : List Sight) : Prop :=
  ∃ last, cs.getLast? = some last ∧ (lookOf last.seen).allEmpty = false ∧
    (none ∈ last.seen → ∃ now, last.asked = some now ∧ t.incompletePendingTimer.isTimeout now = true)

/-- A set of a call that found an input empty has waited exactly if the flag had been taken back. -/
def Sound (cs : List Sight) : Prop :=
  ∃ last, cs.getLast? = some last ∧ (none ∈ last.seen → (Waited cs ↔ Cleared cs))

structure Waiting (n outputSize : Nat) (t : Timed) : Prop where
  inv : Inv n outputSize t.agg
  emitted : t.log.map Prod.snd = t.agg.emitted
  found : t.agg.pc.Found t.seen
  pending : t.agg.isIncompletePending = true ↔ Pending t.calls
  started : ∀ first, (period t.calls).head? = some first →
    (first.restarted = none ↔ Pending (before t.calls)) ∧
      ∀ reset, first.restarted = some reset → t.incompletePendingTimer = .reset reset 500000
  decided : t.agg.pc.After → t.Decided t.calls
  sound : ∀ e ∈ t.log, Sound e.1

theorem waiting_start (n outputSize : Nat) (sizes : Nat → Nat) (t0 : Int) :
    Waiting n outputSize (.start sizes t0) where
  inv := inv_start n outputSize sizes
  emitted := rfl
  found := trivial
  pending := iff_of_false Bool.false_ne_true not_pending_nil
  started first hf := by simp [Timed.start, period] at hf
  decided hafter := hafter.elim
  sound _ he := absurd he List.not_mem_nil

theorem Waiting.moves (hw : Waiting n outputSize t) {s' : Aggregator} {seen : List (Option UInt64)}
    (hi : Inv n outputSize s') (hem : s'.emitted = t.agg.emitted)
    (hflag : s'.isIncompletePending = t.agg.isIncompletePending) (hfound : s'.pc.Found seen)
    (hafter : s'.pc.After → t.agg.pc.After) : Waiting n outputSize { t with agg := s', seen := seen } where
  inv := hi
  emitted := hw.emitted.trans hem.symm
  found := hfound
  pending := by rw [hflag]; exact hw.pending
  started := hw.started
  decided h := hw.decided (hafter h)
  sound := hw.sound

/-- The steps of the callback but the decision and the push. -/
theorem stepCallback_moves {s s' : Aggregator} {isTimeout allocated : Bool} {seen : List (Option UInt64)}
    (hs : stepCallback n outputSize s isTimeout allocated = some s') (hdecide : ∀ a, s.pc ≠ .decide a)
    (hpush : ∀ d, s.pc ≠ .push d) (hfound : s.pc.Found seen) :
    s'.isIncompletePending = s.isIncompletePending ∧ s'.pc.Found (found n s seen) ∧ (s'.pc.After → s.pc.After) := by
  unfold stepCallback at hs
  cases h : s.pc with
  | idle => simp [h] at hs
  | decide a => exact absurd h (hdecide a)
  | push d => exact absurd h (hpush d)
  | isFull =>
    simp only [h] at hs
    split at hs <;> cases hs
    · exact ⟨rfl, trivial, False.elim⟩
    · refine ⟨rfl, ?_, False.elim⟩
      rw [found, h]
      rfl
  | look i a =>
    simp only [h] at hs hfound
    obtain rfl : a = lookOf seen := hfound
    split at hs
    · rename_i hin
      split at hs <;> cases hs
      · rename_i hq
        refine ⟨rfl, ?_, False.elim⟩
        simp only [found, h, if_pos (And.intro hin hq)]
        exact (lookOf_concat (x := none)).symm
      · rename_i hq
        refine ⟨rfl, ?_, False.elim⟩
        simp only [found, h, if_neg fun hboth : _ ∧ _ => hq hboth.2]
        rfl
    · rename_i hin
      cases hs
      refine ⟨rfl, ?_, False.elim⟩
      simp only [found, h, if_neg fun hboth : _ ∧ _ => hin hboth.1]
      rfl
  | lookFront i a =>
    simp only [h] at hs hfound
    obtain rfl : a = lookOf seen := hfound
    obtain ⟨b, hb, rfl⟩ := Option.map_eq_some_iff.1 hs
    refine ⟨rfl, ?_, False.elim⟩
    simp only [found, h, Aggregator.heads, hb, Option.map_some]
    exact (lookOf_concat (x := some b.id)).symm
  | collect i m d =>
    simp only [h] at hs
    split at hs
    · split at hs <;> (cases hs; exact ⟨rfl, trivial, fun _ => trivial⟩)
    · cases hs
      exact ⟨rfl, trivial, fun _ => trivial⟩
  | collectFront i m d =>
    simp only [h] at hs
    obtain ⟨b, -, rfl⟩ := Option.map_eq_some_iff.1 hs
    split <;> exact ⟨rfl, trivial, fun _ => trivial⟩
  | collectPop i m d b =>
    simp only [h] at hs
    cases hs
    exact ⟨rfl, trivial, fun _ => trivial⟩

/-- The flag after the decision, and what may be decided. -/
theorem stepCallback_decide {s s' : Aggregator} {a : Look} {isTimeout allocated : Bool} (hpc : s.pc = .decide a)
    (hmissed : a.someEmpty = true → a.allSame = false)
    (hs : stepCallback n outputSize s isTimeout allocated = some s') :
    s'.emitted = s.emitted ∧ s'.pc.Found seen ∧
      s'.isIncompletePending =
        (a.someEmpty && !a.allEmpty || s.isIncompletePending && !(!a.allEmpty && a.allSame)) ∧
      (s'.pc.After → a.allEmpty = false ∧ (a.someEmpty = true → isTimeout = true)) := by
  rw [stepCallback, hpc] at hs
  simp only at hs
  split at hs
  · rename_i hall
    cases hs
    exact ⟨rfl, trivial, by simp [hall, Aggregator.ret], False.elim⟩
  · rename_i hall
    rw [Bool.not_eq_true] at hall
    split at hs
    · rename_i hwait
      rw [Bool.and_eq_true] at hwait
      cases hs
      exact ⟨rfl, trivial, by simp [hall, hwait.1], False.elim⟩
    · rename_i hwait
      have hflag : (!a.allSame && (s.isIncompletePending || a.someEmpty)) =
          (a.someEmpty && !a.allEmpty || s.isIncompletePending && !(!a.allEmpty && a.allSame)) := by
        cases hsome : a.someEmpty with
        | true => simp [hall, hmissed hsome]
        | false => simp [hall, Bool.and_comm]
      have htime : a.someEmpty = true → isTimeout = true := by
        intro hsome
        simpa [hsome] using hwait
      split at hs
      · cases hs
        exact ⟨rfl, trivial, hflag, fun _ => ⟨hall, htime⟩⟩
      · cases hs
        exact ⟨rfl, trivial, hflag, False.elim⟩

/-- **The decision** restarts the timer at the beginning of a period unless the wait is pending. -/
theorem Waiting.decides (hw : Waiting n outputSize t) {a : Look} {reset now : Int} {s' : Aggregator} {allocated : Bool}
    (hpc : t.agg.pc = .decide a) (hi : Inv n outputSize s')
    (hs : stepCallback n outputSize t.agg ((t.look a reset now).1.isTimeout now) allocated = some s') :
    Waiting n outputSize ⟨s', (t.look a reset now).1, t.seen, t.calls ++ [(t.look a reset now).2], t.log⟩ := by
  have hfound := hw.found
  rw [hpc] at hfound
  have hmissed : a.someEmpty = true → a.allSame = false := by
    rw [show a = lookOf t.seen from hfound]
    exact lookOf_missed
  obtain ⟨hem, hfound', hflag, hafter⟩ := stepCallback_decide hpc hmissed hs
  have hseen : lookOf ((t.look a reset now).2).seen = a := hfound.symm
  have hinc : ((t.look a reset now).2).incomplete = (a.someEmpty && !a.allEmpty) := by
    rw [Sight.incomplete_eq, hseen]
  refine ⟨hi, hw.emitted.trans hem.symm, hfound', ?_, fun first hfirst => ?_, fun h => ?_, hw.sound⟩
  · rw [pending_concat, hinc, Sight.same_iff, hseen, ← hw.pending, hflag]
    cases a.allEmpty <;> simp
  · by_cases hincomplete : (a.someEmpty && !a.allEmpty) = true
    · rw [← hinc] at hincomplete
      simp only [period_incomplete hincomplete, before_incomplete hincomplete] at hfirst ⊢
      rw [hinc] at hincomplete
      by_cases hperiod : period t.calls = []
      · have hbefore : before t.calls = t.calls := by
          have happ : before t.calls ++ period t.calls = t.calls := List.rdropWhile_append_rtakeWhile
          rwa [hperiod, List.append_nil] at happ
        rw [hperiod] at hfirst
        obtain rfl := Option.some.inj hfirst
        rw [hbefore, ← hw.pending]
        cases hpend : t.agg.isIncompletePending <;> simp [Timed.look, hincomplete, hpend]
      · obtain ⟨head, rest, hcons⟩ := List.exists_cons_of_ne_nil hperiod
        have hpend : t.agg.isIncompletePending = true := hw.pending.2 (pending_of_period hperiod)
        rw [hcons] at hfirst
        obtain rfl := Option.some.inj hfirst
        have htimer : (t.look a reset now).1 = t.incompletePendingTimer := by simp [Timed.look, hpend]
        rw [htimer]
        exact hw.started head (by rw [hcons]; rfl)
    · rw [period_ended (by simpa [hinc] using hincomplete)] at hfirst
      cases hfirst
  · obtain ⟨hall, htime⟩ := hafter h
    refine ⟨(t.look a reset now).2, List.getLast?_concat, hseen.symm ▸ hall, fun hnone => ?_⟩
    have hsome : a.someEmpty = true := by
      rw [← hseen, lookOf_empty.1, List.any_eq_true]
      exact ⟨none, hnone, rfl⟩
    exact ⟨now, by simp [Timed.look, hsome, hall], htime hsome⟩

/-- **A set** of a call that found an input empty. -/
theorem Waiting.sound_calls (hw : Waiting n outputSize t) (hafter : t.agg.pc.After) : Sound t.calls := by
  obtain ⟨last, hlast, hall, hasked⟩ := hw.decided hafter
  refine ⟨last, hlast, fun hnone => ?_⟩
  obtain ⟨now, hnow, hover⟩ := hasked hnone
  have hinc : last.incomplete = true := by
    rw [Sight.incomplete_eq, hall, lookOf_empty.1, List.any_eq_true.2 ⟨none, hnone, rfl⟩]
    rfl
  have hcalls := List.dropLast_append_getLast? last hlast
  have hne : period t.calls ≠ [] := by
    rw [← hcalls, period_incomplete hinc]
    simp
  obtain ⟨first, rest, hcons⟩ := List.exists_cons_of_ne_nil hne
  have hfirst : (period t.calls).head? = some first := by rw [hcons, List.head?_cons]
  obtain ⟨hnone, hreset⟩ := hw.started first hfirst
  rw [cleared_iff, ← hnone]
  constructor
  · rintro ⟨f, l, reset, now', hf, -, hr, -⟩ hno
    rw [Option.some.inj (hfirst.symm.trans hf), hr] at hno
    cases hno
  · intro hsome
    obtain ⟨reset, hr⟩ := Option.ne_none_iff_exists'.1 hsome
    rw [hreset reset hr, Timer.isTimeout, decide_eq_true_eq] at hover
    exact ⟨first, last, reset, now, hfirst, hlast, hr, hnow, hover⟩

theorem Waiting.pushes (hw : Waiting n outputSize t) {d : DataSet} {s' : Aggregator} {allocated : Bool}
    (hpc : t.agg.pc = .push d) (hi : Inv n outputSize s')
    (hs : stepCallback n outputSize t.agg false allocated = some s') :
    Waiting n outputSize
      { t with agg := s', log := if t.agg.output.length < outputSize then t.log ++ [(t.calls, d)] else t.log } := by
  have hk := hw.inv.knows
  rw [hpc] at hk
  rw [stepCallback, hpc] at hs
  simp only [if_pos hk.1] at hs
  obtain rfl := Option.some.inj hs
  refine ⟨hi, ?_, trivial, hw.pending, hw.started, False.elim, ?_⟩
  · rw [if_pos hk.1, List.map_append, hw.emitted, List.map_singleton]
  · rw [if_pos hk.1]
    intro e he
    rcases List.mem_append.1 he with he | he
    · exact hw.sound e he
    · rw [List.mem_singleton.1 he]
      exact hw.sound_calls (by rw [hpc]; trivial)

/-- **Every step** keeps the timer and the flag. -/
theorem waiting_step (t : Timed) (a : TimedAction) (hw : Waiting n outputSize t) (hok : ProperTimed t a) :
    ∃ t', stepTimed n outputSize t a = some t' ∧ Waiting n outputSize t' := by
  cases a with
  | threadCallback =>
    obtain ⟨s', hs, hi⟩ := inv_step t.agg .threadCallback hw.inv hok
    refine ⟨{ t with agg := s' }, by rw [stepTimed, hs, Option.map_some], ?_⟩
    cases hs
    exact hw.moves hi rfl rfl trivial False.elim
  | pushInput i b =>
    obtain ⟨s', hs, hi⟩ := inv_step t.agg (.pushInput i b) hw.inv trivial
    refine ⟨{ t with agg := s' }, by rw [stepTimed, hs, Option.map_some], ?_⟩
    cases hs
    exact hw.moves hi rfl rfl hw.found id
  | popOutput =>
    obtain ⟨s', hs, hi⟩ := inv_step t.agg .popOutput hw.inv trivial
    refine ⟨{ t with agg := s' }, by rw [stepTimed, hs, Option.map_some], ?_⟩
    rw [step] at hs
    split at hs <;> (cases hs; exact hw.moves hi rfl rfl hw.found id)
  | step reset now allocated =>
    rw [stepTimed]
    split
    · rename_i a hpc
      obtain ⟨s', hs, hi⟩ := inv_stepCallback ((t.look a reset now).1.isTimeout now) allocated hw.inv hok
      exact ⟨_, Option.map_eq_some_iff.2 ⟨s', hs, rfl⟩, hw.decides hpc hi hs⟩
    · rename_i d hpc
      obtain ⟨s', hs, hi⟩ := inv_stepCallback false allocated hw.inv hok
      exact ⟨_, Option.map_eq_some_iff.2 ⟨s', hs, rfl⟩, hw.pushes hpc hi hs⟩
    · rename_i hdecide hpush
      obtain ⟨s', hs, hi⟩ := inv_stepCallback false allocated hw.inv hok
      obtain ⟨hflag, hfound, hafter⟩ := stepCallback_moves hs hdecide hpush hw.found
      refine ⟨_, Option.map_eq_some_iff.2 ⟨s', hs, rfl⟩, hw.moves hi ?_ hflag hfound hafter⟩
      exact (stepCallback_keeps hs hpush).1

/-- **The full time-out.**  In every run, whatever the clock says, each set is of a call that looked, and where that
call found an input empty, the inputs were incomplete since a call 500 ms before that restarted the timer, the first
that found them so, exactly if the flag had been taken back after each time before that they were incomplete. -/
theorem aggregator_waits_iff (n outputSize : Nat) (sizes : Nat → Nat) (t0 : Int) (as : List TimedAction)
    (hl : Legal (stepTimed n outputSize) ProperTimed (.start sizes t0) as) :
    ∃ t, run (stepTimed n outputSize) (.start sizes t0) as = some t ∧ t.log.map Prod.snd = t.agg.emitted ∧
      ∀ e ∈ t.log, ∃ last, e.1.getLast? = some last ∧
        (none ∈ last.seen → (Waited e.1 ↔ Cleared e.1)) := by
  obtain ⟨t, hr, hw⟩ := run_inv waiting_step as _ (waiting_start n outputSize sizes t0) hl
  exact ⟨t, hr, hw.emitted, hw.sound⟩

/-- A call of the callback, the clock read at its decision. -/
def callAt (reset now : Int) (steps : Nat) : List TimedAction :=
  .threadCallback :: List.replicate steps (.step reset now true)

/-- One input of two has a block, which leaves alone after 600 ms. -/
def lonelyRun : List TimedAction := .pushInput 0 ⟨1, 1⟩ :: callAt 0 10 6 ++ callAt 600000000 600000010 12

theorem aggregator_waits_lonelyRun :
    ∃ t, run (stepTimed 2 4) (.start (fun _ => 4) 0) lonelyRun = some t ∧ t.log.map Prod.snd = t.agg.emitted ∧
      ∀ e ∈ t.log, ∃ last, e.1.getLast? = some last ∧ (none ∈ last.seen → (Waited e.1 ↔ Cleared e.1)) :=
  aggregator_waits_iff 2 4 (fun _ => 4) 0 lonelyRun (by decide +kernel)

/-- The first input has block 1 while the second is empty, then the second gets block 2, with which block 1 leaves;
600 ms after the beginning a call finds the first input empty. -/
def differentRun : List TimedAction :=
  .pushInput 0 ⟨1, 1⟩ :: callAt 0 10 6 ++ .pushInput 1 ⟨2, 2⟩ :: callAt 300000000 300000010 14 ++
    callAt 600000000 600000010 12

/-- What the three calls find. -/
def differentCalls : List Sight :=
  [⟨[some 1, none], some 0, some 10⟩, ⟨[some 1, some 2], none, none⟩, ⟨[none, some 2], none, some 600000010⟩]

/-- **Block 2 leaves at once** in the first call that finds the other input empty: the timer is still the one of
block 1. -/
theorem different_not_waited :
    ∃ t, run (stepTimed 2 4) (.start (fun _ => 4) 0) differentRun = some t ∧
      Legal (stepTimed 2 4) ProperTimed (.start (fun _ => 4) 0) differentRun ∧
      ∃ e ∈ t.log, ∃ last, e.1.getLast? = some last ∧ none ∈ last.seen ∧ ¬ Waited e.1 := by
  have hlog : (run (stepTimed 2 4) (.start (fun _ => 4) 0) differentRun).map (fun t => t.log.map Prod.fst) =
      some [differentCalls.take 2, differentCalls] := by decide +kernel
  obtain ⟨t, hr, ht⟩ := Option.map_eq_some_iff.1 hlog
  obtain ⟨e, he, hcalls⟩ : ∃ e ∈ t.log, e.1 = differentCalls := List.mem_map.1 (by rw [ht]; simp)
  refine ⟨t, hr, by decide +kernel, e, he, _, by rw [hcalls]; rfl, by simp, ?_⟩
  rintro ⟨first, last, reset, now, hfirst, -, hreset, -⟩
  have hperiod : (period e.1).head? = some ⟨[none, some 2], none, some 600000010⟩ := by
    rw [hcalls]
    decide
  rw [Option.some.inj (hperiod.symm.trans hfirst).symm] at hreset
  cases hreset

end Readout
end Flp
