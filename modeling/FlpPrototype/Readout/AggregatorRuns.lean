import FlpPrototype.Readout.Aggregator
/-!
# AggregatorRuns — no block is lost, repeated or mixed

Only the callback takes from the inputs, so a block it saw at the head of an input stays there until it takes it; the
smallest id of the first loop is the id of such a block, which makes the set non-empty.  Only the callback pushes to
the output, so the room it saw at its start is there at its end.
-/
namespace Flp
namespace Readout

variable {n outputSize : Nat} {s s' : Aggregator}

/-- The first blocks of the inputs. -/
def Aggregator.heads (s : Aggregator) (i : Nat) : Option Block := (s.inputs i).queue.head?

/-- A set in the making: blocks of inputs before `i`, one of each at most and in their order, all of one id. -/
structure Collected (i : Nat) (minId : UInt64) (d : DataSet) : Prop where
  before : ∀ p ∈ d, p.1 < i
  same : ∀ p ∈ d, p.2.id = minId
  sorted : d.Pairwise (·.1 < ·.1)

/-- Some input from `i` on still has a block of the id at its head. -/
def Ahead (n : Nat) (heads : Nat → Option Block) (i : Nat) (minId : UInt64) : Prop :=
  ∃ j b, i ≤ j ∧ j < n ∧ heads j = some b ∧ b.id = minId

/-- The smallest id of the first loop is undefined so far or the id of a block at some head. -/
def Look.Found (n : Nat) (heads : Nat → Option Block) (a : Look) : Prop :=
  if a.allEmpty then a.minId = 0 else Ahead n heads 0 a.minId

/-- What the callback knows between its calls, with `len` sets in the output. -/
def Pc.Knows (n outputSize len : Nat) (heads : Nat → Option Block) : Pc → Prop
  | .idle | .isFull => True
  | .look i a => len < outputSize ∧ i < 2 ^ 32 ∧ a.Found n heads
  | .lookFront i a => len < outputSize ∧ i < n ∧ (∃ b, heads i = some b) ∧ a.Found n heads
  | .decide a => len < outputSize ∧ n < 2 ^ 32 ∧ a.Found n heads
  | .collect i minId d => len < outputSize ∧ n < 2 ^ 32 ∧ i ≤ n ∧ Collected i minId d ∧ (d ≠ [] ∨ Ahead n heads i minId)
  | .collectFront i minId d => len < outputSize ∧ n < 2 ^ 32 ∧ i < n ∧ (∃ b, heads i = some b) ∧
      Collected i minId d ∧ (d ≠ [] ∨ Ahead n heads i minId)
  | .collectPop i minId d b => len < outputSize ∧ n < 2 ^ 32 ∧ i < n ∧ heads i = some b ∧ b.id = minId ∧
      Collected i minId d
  | .push d => len < outputSize ∧ d ≠ [] ∧ ∃ minId, Collected n minId d

/-- An emitted set: not empty, at most one block of each input and in input order, one id. -/
structure Emitted (n : Nat) (d : DataSet) : Prop where
  ne_nil : d ≠ []
  inputs : ∀ p ∈ d, p.1 < n
  sorted : d.Pairwise (·.1 < ·.1)
  same : ∀ p ∈ d, ∀ q ∈ d, p.2.id = q.2.id

structure Inv (n outputSize : Nat) (s : Aggregator) : Prop where
  knows : s.pc.Knows n outputSize s.output.length s.heads
  queued : ∀ i, (s.inputs i).popped ++ (s.inputs i).queue = (s.inputs i).pushed
  popped : ∀ i, (s.inputs i).popped = fromInput i (s.emitted.flatten ++ s.pc.current)
  accepted : s.refused = []
  output : s.emitted = s.consumed ++ s.output
  sets : ∀ d ∈ s.emitted, Emitted n d

theorem inv_start (n outputSize : Nat) (sizes : Nat → Nat) : Inv n outputSize (.start sizes) where
  knows := trivial
  queued _ := rfl
  popped _ := rfl
  accepted := rfl
  output := rfl
  sets _ h := absurd h List.not_mem_nil

theorem Ahead.mono {heads heads' : Nat → Option Block} {i : Nat} {minId : UInt64} (h : Ahead n heads i minId)
    (hh : ∀ j b, heads j = some b → heads' j = some b) : Ahead n heads' i minId := by
  obtain ⟨j, b, h₁, h₂, h₃, h₄⟩ := h
  exact ⟨j, b, h₁, h₂, hh j b h₃, h₄⟩

theorem Look.Found.mono {heads heads' : Nat → Option Block} {a : Look} (h : a.Found n heads)
    (hh : ∀ j b, heads j = some b → heads' j = some b) : a.Found n heads' := by
  unfold Look.Found at *
  split
  · rename_i he
    rwa [if_pos he] at h
  · rename_i he
    rw [if_neg he] at h
    exact h.mono hh

/-- What the callback knows stays true while blocks are pushed to the inputs and sets are taken from the output. -/
theorem Pc.Knows.mono {p : Pc} {len len' : Nat} {heads heads' : Nat → Option Block}
    (h : p.Knows n outputSize len heads) (hl : len' ≤ len) (hh : ∀ j b, heads j = some b → heads' j = some b) :
    p.Knows n outputSize len' heads' := by
  cases p with
  | idle | isFull => trivial
  | look i a => exact ⟨Nat.lt_of_le_of_lt hl h.1, h.2.1, h.2.2.mono hh⟩
  | lookFront i a =>
    obtain ⟨h₁, h₂, ⟨b, hb⟩, h₄⟩ := h
    exact ⟨Nat.lt_of_le_of_lt hl h₁, h₂, ⟨b, hh i b hb⟩, h₄.mono hh⟩
  | decide a => exact ⟨Nat.lt_of_le_of_lt hl h.1, h.2.1, h.2.2.mono hh⟩
  | collect i minId d =>
    obtain ⟨h₁, h₂, h₃, h₄, h₅⟩ := h
    exact ⟨Nat.lt_of_le_of_lt hl h₁, h₂, h₃, h₄, h₅.imp_right (·.mono hh)⟩
  | collectFront i minId d =>
    obtain ⟨h₁, h₂, h₃, ⟨b, hb⟩, h₅, h₆⟩ := h
    exact ⟨Nat.lt_of_le_of_lt hl h₁, h₂, h₃, ⟨b, hh i b hb⟩, h₅, h₆.imp_right (·.mono hh)⟩
  | collectPop i minId d b =>
    obtain ⟨h₁, h₂, h₃, h₄, h₅⟩ := h
    exact ⟨Nat.lt_of_le_of_lt hl h₁, h₂, h₃, hh i b h₄, h₅⟩
  | push d => exact ⟨Nat.lt_of_le_of_lt hl h.1, h.2⟩

/-! ## The two loops -/

theorem succIndex_of_lt {i : Nat} (h : i + 1 < 2 ^ 32) : succIndex i = i + 1 := Nat.mod_eq_of_lt h

theorem Look.Found.miss {heads : Nat → Option Block} {a : Look} (h : a.Found n heads) : a.miss.Found n heads := h

theorem Look.Found.see {heads : Nat → Option Block} {a : Look} {i : Nat} {b : Block} (h : a.Found n heads)
    (hi : i < n) (hb : heads i = some b) : (a.see b.id).Found n heads := by
  unfold Look.Found at h ⊢
  simp only [Look.see, Bool.false_eq_true, if_false]
  by_cases hmin : a.minId = 0 ∨ b.id < a.minId
  · rw [if_pos hmin]
    exact ⟨i, b, Nat.zero_le i, hi, hb, rfl⟩
  · rw [if_neg hmin]
    by_cases he : a.allEmpty = true
    · rw [if_pos he] at h
      exact absurd (.inl h) hmin
    · rwa [if_neg he] at h

theorem Ahead.next {heads : Nat → Option Block} {i : Nat} {minId : UInt64} (h : Ahead n heads i minId)
    (hne : ∀ b, heads i = some b → b.id ≠ minId) : Ahead n heads (i + 1) minId := by
  obtain ⟨j, b, h₁, h₂, h₃, h₄⟩ := h
  refine ⟨j, b, Nat.lt_of_le_of_ne h₁ ?_, h₂, h₃, h₄⟩
  rintro rfl
  exact hne b h₃ h₄

theorem Collected.mono {i j : Nat} {minId : UInt64} {d : DataSet} (h : Collected i minId d) (hij : i ≤ j) :
    Collected j minId d :=
  ⟨fun p hp => Nat.lt_of_lt_of_le (h.before p hp) hij, h.same, h.sorted⟩

theorem Collected.snoc {i : Nat} {minId : UInt64} {d : DataSet} {b : Block} (h : Collected i minId d)
    (hb : b.id = minId) : Collected (i + 1) minId (d ++ [(i, b)]) where
  before p hp := by
    obtain hp | hp := List.mem_append.1 hp
    · exact Nat.lt_succ_of_lt (h.before p hp)
    · cases List.mem_singleton.1 hp
      exact Nat.lt_succ_self i
  same p hp := by
    obtain hp | hp := List.mem_append.1 hp
    · exact h.same p hp
    · cases List.mem_singleton.1 hp
      exact hb
  sorted := List.pairwise_append.2 ⟨h.sorted, List.pairwise_singleton _ _, fun p hp q hq => by
    cases List.mem_singleton.1 hq
    exact h.before p hp⟩

theorem Collected.emitted {minId : UInt64} {d : DataSet} (h : Collected n minId d) (hd : d ≠ []) : Emitted n d :=
  ⟨hd, h.before, h.sorted, fun p hp q hq => (h.same p hp).trans (h.same q hq).symm⟩

/-! ## Steps -/

theorem Inv.moves (hi : Inv n outputSize s) {p : Pc} {pending : Bool} {r : CallbackResult}
    (hp : p.Knows n outputSize s.output.length s.heads) (hc : p.current = s.pc.current) :
    Inv n outputSize { s with pc := p, isIncompletePending := pending, result := r } where
  knows := hp
  queued := hi.queued
  popped i := by rw [hc]; exact hi.popped i
  accepted := hi.accepted
  output := hi.output
  sets := hi.sets

theorem heads_of_ne_nil {i : Nat} (h : (s.inputs i).queue ≠ []) : ∃ b, s.heads i = some b :=
  ⟨_, List.head?_eq_some_head h⟩

theorem heads_of_nil {i : Nat} (h : (s.inputs i).queue = []) : s.heads i = none := by
  rw [Aggregator.heads, h, List.head?_nil]

theorem current_of {p q : Pc} (h : s.pc = p) (hq : q.current = p.current) : q.current = s.pc.current :=
  hq.trans (congrArg Pc.current h.symm)

/-- The callback has a next step, which keeps the invariant. -/
def GoesOn (n outputSize : Nat) (s : Aggregator) (isTimeout allocated : Bool) : Prop :=
  ∃ s', stepCallback n outputSize s isTimeout allocated = some s' ∧ Inv n outputSize s'

variable {isTimeout allocated : Bool} {i : Nat} {a : Look} {minId : UInt64} {d : DataSet} {b : Block}

theorem isFull_goesOn (hi : Inv n outputSize s) (h : s.pc = .isFull) : GoesOn n outputSize s isTimeout allocated := by
  unfold GoesOn stepCallback
  rw [h]
  by_cases hfull : outputSize ≤ s.output.length
  · exact ⟨_, if_pos hfull, hi.moves trivial (current_of h rfl)⟩
  · refine ⟨_, if_neg hfull, hi.moves ⟨Nat.lt_of_not_le hfull, Nat.two_pow_pos 32, ?_⟩ (current_of h rfl)⟩
    rfl

theorem look_goesOn (hi : Inv n outputSize s) (h : s.pc = .look i a) : GoesOn n outputSize s isTimeout allocated := by
  have hk := hi.knows
  rw [h] at hk
  obtain ⟨hlen, hlt, hfound⟩ := hk
  unfold GoesOn stepCallback
  rw [h]
  by_cases hin : i < n
  · by_cases hq : (s.inputs i).queue = []
    · refine ⟨s.goto (.look (succIndex i) a.miss), by simp only [if_pos hin, if_pos hq], ?_⟩
      exact hi.moves ⟨hlen, Nat.mod_lt _ (Nat.two_pow_pos 32), hfound.miss⟩ (current_of h rfl)
    · refine ⟨s.goto (.lookFront i a), by simp only [if_pos hin, if_neg hq], ?_⟩
      exact hi.moves ⟨hlen, hin, heads_of_ne_nil hq, hfound⟩ (current_of h rfl)
  · refine ⟨_, if_neg hin, hi.moves ⟨hlen, ?_, hfound⟩ (current_of h rfl)⟩
    exact Nat.lt_of_le_of_lt (Nat.le_of_not_lt hin) hlt

theorem lookFront_goesOn (hi : Inv n outputSize s) (h : s.pc = .lookFront i a) :
    GoesOn n outputSize s isTimeout allocated := by
  have hk := hi.knows
  rw [h] at hk
  obtain ⟨hlen, hin, ⟨b, hb⟩, hfound⟩ := hk
  unfold GoesOn stepCallback
  rw [h]
  refine ⟨s.goto (.look (succIndex i) (a.see b.id)), Option.map_eq_some_iff.2 ⟨b, hb, rfl⟩, ?_⟩
  exact hi.moves ⟨hlen, Nat.mod_lt _ (Nat.two_pow_pos 32), hfound.see hin hb⟩ (current_of h rfl)

/-- Behind the first loop: the callback returns, or a set is begun. -/
theorem decide_goesOn (hi : Inv n outputSize s) (h : s.pc = .decide a) : GoesOn n outputSize s isTimeout allocated := by
  have hk := hi.knows
  rw [h] at hk
  obtain ⟨hlen, hsmall, hfound⟩ := hk
  unfold GoesOn stepCallback
  rw [h]
  by_cases hall : a.allEmpty = true
  · exact ⟨_, if_pos hall, hi.moves trivial (current_of h rfl)⟩
  · simp only [if_neg hall]
    by_cases hwait : (a.someEmpty && !isTimeout) = true
    · exact ⟨_, if_pos hwait, hi.moves trivial (current_of h rfl)⟩
    · simp only [if_neg hwait]
      cases allocated with
      | false => exact ⟨_, rfl, hi.moves trivial (current_of h rfl)⟩
      | true =>
        rw [Look.Found, if_neg hall] at hfound
        refine ⟨_, rfl, hi.moves ⟨hlen, hsmall, Nat.zero_le n, ⟨?_, ?_, .nil⟩, .inr hfound⟩ (current_of h rfl)⟩
        · exact fun p hp => absurd hp List.not_mem_nil
        · exact fun p hp => absurd hp List.not_mem_nil

theorem collect_goesOn (hi : Inv n outputSize s) (h : s.pc = .collect i minId d) :
    GoesOn n outputSize s isTimeout allocated := by
  have hk := hi.knows
  rw [h] at hk
  obtain ⟨hlen, hsmall, hle, hcol, hahead⟩ := hk
  unfold GoesOn stepCallback
  rw [h]
  by_cases hin : i < n
  · by_cases hq : (s.inputs i).queue = []
    · refine ⟨s.goto (.collect (succIndex i) minId d), by simp only [if_pos hin, if_pos hq], ?_⟩
      rw [succIndex_of_lt (by omega)]
      refine hi.moves ⟨hlen, hsmall, hin, hcol.mono (Nat.le_succ i), hahead.imp_right fun ha => ha.next ?_⟩
        (current_of h rfl)
      intro b hb
      rw [heads_of_nil hq] at hb
      cases hb
    · refine ⟨s.goto (.collectFront i minId d), by simp only [if_pos hin, if_neg hq], ?_⟩
      exact hi.moves ⟨hlen, hsmall, hin, heads_of_ne_nil hq, hcol, hahead⟩ (current_of h rfl)
  · have hn : i = n := by omega
    subst hn
    refine ⟨_, if_neg hin, hi.moves ⟨hlen, hahead.resolve_right ?_, minId, hcol⟩ (current_of h rfl)⟩
    rintro ⟨j, b, h₁, h₂, -⟩
    omega

theorem collectFront_goesOn (hi : Inv n outputSize s) (h : s.pc = .collectFront i minId d) :
    GoesOn n outputSize s isTimeout allocated := by
  have hk := hi.knows
  rw [h] at hk
  obtain ⟨hlen, hsmall, hin, ⟨b, hb⟩, hcol, hahead⟩ := hk
  unfold GoesOn stepCallback
  rw [h]
  by_cases hid : b.id = minId
  · refine ⟨s.goto (.collectPop i minId d b), Option.map_eq_some_iff.2 ⟨b, hb, if_pos hid⟩, ?_⟩
    exact hi.moves ⟨hlen, hsmall, hin, hb, hid, hcol⟩ (current_of h rfl)
  · refine ⟨s.goto (.collect (succIndex i) minId d), Option.map_eq_some_iff.2 ⟨b, hb, if_neg hid⟩, ?_⟩
    rw [succIndex_of_lt (by omega)]
    refine hi.moves ⟨hlen, hsmall, hin, hcol.mono (Nat.le_succ i), hahead.imp_right fun ha => ha.next ?_⟩
      (current_of h rfl)
    intro c hcb
    rwa [← Option.some.inj (hb.symm.trans hcb)]

/-- **A block is taken** for the set. -/
theorem collectPop_goesOn (hi : Inv n outputSize s) (h : s.pc = .collectPop i minId d b) :
    GoesOn n outputSize s isTimeout allocated := by
  have hk := hi.knows
  rw [h] at hk
  obtain ⟨hlen, hsmall, hin, hb, hid, hcol⟩ := hk
  unfold GoesOn stepCallback
  rw [h]
  refine ⟨_, rfl, ⟨hlen, hsmall, ?_, ?_, .inl (by simp)⟩, fun j => ?_, fun j => ?_, hi.accepted, hi.output, hi.sets⟩
  · rw [succIndex_of_lt (by omega)]
    exact hin
  · rw [succIndex_of_lt (by omega)]
    exact hcol.snoc hid
  · by_cases hj : j = i
    · subst hj
      simpa using Input.pop_pushed (hi.queued j)
    · simpa [hj] using hi.queued j
  · have hpop := hi.popped j
    rw [h, Pc.current] at hpop
    rw [Pc.current, ← List.append_assoc, fromInput_append, ← hpop]
    by_cases hj : j = i
    · subst hj
      simp [Input.pop_popped hb]
    · simp [hj, fromInput_other b (Ne.symm hj)]

/-- **The set is emitted.** -/
theorem push_goesOn (hi : Inv n outputSize s) (h : s.pc = .push d) : GoesOn n outputSize s isTimeout allocated := by
  have hk := hi.knows
  rw [h] at hk
  obtain ⟨hlen, hne, minId, hcol⟩ := hk
  unfold GoesOn stepCallback
  rw [h]
  refine ⟨_, if_pos hlen, trivial, hi.queued, fun i => ?_, hi.accepted, ?_, fun e he => ?_⟩
  · have hpop := hi.popped i
    rw [h, Pc.current] at hpop
    simpa [Pc.current] using hpop
  · rw [hi.output, List.append_assoc]
  · obtain he | he := List.mem_append.1 he
    · exact hi.sets e he
    · cases List.mem_singleton.1 he
      exact hcol.emitted hne

/-- **Every step of the callback** has a result and keeps the invariant. -/
theorem inv_stepCallback (isTimeout allocated : Bool) (hi : Inv n outputSize s) (hpc : s.pc ≠ .idle) :
    ∃ s', stepCallback n outputSize s isTimeout allocated = some s' ∧ Inv n outputSize s' := by
  cases h : s.pc with
  | idle => exact absurd h hpc
  | isFull => exact isFull_goesOn hi h
  | look i a => exact look_goesOn hi h
  | lookFront i a => exact lookFront_goesOn hi h
  | decide a => exact decide_goesOn hi h
  | collect i minId d => exact collect_goesOn hi h
  | collectFront i minId d => exact collectFront_goesOn hi h
  | collectPop i minId d b => exact collectPop_goesOn hi h
  | push d => exact push_goesOn hi h

/-- **Every step of the system** keeps the invariant. -/
theorem inv_step (s : Aggregator) (a : Action) (hi : Inv n outputSize s) (hok : Proper s a) :
    ∃ s', step n outputSize s a = some s' ∧ Inv n outputSize s' := by
  cases a with
  | threadCallback => exact ⟨_, rfl, hi.moves trivial (by rw [hok]; rfl)⟩
  | step isTimeout allocated => exact inv_stepCallback isTimeout allocated hi hok
  | pushInput i b =>
    refine ⟨_, rfl, hi.knows.mono (Nat.le_refl _) fun j c hj => ?_, fun j => ?_, fun j => ?_, hi.accepted, hi.output,
      hi.sets⟩
    · by_cases hij : j = i
      · subst hij
        simpa [Aggregator.heads] using Input.push_head hj
      · simpa [Aggregator.heads, hij] using hj
    · by_cases hij : j = i
      · subst hij
        simpa using Input.push_pushed b (hi.queued j)
      · simpa [hij] using hi.queued j
    · refine Eq.trans ?_ (hi.popped j)
      by_cases hij : j = i
      · subst hij
        simp [Input.push_popped]
      · simp [hij]
  | popOutput =>
    rw [step]
    cases ho : s.output with
    | nil => exact ⟨s, rfl, hi⟩
    | cons d rest =>
      have hknows := hi.knows
      have hout := hi.output
      rw [ho] at hknows hout
      refine ⟨_, rfl, hknows.mono (Nat.le_succ _) fun _ _ h => h, hi.queued, hi.popped, hi.accepted, ?_, hi.sets⟩
      simpa using hout

/-- **Conservation.**  For each input, what was popped and what is queued is what was pushed, in order, and what was
popped is what the emitted sets, and the one under construction, took from it, in order; every set that was pushed was
accepted by the output; every emitted set is not empty, has at most one block of each input, in input order, and one
id. -/
structure Conserved (n : Nat) (s : Aggregator) : Prop where
  queued : ∀ i, (s.inputs i).popped ++ (s.inputs i).queue = (s.inputs i).pushed
  popped : ∀ i, (s.inputs i).popped = fromInput i (s.emitted.flatten ++ s.pc.current)
  accepted : s.refused = [] ∧ s.emitted = s.consumed ++ s.output
  sets : ∀ d ∈ s.emitted, Emitted n d

/-- **The aggregator conserves its blocks** in every run, whatever is pushed, popped and timed out in between. -/
theorem aggregator_conserves (n outputSize : Nat) (sizes : Nat → Nat) (as : List Action)
    (hl : Legal (step n outputSize) Proper (.start sizes) as) :
    ∃ s, run (step n outputSize) (.start sizes) as = some s ∧ Conserved n s ∧
      (s.pc = .idle → ∀ i, (s.inputs i).popped = fromInput i s.emitted.flatten) := by
  obtain ⟨s, hr, hi⟩ := run_inv inv_step as _ (inv_start n outputSize sizes) hl
  refine ⟨s, hr, ⟨hi.queued, hi.popped, ⟨hi.accepted, hi.output⟩, hi.sets⟩, fun hidle i => ?_⟩
  have hpop := hi.popped i
  rw [hidle] at hpop
  simpa [Pc.current] using hpop

/-- Two inputs with blocks of one id, the second of which comes while the callback looks at the first. -/
def meetingRun : List Action :=
  .pushInput 0 ⟨7, 1⟩ :: .threadCallback :: List.replicate 3 (.step false true) ++ .pushInput 1 ⟨7, 2⟩ ::
    List.replicate 12 (.step false true) ++ [.popOutput]

theorem aggregator_conserves_meetingRun : ∃ s, run (step 2 1) (.start fun _ => 4) meetingRun = some s ∧
    Conserved 2 s ∧ (s.pc = .idle → ∀ i, (s.inputs i).popped = fromInput i s.emitted.flatten) :=
  aggregator_conserves 2 1 (fun _ => 4) meetingRun (by decide +kernel)

/-- The two blocks leave in one set. -/
example :
    (run (step 2 1) (.start fun _ => 4) meetingRun).map Aggregator.consumed = some [[(0, ⟨7, 1⟩), (1, ⟨7, 2⟩)]] := by
  decide +kernel

end Readout
end Flp
