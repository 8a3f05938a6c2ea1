import Mathlib.Init
/-!
# Run — runs of a step function that may have no result

A system is a step function `σ → α → Option σ`, `none` being a step without a defined result.  A run takes a list of
steps (`run`); which step the surroundings may take in a state is a predicate of both (`Legal`).  An invariant that
every legal step keeps holds after every legal run: `run_inv` for steps that have a result, `run_keeps` for runs known
to have one.
-/
namespace Flp

variable {σ α : Type}

/-- The state after a list of steps. -/
def run (step : σ → α → Option σ) : σ → List α → Option σ
  | s, []      => some s
  | s, a :: as => (step s a).bind fun s' => run step s' as

/-- Every step of the run is one that may be taken in the state it is taken in. -/
def Legal (step : σ → α → Option σ) (ok : σ → α → Prop) : σ → List α → Prop
  | _, []      => True
  | s, a :: as => ok s a ∧ ∀ s', step s a = some s' → Legal step ok s' as

variable {step : σ → α → Option σ} {ok : σ → α → Prop}

instance Legal.decidable [∀ s a, Decidable (ok s a)] : (s : σ) → (as : List α) → Decidable (Legal step ok s as)
  | _, []      => isTrue trivial
  | s, a :: as =>
    match h : step s a with
    | none    => decidable_of_iff (ok s a) (by simp [Legal, h])
    | some s' =>
      have : Decidable (Legal step ok s' as) := Legal.decidable s' as
      decidable_of_iff (ok s a ∧ Legal step ok s' as) (by simp [Legal, h])

theorem run_cons {s s' : σ} {a : α} {as : List α} (h : step s a = some s') : run step s (a :: as) = run step s' as := by
  rw [run, h]
  rfl

theorem run_append : ∀ (as bs : List α) (s : σ), run step s (as ++ bs) = (run step s as).bind (run step · bs)
  | [], _, _ => rfl
  | a :: as, bs, s => by
    rw [List.cons_append, run, run]
    cases step s a with
    | none => rfl
    | some s' => exact run_append as bs s'

theorem Legal.append : ∀ {as bs : List α} {s : σ}, Legal step ok s (as ++ bs) ↔
    Legal step ok s as ∧ ∀ s', run step s as = some s' → Legal step ok s' bs
  | [], bs, s => by simp [Legal, run]
  | a :: as, bs, s => by
    simp only [List.cons_append, Legal, Legal.append, run]
    constructor
    · rintro ⟨h, hs⟩
      refine ⟨⟨h, fun s' h' => (hs s' h').1⟩, fun s' h' => ?_⟩
      obtain ⟨s₁, h₁, h₂⟩ := Option.bind_eq_some_iff.1 h'
      exact (hs s₁ h₁).2 s' h₂
    · rintro ⟨⟨h, hs⟩, hb⟩
      exact ⟨h, fun s' h' => ⟨hs s' h', fun s'' h'' => hb s'' (by rw [h']; exact h'')⟩⟩

theorem Legal.and {ok' : σ → α → Prop} : ∀ {as : List α} {s : σ}, Legal step ok s as →
    (∀ a ∈ as, ∀ s, ok' s a) → Legal step (fun s a => ok s a ∧ ok' s a) s as
  | [], _, _, _ => trivial
  | a :: _, s, h, h' =>
    ⟨⟨h.1, h' a List.mem_cons_self s⟩, fun s' hs => (h.2 s' hs).and fun b hb => h' b (List.mem_cons_of_mem _ hb)⟩

theorem Legal.mono {ok' : σ → α → Prop} (h : ∀ s a, ok s a → ok' s a) : ∀ {as : List α} {s : σ}, Legal step ok s as →
    Legal step ok' s as
  | [], _, _     => trivial
  | _ :: _, _, hl => ⟨h _ _ hl.1, fun s' hs => (hl.2 s' hs).mono h⟩

/-- A rule every step with a result keeps to is kept by a run with a result. -/
theorem legal_of_run (h : ∀ s a s', step s a = some s' → ok s a) : ∀ (as : List α) (s s' : σ), run step s as = some s' →
    Legal step ok s as
  | [], _, _, _ => trivial
  | a :: as, s, s', hr => by
    obtain ⟨s₁, h₁, hr⟩ := Option.bind_eq_some_iff.1 hr
    refine ⟨h s a s₁ h₁, fun s₂ h₂ => ?_⟩
    obtain rfl := Option.some.inj (h₁.symm.trans h₂)
    exact legal_of_run h as s₁ s' hr

theorem legal_true : ∀ (as : List α) (s : σ), Legal step (fun _ _ => True) s as
  | [], _      => trivial
  | _ :: as, _ => ⟨trivial, fun s' _ => legal_true as s'⟩

/-- **Steps that have a result and keep an invariant** make runs that have a result and end in it. -/
theorem run_inv {I : σ → Prop} (hstep : ∀ s a, I s → ok s a → ∃ s', step s a = some s' ∧ I s') :
    ∀ (as : List α) (s : σ), I s → Legal step ok s as → ∃ s', run step s as = some s' ∧ I s'
  | [], s, hi, _ => ⟨s, rfl, hi⟩
  | a :: as, s, hi, hl => by
    obtain ⟨s₁, h₁, hi₁⟩ := hstep s a hi hl.1
    obtain ⟨s', h', hi'⟩ := run_inv hstep as s₁ hi₁ (hl.2 s₁ h₁)
    exact ⟨s', by rw [run_cons h₁]; exact h', hi'⟩

/-- **Steps that keep an invariant whenever they have a result** keep it along every run that has one. -/
theorem run_keeps {I : σ → Prop} (hstep : ∀ s a s', I s → ok s a → step s a = some s' → I s') :
    ∀ (as : List α) (s s' : σ), I s → Legal step ok s as → run step s as = some s' → I s'
  | [], s, s', hi, _, hr => by
    obtain rfl := Option.some.inj hr
    exact hi
  | a :: as, s, s', hi, hl, hr => by
    obtain ⟨s₁, h₁, hr'⟩ := Option.bind_eq_some_iff.1 hr
    exact run_keeps hstep as s₁ s' (hstep s a s₁ hi hl.1 h₁) (hl.2 s₁ h₁) hr'

/-- **A rule that says which steps keep a property**: with an invariant behind it, a run has the property throughout
exactly when its steps obey the rule. -/
theorem forall_prefix_iff_legal {I P : σ → Prop} (hP : ∀ s, I s → P s)
    (hkeeps : ∀ s a, I s → ok s a → ∃ s', step s a = some s' ∧ I s')
    (hbreaks : ∀ s a s', I s → ¬ ok s a → step s a = some s' → ¬ P s') : ∀ (as : List α) (s : σ), I s →
      ((∀ bs, bs <+: as → ∃ s', run step s bs = some s' ∧ P s') ↔ Legal step ok s as)
  | [], s, hi => by
    refine ⟨fun _ => trivial, fun _ bs hbs => ⟨s, ?_, hP s hi⟩⟩
    rw [List.prefix_nil.1 hbs]
    rfl
  | a :: as, s, hi => by
    constructor
    · intro h
      obtain ⟨s₁, h₁, hp₁⟩ := h [a] (List.prefix_append [a] as)
      obtain ⟨s₂, h₂, h₃⟩ := Option.bind_eq_some_iff.1 h₁
      obtain rfl := Option.some.inj h₃
      have ha : ok s a := Classical.byContradiction fun hn => hbreaks s a s₂ hi hn h₂ hp₁
      obtain ⟨s₃, h₃, hi₃⟩ := hkeeps s a hi ha
      refine ⟨ha, fun s' hs' => ?_⟩
      obtain rfl := Option.some.inj (h₃.symm.trans hs')
      refine (forall_prefix_iff_legal hP hkeeps hbreaks as s₃ hi₃).1 fun bs hbs => ?_
      obtain ⟨s', hs', hp'⟩ := h (a :: bs) (List.cons_prefix_cons.2 ⟨rfl, hbs⟩)
      exact ⟨s', (run_cons h₃).symm.trans hs', hp'⟩
    · rintro ⟨ha, hl⟩ bs hbs
      obtain ⟨s₁, h₁, hi₁⟩ := hkeeps s a hi ha
      cases bs with
      | nil => exact ⟨s, rfl, hP s hi⟩
      | cons b bs =>
        obtain ⟨rfl, hbs'⟩ := List.cons_prefix_cons.1 hbs
        obtain ⟨s', hs', hp'⟩ := (forall_prefix_iff_legal hP hkeeps hbreaks as s₁ hi₁).2 (hl s₁ h₁) bs hbs'
        exact ⟨s', (run_cons h₁).trans hs', hp'⟩

/-- **A rule that says which steps are as they should be**: with an invariant and the rule of the surroundings behind
it, every step of a run is as it should be exactly when every step obeys the rule. -/
theorem legal_iff {I : σ → Prop} {env P : σ → α → Prop} (hiff : ∀ s a, I s → env s a → (P s a ↔ ok s a))
    (hkeeps : ∀ s a s', I s → env s a → step s a = some s' → I s') :
    ∀ (as : List α) (s : σ), I s → Legal step env s as → (Legal step P s as ↔ Legal step ok s as)
  | [], _, _, _ => Iff.rfl
  | a :: as, s, hi, henv => by
    have hrest : ∀ s', step s a = some s' → (Legal step P s' as ↔ Legal step ok s' as) := fun s' hs =>
      legal_iff hiff hkeeps as s' (hkeeps s a s' hi henv.1 hs) (henv.2 s' hs)
    constructor
    · rintro ⟨ha, hl⟩
      exact ⟨(hiff s a hi henv.1).1 ha, fun s' hs => (hrest s' hs).1 (hl s' hs)⟩
    · rintro ⟨ha, hl⟩
      exact ⟨(hiff s a hi henv.1).2 ha, fun s' hs => (hrest s' hs).2 (hl s' hs)⟩

/-- A legal list of steps that leads from one state to another. -/
def Gets (step : σ → α → Option σ) (ok : σ → α → Prop) (s : σ) (as : List α) (s' : σ) : Prop :=
  Legal step ok s as ∧ run step s as = some s'

theorem Gets.nil {s : σ} : Gets step ok s [] s := ⟨trivial, rfl⟩

theorem Gets.cons {s s₁ s' : σ} {a : α} {as : List α} (hok : ok s a) (ha : step s a = some s₁)
    (h : Gets step ok s₁ as s') : Gets step ok s (a :: as) s' := by
  refine ⟨⟨hok, fun s₂ h₂ => ?_⟩, by rw [run_cons ha]; exact h.2⟩
  obtain rfl := Option.some.inj (ha.symm.trans h₂)
  exact h.1

theorem Gets.append {s s₁ s' : σ} {as bs : List α} (h : Gets step ok s as s₁) (h' : Gets step ok s₁ bs s') :
    Gets step ok s (as ++ bs) s' := by
  refine ⟨Legal.append.2 ⟨h.1, fun s₂ h₂ => ?_⟩, by rw [run_append, h.2]; exact h'.2⟩
  obtain rfl := Option.some.inj (h.2.symm.trans h₂)
  exact h'.1

/-- A legal list of steps, and what holds behind it if it has a result. -/
def Leads (step : σ → α → Option σ) (ok : σ → α → Prop) (s : σ) (as : List α) (P : σ → Prop) : Prop :=
  Legal step ok s as ∧ ∀ s', run step s as = some s' → P s'

theorem Leads.nil {s : σ} {P : σ → Prop} (h : P s) : Leads step ok s [] P :=
  ⟨trivial, fun _ hr => by obtain rfl := Option.some.inj hr; exact h⟩

theorem Leads.one {s : σ} {a : α} {P : σ → Prop} (h : ok s a) (hP : ∀ s', step s a = some s' → P s') :
    Leads step ok s [a] P := by
  refine ⟨⟨h, fun _ _ => trivial⟩, fun s' hr => hP s' ?_⟩
  obtain ⟨s₁, h₁, hr'⟩ := Option.bind_eq_some_iff.1 hr
  obtain rfl := Option.some.inj hr'
  exact h₁

theorem Leads.append {s : σ} {as bs : List α} {P Q : σ → Prop} (h : Leads step ok s as P)
    (hb : ∀ s', P s' → Leads step ok s' bs Q) : Leads step ok s (as ++ bs) Q := by
  refine ⟨Legal.append.2 ⟨h.1, fun s' hr => (hb s' (h.2 s' hr)).1⟩, fun s' hr => ?_⟩
  rw [run_append] at hr
  obtain ⟨s₁, h₁, h₂⟩ := Option.bind_eq_some_iff.1 hr
  exact (hb s₁ (h.2 s₁ h₁)).2 s' h₂

end Flp
