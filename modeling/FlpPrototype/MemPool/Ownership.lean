import FlpPrototype.MemPool.Alone
/-!
# Ownership — a page has one owner at a time

The flags alone carry ownership: a page that is owned, on its way to a caller or on its way back has its flag set, and
is in one of these situations for one thread only (`Inv`).  Nothing is asked of the positions but their range.  For the
range the sum `lastPageIndexGet + 1 + i` must not pass the largest `int`, which takes at most `2^30` pages.
-/
namespace Flp
namespace MemPool

variable {T : Table} {s s' : State}

/-- The iterations a call has begun. -/
def Pc.iterations : Pc → Nat
  | .getLoop i _ | .releaseLoop _ i => i
  | .getTest i _ _                  => i + 1
  | _                               => 0

/-- The index a thread goes on to use. -/
def Pc.index : Pc → Option Int
  | .getTest _ ix _ | .getStore ix | .releaseClear _ ix | .releaseStore _ ix => some ix
  | _                                                                        => none

/-- The thread is handing page `ix` to its caller, or taking it back. -/
def Pc.Holds (T : Table) (ix : Int) : Pc → Prop
  | .getStore newIx          => newIx = ix
  | .releaseLoop p _         => T.page ix = some p
  | .releaseClear p _        => T.page ix = some p
  | _                        => False

/-- A place the calls reach. -/
structure Pc.Within (T : Table) (p : Pc) : Prop where
  iterations_le : p.iterations ≤ T.numberOfPages
  index_has : ∀ ix ∈ p.index, T.Has ix
  clears : ∀ q ix, p = .releaseClear q ix → T.page ix = some q

structure Inv (T : Table) (s : State) : Prop where
  get : T.Position s.lastPageIndexGet
  release : T.Position s.lastPageIndexRelease
  within : ∀ t, (s.pc t).Within T
  nodup : s.owned.Nodup
  flagged : ∀ p ∈ s.owned, ∃ ix, T.page ix = some p ∧ s.pageIsUsed ix = true
  holds : ∀ t ix, (s.pc t).Holds T ix → s.pageIsUsed ix = true ∧ ∀ p ∈ T.page ix, p ∉ s.owned
  alone : ∀ t u ix, (s.pc t).Holds T ix → (s.pc u).Holds T ix → t = u

theorem Inv.start : Inv T .start where
  get := T.position_start
  release := T.position_start
  within _ := ⟨Nat.zero_le _, (fun _ h => by cases h), (fun _ _ h => by cases h)⟩
  nodup := List.nodup_nil
  flagged _ h := absurd h List.not_mem_nil
  holds _ _ h := h.elim
  alone _ _ _ h := h.elim

theorem Pc.Within.idle : Pc.Within T .idle :=
  ⟨Nat.zero_le _, (fun _ h => by cases h), (fun _ _ h => by cases h)⟩

theorem Pc.Within.getLoop {i : Nat} {found : List Int} (hi : i ≤ T.numberOfPages) : Pc.Within T (.getLoop i found) :=
  ⟨hi, (fun _ h => by cases h), (fun _ _ h => by cases h)⟩

theorem Pc.Within.releaseLoop {p i : Nat} (hi : i ≤ T.numberOfPages) : Pc.Within T (.releaseLoop p i) :=
  ⟨hi, (fun _ h => by cases h), (fun _ _ h => by cases h)⟩

theorem Pc.Within.getTest {i : Nat} {ix : Int} {found : List Int} (hi : i < T.numberOfPages) (h : T.Has ix) :
    Pc.Within T (.getTest i ix found) :=
  ⟨hi, (fun _ hx => by cases hx; exact h), (fun _ _ h => by cases h)⟩

theorem Pc.Within.update {f : Nat → Pc} {t : Nat} {p : Pc} (hp : p.Within T) (h : ∀ u, (f u).Within T) (u : Nat) :
    (Function.update f t p u).Within T := by
  by_cases hu : u = t
  · rwa [hu, Function.update_self]
  · rw [Function.update_of_ne hu]
    exact h u

theorem holds_update {f : Nat → Pc} {t u : Nat} {p : Pc} {ix : Int} (h : (Function.update f t p u).Holds T ix) :
    u = t ∧ p.Holds T ix ∨ u ≠ t ∧ (f u).Holds T ix := by
  by_cases hu : u = t
  · subst hu
    rw [Function.update_self] at h
    exact .inl ⟨rfl, h⟩
  · rw [Function.update_of_ne hu] at h
    exact .inr ⟨hu, h⟩

/-- **A thread that moves on without taking hold of a page** keeps the invariant. -/
theorem Inv.move (hi : Inv T s) {t : Nat} {p : Pc} (hw : p.Within T)
    (hh : ∀ ix, p.Holds T ix → (s.pc t).Holds T ix) (hpc : s'.pc = Function.update s.pc t p)
    (hu : s'.pageIsUsed = s.pageIsUsed) (ho : s'.owned = s.owned) (hg : T.Position s'.lastPageIndexGet)
    (hr : T.Position s'.lastPageIndexRelease) : Inv T s' := by
  have hback : ∀ u ix, (s'.pc u).Holds T ix → (s.pc u).Holds T ix := by
    intro u ix h
    rw [hpc] at h
    obtain ⟨rfl, hp⟩ | ⟨-, hu⟩ := holds_update h
    · exact hh ix hp
    · exact hu
  refine ⟨hg, hr, fun u => ?_, ho ▸ hi.nodup, ?_, fun u ix h => ?_, fun u v ix h h' => ?_⟩
  · rw [hpc]
    exact hw.update hi.within u
  · rw [ho, hu]
    exact hi.flagged
  · rw [ho, hu]
    exact hi.holds u ix (hback u ix h)
  · exact hi.alone u v ix (hback u ix h) (hback v ix h')

/-- **A successful `test_and_set`** takes hold of a page nobody has. -/
theorem Inv.acquire (hi : Inv T s) {t i : Nat} {ix : Int} {found : List Int} (hpc : s.pc t = .getTest i ix found)
    (hfree : s.pageIsUsed ix = false) :
    Inv T { s with
      pc := Function.update s.pc t (.getStore ix), pageIsUsed := Function.update s.pageIsUsed ix true } := by
  have hhas : T.Has ix := (hi.within t).index_has ix (by rw [hpc]; rfl)
  have hidle : ∀ jx, ¬ (s.pc t).Holds T jx := by
    rw [hpc]
    exact fun _ h => h
  have hother : ∀ u, ¬ (s.pc u).Holds T ix := fun u h => by simp [(hi.holds u ix h).1] at hfree
  have hkeep : ∀ jx, s.pageIsUsed jx = true → Function.update s.pageIsUsed ix true jx = true := by
    intro jx h
    by_cases hj : jx = ix
    · rw [hj, Function.update_self]
    · rwa [Function.update_of_ne hj]
  refine ⟨hi.get, hi.release, ?_, hi.nodup, fun p hp => ?_, ?_, fun u v jx hu hv => ?_⟩
  · refine Pc.Within.update ⟨Nat.zero_le _, fun jx hj => ?_, fun _ _ h => by cases h⟩ hi.within
    cases hj
    exact hhas
  · obtain ⟨jx, hj, hf⟩ := hi.flagged p hp
    exact ⟨jx, hj, hkeep jx hf⟩
  · intro u jx h
    obtain ⟨rfl, rfl⟩ | ⟨-, h⟩ := holds_update h
    · refine ⟨Function.update_self .., fun p hp hmem => ?_⟩
      obtain ⟨jx, hj, hf⟩ := hi.flagged p hmem
      rw [T.page_inj hj hp, hfree] at hf
      cases hf
    · exact ⟨hkeep jx (hi.holds u jx h).1, (hi.holds u jx h).2⟩
  · obtain ⟨rfl, hx⟩ | ⟨-, hx⟩ := holds_update hu <;> obtain ⟨rfl, hy⟩ | ⟨-, hy⟩ := holds_update hv
    · rfl
    · obtain rfl : ix = jx := hx
      exact absurd hy (hother v)
    · obtain rfl : ix = jx := hy
      exact absurd hx (hother u)
    · exact hi.alone u v jx hx hy

/-- **`getPage` returns**: the page passes from the call to its caller. -/
theorem Inv.hand (hi : Inv T s) {t p : Nat} {ix : Int} (hpc : s.pc t = .getStore ix) (hp : T.page ix = some p) :
    Inv T { s with
      pc := Function.update s.pc t .idle, lastPageIndexGet := ix, owned := p :: s.owned,
      history := s.history ++ [.got t p] } := by
  obtain ⟨hu, hfree⟩ := hi.holds t ix (by rw [hpc]; exact rfl)
  have hback : ∀ u jx, (Function.update s.pc t .idle u).Holds T jx → u ≠ t ∧ (s.pc u).Holds T jx := by
    intro u jx h
    obtain ⟨-, h'⟩ | h' := holds_update h
    · cases h'
    · exact h'
  refine ⟨(Table.has_of_page hp).position, hi.release, ?_, ?_, fun q hq => ?_, fun u jx h => ?_, fun u v jx h h' => ?_⟩
  · exact Pc.Within.idle.update hi.within
  · exact List.nodup_cons.2 ⟨hfree p hp, hi.nodup⟩
  · obtain rfl | hq := List.mem_cons.1 hq
    · exact ⟨ix, hp, hu⟩
    · exact hi.flagged q hq
  · obtain ⟨hne, hheld⟩ := hback u jx h
    refine ⟨(hi.holds u jx hheld).1, fun q hq hmem => ?_⟩
    obtain rfl | hmem := List.mem_cons.1 hmem
    · rw [T.page_inj hq hp] at hheld
      exact hne (hi.alone u t ix hheld (by rw [hpc]; exact rfl))
    · exact (hi.holds u jx hheld).2 q hq hmem
  · exact hi.alone u v jx (hback u jx h).2 (hback v jx h').2

/-- **A release clears** the flag of a page that is nobody else's. -/
theorem Inv.clear (hi : Inv T s) {t p : Nat} {ix : Int} (hpc : s.pc t = .releaseClear p ix) :
    Inv T { s with
      pc := Function.update s.pc t (.releaseStore p ix), pageIsUsed := Function.update s.pageIsUsed ix false } := by
  have hp : T.page ix = some p := (hi.within t).clears p ix hpc
  have hheld : (s.pc t).Holds T ix := by
    rw [hpc]
    exact hp
  have hback : ∀ u jx, (Function.update s.pc t (.releaseStore p ix) u).Holds T jx →
      jx ≠ ix ∧ (s.pc u).Holds T jx := by
    intro u jx h
    obtain ⟨-, h'⟩ | ⟨hu, h'⟩ := holds_update h
    · cases h'
    · refine ⟨?_, h'⟩
      rintro rfl
      exact hu (hi.alone u t jx h' hheld)
  refine ⟨hi.get, hi.release, ?_, hi.nodup, fun q hq => ?_, fun u jx h => ?_, fun u v jx h h' => ?_⟩
  · refine Pc.Within.update ⟨Nat.zero_le _, fun jx hj => ?_, fun _ _ h => by cases h⟩ hi.within
    cases hj
    exact T.has_of_page hp
  · obtain ⟨jx, hj, hf⟩ := hi.flagged q hq
    have hne : jx ≠ ix := by
      rintro rfl
      exact (hi.holds t jx hheld).2 q hj hq
    exact ⟨jx, hj, (Function.update_of_ne hne ..).trans hf⟩
  · obtain ⟨hne, hu⟩ := hback u jx h
    exact ⟨(Function.update_of_ne hne ..).trans (hi.holds u jx hu).1, (hi.holds u jx hu).2⟩
  · exact hi.alone u v jx (hback u jx h).2 (hback v jx h').2

/-- **A call starts**: a page the caller gives back is its own no longer. -/
theorem Inv.call (hi : Inv T s) {t : Nat} {c : Call} (hpc : s.pc t = .idle)
    (hown : ∀ p ∈ c.released, p ∈ T.pages → p ∈ s.owned) :
    Inv T { s with
      pc := Function.update s.pc t c.entry, owned := s.owned.filter (some · ≠ c.released) } := by
  have hwithin : c.entry.Within T := by
    obtain _ | p | (_ | p) | (_ | p) := c
    · exact .getLoop (Nat.zero_le _)
    · exact .releaseLoop (Nat.zero_le _)
    · exact .getLoop (Nat.zero_le _)
    · exact .idle
    · exact .idle
    · exact .releaseLoop (Nat.zero_le _)
  have hentry : ∀ ix, c.entry.Holds T ix → ∃ p ∈ c.released, T.page ix = some p := by
    intro ix h
    obtain _ | p | (_ | p) | (_ | p) := c
    · cases h
    · exact ⟨p, rfl, h⟩
    · cases h
    · cases h
    · cases h
    · exact ⟨p, rfl, h⟩
  -- a page that is given back was owned, so no other thread holds it
  have hback : ∀ ix p, p ∈ c.released → T.page ix = some p →
      s.pageIsUsed ix = true ∧ ∀ u, ¬ (s.pc u).Holds T ix := by
    intro ix p hp hix
    have hmem : p ∈ s.owned := hown p hp (T.mem_of_page hix)
    refine ⟨?_, fun u hu => (hi.holds u ix hu).2 p hix hmem⟩
    obtain ⟨jx, hj, hf⟩ := hi.flagged p hmem
    rwa [T.page_inj hix hj]
  refine ⟨hi.get, hi.release, hwithin.update hi.within, hi.nodup.filter _, fun p hp => ?_, fun u ix h => ?_,
    fun u v ix hu hv => ?_⟩
  · exact hi.flagged p (List.mem_filter.1 hp).1
  · obtain ⟨-, h'⟩ | ⟨-, h'⟩ := holds_update h
    · obtain ⟨p, hp, hix⟩ := hentry ix h'
      refine ⟨(hback ix p hp hix).1, fun q hq hmem => ?_⟩
      obtain rfl := Option.some.inj (hix.symm.trans hq)
      simpa [Option.mem_def.1 hp] using (List.mem_filter.1 hmem).2
    · exact ⟨(hi.holds u ix h').1, fun q hq hmem => (hi.holds u ix h').2 q hq (List.mem_filter.1 hmem).1⟩
  · obtain ⟨rfl, hx⟩ | ⟨-, hx⟩ := holds_update hu <;> obtain ⟨rfl, hy⟩ | ⟨-, hy⟩ := holds_update hv
    · rfl
    · obtain ⟨p, hp, hix⟩ := hentry ix hx
      exact absurd hy ((hback ix p hp hix).2 v)
    · obtain ⟨p, hp, hix⟩ := hentry ix hy
      exact absurd hx ((hback ix p hp hix).2 u)
    · exact hi.alone u v ix hx hy

/-- **Every step** has a result and keeps the invariant. -/
theorem inv_step (hn : T.numberOfPages ≤ 2 ^ 30) (s : State) (a : Action) (hi : Inv T s) (hok : Proper T s a) :
    ∃ s', step T s a = some s' ∧ Inv T s' := by
  cases a with
  | call t c =>
    obtain ⟨hpc, hown⟩ := hok
    refine ⟨_, if_pos hpc, hi.call hpc fun p hp => hown p ?_⟩
    obtain _ | q | (_ | q) | (_ | q) := c <;> first | exact hp | cases hp
  | step t =>
    have hw := hi.within t
    cases hpc : s.pc t with
    | idle => exact absurd hpc hok
    | getLoop i found =>
      by_cases hlt : i < T.numberOfPages
      · refine ⟨s.goto t (.getTest i (T.index s.lastPageIndexGet i) found), ?_,
          hi.move (.getTest hlt (T.index_has hlt)) (fun _ h => by cases h) rfl rfl rfl hi.get hi.release⟩
        rw [step, hpc, stepAt, if_pos hlt, T.getIndex_eq hi.get.1 (hi.get.sum_le hn hlt), Option.map_some]
      · refine ⟨_, by rw [step, hpc, stepAt, if_neg hlt], ?_⟩
        exact hi.move .idle (fun _ h => by cases h) rfl rfl rfl hi.get hi.release
    | getTest i newIx found =>
      have hhas : T.Has newIx := hw.index_has newIx (by rw [hpc]; rfl)
      have hle : i + 1 ≤ T.numberOfPages := by
        have := hw.iterations_le
        rwa [hpc] at this
      cases hu : s.pageIsUsed newIx with
      | true =>
        refine ⟨s.goto t (.getLoop (i + 1) (newIx :: found)), by rw [step, hpc, stepAt, if_pos hhas, if_pos hu], ?_⟩
        exact hi.move (.getLoop hle) (fun _ h => by cases h) rfl rfl rfl hi.get
          hi.release
      | false =>
        exact ⟨_, by rw [step, hpc, stepAt, if_pos hhas, if_neg (by simp [hu])], hi.acquire hpc hu⟩
    | getStore newIx =>
      obtain ⟨p, -, hp⟩ := T.page_has (hw.index_has newIx (by rw [hpc]; rfl))
      exact ⟨_, by rw [step, hpc, stepAt, hp, Option.map_some], hi.hand hpc hp⟩
    | releaseLoop p i =>
      by_cases hlt : i < T.numberOfPages
      · obtain ⟨q, -, hq⟩ := T.page_has (@Table.index_has T s.lastPageIndexRelease _ hlt)
        have hstep :
          step T s (.step t) = some (if p = q then s.goto t (.releaseClear p (T.index s.lastPageIndexRelease i))
            else s.goto t (.releaseLoop p (i + 1))) := by
          rw [step, hpc, stepAt, if_pos hlt, T.releaseIndex_eq hi.release.1 (hi.release.sum_le hn hlt),
            Option.bind_some, hq, Option.map_some]
        by_cases hpq : p = q
        · subst hpq
          refine ⟨_, hstep, ?_⟩
          rw [if_pos rfl]
          refine hi.move ⟨Nat.zero_le _, fun ix hx => ?_, fun _ _ h => ?_⟩
            (fun ix h => ?_) rfl rfl rfl hi.get hi.release
          · cases hx
            exact T.index_has hlt
          · cases h
            exact hq
          · rw [hpc]
            exact h
        · refine ⟨_, hstep, ?_⟩
          rw [if_neg hpq]
          exact hi.move (.releaseLoop hlt) (fun ix h => by rw [hpc]; exact h) rfl rfl rfl hi.get hi.release
      · refine ⟨_, by rw [step, hpc, stepAt, if_neg hlt], ?_⟩
        exact hi.move .idle (fun _ h => by cases h) rfl rfl rfl hi.get hi.release
    | releaseClear p ix =>
      exact ⟨_, by rw [step, hpc, stepAt, if_pos (hw.index_has ix (by rw [hpc]; rfl))], hi.clear hpc⟩
    | releaseStore p ix =>
      refine ⟨_, by rw [step, hpc, stepAt], ?_⟩
      exact hi.move .idle (fun _ h => by cases h) rfl rfl rfl hi.get (hw.index_has ix (by rw [hpc]; rfl)).position

/-! ## How long a call takes -/

/-- The steps a thread has left in its call at most. -/
def Pc.left (n : Nat) : Pc → Nat
  | .idle             => 0
  | .getLoop i _      => 2 * (n - i) + 1
  | .getTest i _ _    => 2 * (n - (i + 1)) + 2
  | .getStore _       => 1
  | .releaseLoop _ i  => n - i + 2
  | .releaseClear _ _ => 2
  | .releaseStore _ _ => 1

/-- **A step moves its own thread only**, nearer to the end of the call. -/
theorem stepAt_pc {t : Nat} {p : Pc} (h : stepAt T s t p = some s') :
    ∃ q, s'.pc = Function.update s.pc t q ∧ q.left T.numberOfPages < p.left T.numberOfPages := by
  cases p with
  | idle => cases h
  | getLoop i found =>
    rw [stepAt] at h
    by_cases hi : i < T.numberOfPages
    · rw [if_pos hi] at h
      obtain ⟨ix, -, rfl⟩ := Option.map_eq_some_iff.1 h
      exact ⟨_, rfl, by simp only [Pc.left]; omega⟩
    · rw [if_neg hi] at h
      cases h
      exact ⟨_, rfl, by simp only [Pc.left]; omega⟩
  | getTest i ix found =>
    rw [stepAt] at h
    by_cases hhas : T.Has ix
    · rw [if_pos hhas] at h
      by_cases hu : s.pageIsUsed ix = true
      · rw [if_pos hu] at h
        cases h
        exact ⟨_, rfl, by simp only [Pc.left]; omega⟩
      · rw [if_neg hu] at h
        cases h
        exact ⟨_, rfl, by simp only [Pc.left]; omega⟩
    · rw [if_neg hhas] at h
      cases h
  | getStore ix =>
    obtain ⟨p, -, rfl⟩ := Option.map_eq_some_iff.1 h
    exact ⟨_, rfl, Nat.one_pos⟩
  | releaseLoop p i =>
    rw [stepAt] at h
    by_cases hi : i < T.numberOfPages
    · rw [if_pos hi] at h
      obtain ⟨ix, -, h⟩ := Option.bind_eq_some_iff.1 h
      obtain ⟨q, -, rfl⟩ := Option.map_eq_some_iff.1 h
      by_cases hpq : p = q
      · rw [if_pos hpq]
        exact ⟨_, rfl, by simp only [Pc.left]; omega⟩
      · rw [if_neg hpq]
        exact ⟨_, rfl, by simp only [Pc.left]; omega⟩
    · rw [if_neg hi] at h
      cases h
      exact ⟨_, rfl, by simp only [Pc.left]; omega⟩
  | releaseClear p ix =>
    rw [stepAt] at h
    by_cases hhas : T.Has ix
    · rw [if_pos hhas] at h
      cases h
      exact ⟨_, rfl, Nat.lt_succ_self _⟩
    · rw [if_neg hhas] at h
      cases h
  | releaseStore p ix =>
    cases h
    exact ⟨_, rfl, Nat.one_pos⟩

theorem left_step {t : Nat} (h : step T s (.step t) = some s') :
    (s'.pc t).left T.numberOfPages < (s.pc t).left T.numberOfPages := by
  obtain ⟨q, hq, hlt⟩ := stepAt_pc h
  rwa [hq, Function.update_self]

theorem step_pc_other {t : Nat} {a : Action} (h : step T s a = some s') (ha : a ≠ .step t) (hpc : s.pc t ≠ .idle) :
    s'.pc t = s.pc t := by
  cases a with
  | call u c =>
    rw [step] at h
    split at h
    · rename_i hu
      cases h
      refine Function.update_of_ne ?_ ..
      rintro rfl
      exact hpc hu
    · cases h
  | step u =>
    obtain ⟨q, hq, -⟩ := stepAt_pc h
    rw [hq]
    refine Function.update_of_ne ?_ ..
    rintro rfl
    exact ha rfl

/-- A stretch of a run throughout which thread `t` is inside a call. -/
def Within (T : Table) (t : Nat) (s : State) (as : List Action) : Prop :=
  ∀ pre, pre <+: as → ∀ s', run (step T) s pre = some s' → s'.pc t ≠ .idle

theorem Within.cons {t : Nat} {a : Action} {as : List Action} (h : Within T t s (a :: as)) (hs : step T s a = some s') :
    Within T t s' as := by
  intro pre hpre s'' hrun
  exact h (a :: pre) (List.cons_prefix_cons.2 ⟨rfl, hpre⟩) s'' (by rw [run_cons hs]; exact hrun)

theorem count_le_left {t : Nat} : ∀ (as : List Action) (s s' : State), run (step T) s as = some s' → Within T t s as →
    as.count (.step t) ≤ (s.pc t).left T.numberOfPages
  | [], _, _, _, _ => Nat.zero_le _
  | a :: as, s, s', hr, hw => by
    obtain ⟨s₁, hs, hr'⟩ := Option.bind_eq_some_iff.1 hr
    have ih := count_le_left as s₁ s' hr' (hw.cons hs)
    by_cases ha : a = .step t
    · subst ha
      rw [List.count_cons_self]
      exact Nat.lt_of_le_of_lt ih (left_step hs)
    · rw [List.count_cons_of_ne ha]
      rwa [step_pc_other hs ha (hw [] List.nil_prefix s rfl)] at ih

/-! ## More than `2^30` pages -/

/-- Thread 0 takes the first `m` pages. -/
theorem fill : ∀ m ≤ T.numberOfPages, ∃ as s, Gets (step T) (Proper T) .start as s ∧ s.pc 0 = .idle ∧
    s.lastPageIndexGet = m - 1 ∧ ∀ ix : Int, s.pageIsUsed ix = true ↔ 0 ≤ ix ∧ ix < m
  | 0, _ => by
    refine ⟨[], .start, .nil, rfl, rfl, fun ix => ⟨fun h => (Bool.false_ne_true h).elim, fun h => ?_⟩⟩
    omega
  | m + 1, hm => by
    obtain ⟨as, s, hr, hpc, hlast, hused⟩ := fill m (by omega)
    have hsmall := T.small
    have hm' : m < T.numberOfPages := hm
    have hix : T.index s.lastPageIndexGet 0 = m := by
      rw [Table.index, hlast, Int.emod_eq_of_lt (by omega) (by omega)]
      omega
    have hget : T.getIndex s.lastPageIndexGet 0 = some (m : Int) := by
      rw [T.getIndex_eq (by omega) (by unfold Table.numberOfPages at hm; omega), hix]
    obtain ⟨p, -, hp⟩ := @Table.page_has T m ⟨by omega, by omega⟩
    have hfree : s.pageIsUsed m = false := by
      rw [← Bool.not_eq_true, hused]
      omega
    refine ⟨_, _, hr.append (.cons (proper_getPage hpc) (step_getPage hpc)
      (scan_takes (State.goto_pc_self ..) (by omega) hget hp hfree)), ?_, ?_, fun ix => ?_⟩
    · simp
    · simp
    · by_cases hx : ix = m
      · subst hx
        exact iff_of_true (Function.update_self ..) (by omega)
      · simp only [Function.update_of_ne hx, State.goto_pageIsUsed, hused]
        omega

/-- **The scan of a full table of more than `2^30` pages overflows** its index. -/
theorem overflows (hn : 2 ^ 30 < T.numberOfPages) :
    ∃ as, Legal (step T) (Proper T) .start as ∧ run (step T) .start as = none := by
  obtain ⟨as, s, hr, hpc, hlast, hused⟩ := fill (T := T) T.numberOfPages (Nat.le_refl _)
  have hsmall : T.numberOfPages ≤ intMax := T.small
  have hmax : intMax = 2 ^ 31 - 1 := rfl
  have hlast' : (s.goto 0 (.getLoop 0 [])).lastPageIndexGet = T.numberOfPages - 1 := hlast
  obtain ⟨found, hscan⟩ := scan_used (T := T) (s := s.goto 0 (.getLoop 0 [])) (by omega) (State.goto_pc_self ..)
    (2 ^ 31 - T.numberOfPages) (by omega) (by omega) fun k hk => (hused _).2 (T.index_has (by omega))
  have hfull := hr.append (.cons (proper_getPage hpc) (step_getPage hpc) hscan)
  refine ⟨_, Legal.append.2 ⟨hfull.1, fun s' h' => ?_⟩, (run_append _ [.step 0] _).trans ?_⟩
  · obtain rfl := Option.some.inj (hfull.2.symm.trans h')
    exact ⟨by simp [Proper], fun _ _ => trivial⟩
  · rw [hfull.2, Option.bind_some, run, step, State.goto_pc_self, stepAt, if_pos (by omega), Table.getIndex]
    simp only [State.goto, hlast]
    rw [intPlus_of_le (by omega) (by omega), Option.bind_eq_bind, Option.bind_some, intPlus_overflow (by omega)]
    rfl

/-! ## The result -/

/-- What the callers rely on: a page that is handed out has no other owner, an index that is used is in the table, a
scan takes at most `numberOfPages` iterations. -/
structure SoleOwners (T : Table) (s : State) : Prop where
  nodup : s.owned.Nodup
  handed : ∀ t ix p, s.pc t = .getStore ix → T.page ix = some p →
    p ∉ s.owned ∧ ∀ u, u ≠ t → ¬ (s.pc u).Holds T ix
  index_has : ∀ t, ∀ ix ∈ (s.pc t).index, T.Has ix
  iterations_le : ∀ t, (s.pc t).iterations ≤ T.numberOfPages

theorem Inv.soleOwners (hi : Inv T s) : SoleOwners T s where
  nodup := hi.nodup
  handed t ix p hpc hp := by
    have hheld : (s.pc t).Holds T ix := by
      rw [hpc]
      exact rfl
    exact ⟨(hi.holds t ix hheld).2 p hp, fun u hu h => hu (hi.alone u t ix h hheld)⟩
  index_has t := (hi.within t).index_has
  iterations_le t := (hi.within t).iterations_le

/-- Every call of the run ends: inside a call a thread takes at most two steps for each of its iterations, and two. -/
def Ends (T : Table) (as : List Action) : Prop :=
  ∀ t pre mid post s, as = pre ++ mid ++ post → run (step T) .start pre = some s → Within T t s mid →
    mid.count (.step t) ≤ 2 * T.numberOfPages + 2

theorem Pc.left_le (n : Nat) (p : Pc) : p.left n ≤ 2 * n + 2 := by
  cases p <;> simp only [left] <;> omega

/-- **The pages of a pool have one owner at a time**, in every run of any number of threads, exactly when the pool has
at most `2^30` pages. -/
theorem soleOwners_iff (T : Table) :
    (∀ as, Legal (step T) (Proper T) .start as →
      ∃ s, run (step T) .start as = some s ∧ SoleOwners T s ∧ Ends T as) ↔ T.numberOfPages ≤ 2 ^ 30 := by
  refine ⟨fun h => ?_, fun hn as hl => ?_⟩
  · by_contra hn
    obtain ⟨as, hl, hr⟩ := overflows (Nat.lt_of_not_le hn)
    obtain ⟨s, hs, -⟩ := h as hl
    rw [hr] at hs
    cases hs
  · obtain ⟨s, hs, hi⟩ := run_inv (inv_step hn) as .start .start hl
    refine ⟨s, hs, hi.soleOwners, fun t pre mid post s₁ heq hpre hw => ?_⟩
    rw [heq, run_append, run_append, hpre, Option.bind_some] at hs
    obtain ⟨s₂, hmid, -⟩ := Option.bind_eq_some_iff.1 hs
    exact Nat.le_trans (count_le_left mid s₁ s₂ hmid hw) (Pc.left_le _ _)

/-- A pool of one page more than that. -/
def manyPages : Table := ⟨List.range (2 ^ 30 + 1), List.nodup_range, by rw [List.length_range]; decide⟩

/-- **The scan of a pool of `2^30 + 1` pages** can leave the table. -/
theorem manyPages_overflows : ¬ ∀ as, Legal (step manyPages) (Proper manyPages) .start as →
    ∃ s, run (step manyPages) .start as = some s ∧ SoleOwners manyPages s ∧ Ends manyPages as := by
  intro h
  obtain ⟨as, hl, hr⟩ := overflows (T := manyPages) (by rw [Table.numberOfPages, manyPages, List.length_range]; decide)
  obtain ⟨s, hs, -⟩ := h as hl
  rw [hr] at hs
  cases hs

end MemPool
end Flp
