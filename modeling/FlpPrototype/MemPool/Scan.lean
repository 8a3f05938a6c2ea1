import FlpPrototype.MemPool.Ownership
import Mathlib.Data.List.Perm.Subperm
import Mathlib.Data.Nat.Find
/-!
# Scan — no page is lost, no exhaustion is reported early

A scan adds its iteration to a position it reads again each time.  While the position stays, the indices it visits go
once around the table; another thread that stores the position in between sends it elsewhere, and a page may be passed
over.  In a run without such a store (`Undisturbed`) a scan that comes to its end has seen every page (`Scanned`), so
every release of a page clears its flag and a flag that is set always has a holder (`Kept`).
-/
namespace Flp
namespace MemPool

variable {T : Table} {s s' : State}

/-- The thread has read `lastPageIndexGet` and will read it again in the same scan. -/
def Pc.ScansGet (n : Nat) : Pc → Prop
  | .getLoop i _   => 0 < i ∧ i < n
  | .getTest i _ _ => i + 1 < n
  | _              => False

/-- The thread has read `lastPageIndexRelease` and will read it again in the same scan. -/
def Pc.ScansRelease (n : Nat) : Pc → Prop
  | .releaseLoop _ i => 0 < i ∧ i < n
  | _                => False

/-- A call stores another position only while no thread is in the middle of a scan from it. -/
def Undisturbed (T : Table) (s : State) : Action → Prop
  | .call _ _ => True
  | .step t   =>
    (∀ ix, s.pc t = .getStore ix → s.lastPageIndexGet = ix ∨ ∀ u, ¬ (s.pc u).ScansGet T.numberOfPages) ∧
    (∀ p ix, s.pc t = .releaseStore p ix →
      s.lastPageIndexRelease = ix ∨ ∀ u, ¬ (s.pc u).ScansRelease T.numberOfPages)

/-- What a scan has seen: the pages from the position `base` on, which is the present one if it goes on. -/
def Pc.Scanned (T : Table) (get release : Int) : Pc → Prop
  | .getLoop i found    => ∃ base, (0 < i → i < T.numberOfPages → base = get) ∧ ∀ k < i, T.index base k ∈ found
  | .getTest i ix found => ∃ base, (i + 1 < T.numberOfPages → base = get) ∧ ix = T.index base i ∧
      ∀ k < i, T.index base k ∈ found
  | .releaseLoop p i    => ∃ base, (0 < i → i < T.numberOfPages → base = release) ∧
      ∀ k < i, T.page (T.index base k) ≠ some p
  | _                   => True

/-- What an ended call promises: `NULL` only with every page found in use, a page of the pool released only with its
flag cleared. -/
def Event.Right (T : Table) : Event → Prop
  | .got _ _              => True
  | .exhausted _ found    => ∀ ix, T.Has ix → ix ∈ found
  | .released _ p cleared => p ∈ T.pages → cleared = true

/-- Somebody has page `ix`: a caller, or a call on its way. -/
def Claimed (T : Table) (pc : Nat → Pc) (owned : List Nat) (ix : Int) : Prop :=
  (∃ p ∈ owned, T.page ix = some p) ∨ ∃ t, (pc t).Holds T ix

structure Kept (T : Table) (s : State) : Prop where
  scanned : ∀ t, (s.pc t).Scanned T s.lastPageIndexGet s.lastPageIndexRelease
  right : ∀ e ∈ s.history, e.Right T
  claimed : ∀ ix, s.pageIsUsed ix = true → Claimed T s.pc s.owned ix

theorem Kept.start : Kept T .start where
  scanned _ := trivial
  right _ h := absurd h List.not_mem_nil
  claimed _ h := (Bool.false_ne_true h).elim

/-- A position may move under a thread that does not go on to scan from it. -/
theorem Pc.Scanned.get_moves {g g' r : Int} {p : Pc} (h : p.Scanned T g r)
    (hg : g = g' ∨ ¬ p.ScansGet T.numberOfPages) : p.Scanned T g' r := by
  obtain rfl | hg := hg
  · exact h
  · cases p with
    | getLoop i found =>
      obtain ⟨base, -, hf⟩ := h
      exact ⟨base, fun h₀ hi => absurd ⟨h₀, hi⟩ hg, hf⟩
    | getTest i ix found =>
      obtain ⟨base, -, hf⟩ := h
      exact ⟨base, fun hi => absurd hi hg, hf⟩
    | _ => exact h

theorem Pc.Scanned.release_moves {g r r' : Int} {p : Pc} (h : p.Scanned T g r)
    (hr : r = r' ∨ ¬ p.ScansRelease T.numberOfPages) : p.Scanned T g r' := by
  obtain rfl | hr := hr
  · exact h
  · cases p with
    | releaseLoop q i =>
      obtain ⟨base, -, hf⟩ := h
      exact ⟨base, fun h₀ hi => absurd ⟨h₀, hi⟩ hr, hf⟩
    | _ => exact h

theorem Pc.Scanned.update {f : Nat → Pc} {t : Nat} {p : Pc} {g r : Int} (hp : p.Scanned T g r)
    (h : ∀ u, (f u).Scanned T g r) (u : Nat) : (Function.update f t p u).Scanned T g r := by
  by_cases hu : u = t
  · rwa [hu, Function.update_self]
  · rw [Function.update_of_ne hu]
    exact h u

/-- A page stays claimed when its holder moves on with it or hands it to its owner, and when its owner keeps it or
gives it to the thread. -/
theorem Claimed.update {f : Nat → Pc} {owned owned' : List Nat} {t : Nat} {p : Pc} {ix : Int}
    (h : Claimed T f owned ix) (hown : ∀ q ∈ owned, T.page ix = some q → q ∈ owned' ∨ p.Holds T ix)
    (hold : (f t).Holds T ix → p.Holds T ix ∨ ∃ q ∈ owned', T.page ix = some q) :
    Claimed T (Function.update f t p) owned' ix := by
  have hself : p.Holds T ix → Claimed T (Function.update f t p) owned' ix := by
    intro hp
    refine .inr ⟨t, ?_⟩
    rwa [Function.update_self]
  obtain ⟨q, hq, hix⟩ | ⟨u, hu⟩ := h
  · obtain hq' | hp := hown q hq hix
    · exact .inl ⟨q, hq', hix⟩
    · exact hself hp
  · by_cases hut : u = t
    · subst hut
      obtain hp | hq := hold hu
      · exact hself hp
      · exact .inl hq
    · refine .inr ⟨u, ?_⟩
      rwa [Function.update_of_ne hut]

/-- **A thread that moves on with what it holds**, positions and flags as they were. -/
theorem Kept.move (hk : Kept T s) {t : Nat} {p : Pc} {es : List Event}
    (hp : p.Scanned T s.lastPageIndexGet s.lastPageIndexRelease)
    (hh : ∀ ix, s.pageIsUsed ix = true → (s.pc t).Holds T ix → p.Holds T ix) (hes : ∀ e ∈ es, e.Right T) :
    Kept T { s with pc := Function.update s.pc t p, history := s.history ++ es } where
  scanned := hp.update hk.scanned
  right e he := by
    obtain he | he := List.mem_append.1 he
    · exact hk.right e he
    · exact hes e he
  claimed ix hu := (hk.claimed ix hu).update (fun _ hq _ => .inl hq) fun h => .inl (hh ix hu h)

/-- A scan that has reached `numberOfPages` from one position has met every page. -/
theorem forall_of_scanned {P : Int → Prop} {base : Int} {i : Nat} (hi : T.numberOfPages ≤ i)
    (h : ∀ k < i, P (T.index base k)) : ∀ ix, T.Has ix → P ix := by
  intro ix hx
  obtain ⟨k, hk, rfl⟩ := T.index_covers base hx
  exact h k (Nat.lt_of_lt_of_le hk hi)

theorem forall_lt_succ {P : Nat → Prop} {i : Nat} (h : ∀ k < i, P k) (hi : P i) : ∀ k < i + 1, P k := by
  intro k hk
  obtain hk | rfl := Nat.lt_succ_iff_lt_or_eq.1 hk
  · exact h k hk
  · exact hi

/-- **A call starts.** -/
theorem Kept.call (hk : Kept T s) {t : Nat} {c : Call} (hpc : s.pc t = .idle) :
    Kept T { s with
      pc := Function.update s.pc t c.entry, owned := s.owned.filter (some · ≠ c.released) } where
  scanned := by
    refine Pc.Scanned.update ?_ hk.scanned
    obtain _ | p | (_ | p) | (_ | p) := c
    case construct.some => trivial
    case destroy.none => trivial
    all_goals exact ⟨0, fun h => absurd h (Nat.lt_irrefl 0), fun _ hk => absurd hk (Nat.not_lt_zero _)⟩
  right := hk.right
  claimed ix hu := by
    refine (hk.claimed ix hu).update (fun q hq hix => ?_) fun h => ?_
    · by_cases hc : c.released = some q
      · right
        obtain _ | p | (_ | p) | (_ | p) := c <;> cases hc <;> exact hix
      · exact .inl (List.mem_filter.2 ⟨hq, by simpa using Ne.symm hc⟩)
    · rw [hpc] at h
      cases h

/-- **A successful `test_and_set`**: the thread has the page. -/
theorem Kept.acquire (hk : Kept T s) {t i : Nat} {ix : Int} {found : List Int} (hpc : s.pc t = .getTest i ix found) :
    Kept T { s with
      pc := Function.update s.pc t (.getStore ix), pageIsUsed := Function.update s.pageIsUsed ix true } where
  scanned := Pc.Scanned.update (p := .getStore ix) trivial hk.scanned
  right := hk.right
  claimed jx hu := by
    by_cases hj : jx = ix
    · exact .inr ⟨t, by simp [Pc.Holds, hj]⟩
    · refine (hk.claimed jx ((Function.update_of_ne hj ..).symm.trans hu)).update (fun _ hq _ => .inl hq) fun h => ?_
      rw [hpc] at h
      cases h

/-- **`getPage` returns**: the caller has the page, and no scan went on from the old position. -/
theorem Kept.hand (hk : Kept T s) {t p : Nat} {ix : Int} (hpc : s.pc t = .getStore ix) (hp : T.page ix = some p)
    (hund : s.lastPageIndexGet = ix ∨ ∀ u, ¬ (s.pc u).ScansGet T.numberOfPages) :
    Kept T { s with
      pc := Function.update s.pc t .idle, lastPageIndexGet := ix, owned := p :: s.owned,
      history := s.history ++ [.got t p] } where
  scanned := Pc.Scanned.update (p := .idle) trivial fun u => (hk.scanned u).get_moves (hund.imp_right (· u))
  right e he := by
    obtain he | he := List.mem_append.1 he
    · exact hk.right e he
    · cases List.mem_singleton.1 he
      trivial
  claimed jx hu := by
    refine (hk.claimed jx hu).update (fun _ hq _ => .inl (List.mem_cons_of_mem _ hq)) fun h => .inr ?_
    rw [hpc] at h
    obtain rfl : ix = jx := h
    exact ⟨p, List.mem_cons_self, hp⟩

/-- **A release clears**: a flag that is still set is another page's. -/
theorem Kept.clear (hk : Kept T s) {t p : Nat} {ix : Int} (hpc : s.pc t = .releaseClear p ix)
    (hp : T.page ix = some p) :
    Kept T { s with
      pc := Function.update s.pc t (.releaseStore p ix), pageIsUsed := Function.update s.pageIsUsed ix false } where
  scanned := Pc.Scanned.update (p := .releaseStore p ix) trivial hk.scanned
  right := hk.right
  claimed jx hu := by
    have hj : jx ≠ ix := by
      rintro rfl
      simp at hu
    refine (hk.claimed jx ((Function.update_of_ne hj ..).symm.trans hu)).update (fun _ hq _ => .inl hq) fun h => ?_
    rw [hpc] at h
    exact absurd (T.page_inj h hp) hj

/-- **A release returns**, and no scan went on from the old position. -/
theorem Kept.release (hk : Kept T s) {t p : Nat} {ix : Int} (hpc : s.pc t = .releaseStore p ix)
    (hund : s.lastPageIndexRelease = ix ∨ ∀ u, ¬ (s.pc u).ScansRelease T.numberOfPages) :
    Kept T { s with
      pc := Function.update s.pc t .idle, lastPageIndexRelease := ix,
      history := s.history ++ [.released t p true] } where
  scanned := Pc.Scanned.update (p := .idle) trivial fun u => (hk.scanned u).release_moves (hund.imp_right (· u))
  right e he := by
    obtain he | he := List.mem_append.1 he
    · exact hk.right e he
    · cases List.mem_singleton.1 he
      exact fun _ => rfl
  claimed jx hu := by
    refine (hk.claimed jx hu).update (fun _ hq _ => .inl hq) fun h => ?_
    rw [hpc] at h
    cases h

/-- A thread that writes nothing. -/
theorem Kept.goto (hk : Kept T s) {t : Nat} {p : Pc} (hp : p.Scanned T s.lastPageIndexGet s.lastPageIndexRelease)
    (hh : ∀ ix, s.pageIsUsed ix = true → (s.pc t).Holds T ix → p.Holds T ix) : Kept T (s.goto t p) := by
  have hmoved := @Kept.move T s hk t p [] hp hh fun _ he => absurd he List.not_mem_nil
  rwa [List.append_nil] at hmoved

/-- **The scan of `getPage` goes on or gives up**: it gives up with every page found in use. -/
theorem Kept.getLoop (hn : T.numberOfPages ≤ 2 ^ 30) (hi : Inv T s) (hk : Kept T s) {t i : Nat} {found : List Int}
    (hpc : s.pc t = .getLoop i found) (h : stepAt T s t (.getLoop i found) = some s') : Kept T s' := by
  have hs := hk.scanned t
  rw [hpc] at hs
  obtain ⟨base, hbase, hf⟩ := hs
  rw [stepAt] at h
  by_cases hlt : i < T.numberOfPages
  · rw [if_pos hlt, T.getIndex_eq hi.get.1 (hi.get.sum_le hn hlt)] at h
    cases h
    refine hk.goto ⟨s.lastPageIndexGet, fun _ => rfl, rfl, fun k hk => ?_⟩ fun _ _ hh => ?_
    · rw [← hbase (by omega) hlt]
      exact hf k hk
    · rw [hpc] at hh
      cases hh
  · rw [if_neg hlt] at h
    cases h
    refine hk.move (p := .idle) trivial (fun _ _ hh => by rw [hpc] at hh; cases hh) fun e he => ?_
    cases List.mem_singleton.1 he
    exact forall_of_scanned (Nat.le_of_not_lt hlt) hf

/-- **The page is tested**: it is taken, or counts as found in use. -/
theorem Kept.getTest (hi : Inv T s) (hk : Kept T s) {t i : Nat} {ix : Int} {found : List Int}
    (hpc : s.pc t = .getTest i ix found) (h : stepAt T s t (.getTest i ix found) = some s') : Kept T s' := by
  have hs := hk.scanned t
  rw [hpc] at hs
  obtain ⟨base, hbase, hix, hf⟩ := hs
  rw [stepAt, if_pos ((hi.within t).index_has ix (by rw [hpc]; rfl))] at h
  by_cases hu : s.pageIsUsed ix = true
  · rw [if_pos hu] at h
    cases h
    refine hk.goto ⟨base, fun _ => hbase, forall_lt_succ (fun k hk => List.mem_cons_of_mem _ (hf k hk)) ?_⟩
      fun _ _ hh => ?_
    · rw [← hix]
      exact List.mem_cons_self
    · rw [hpc] at hh
      cases hh
  · rw [if_neg hu] at h
    cases h
    exact hk.acquire hpc

/-- **The release compares the next page.** -/
theorem Kept.compare (hk : Kept T s) {t p q i : Nat} (hpc : s.pc t = .releaseLoop p i) (hlt : i < T.numberOfPages)
    (hq : T.page (T.index s.lastPageIndexRelease i) = some q) :
    Kept T (if p = q then s.goto t (.releaseClear p (T.index s.lastPageIndexRelease i))
      else s.goto t (.releaseLoop p (i + 1))) := by
  have hs := hk.scanned t
  rw [hpc] at hs
  obtain ⟨base, hbase, hf⟩ := hs
  have hheld : ∀ ix, s.pageIsUsed ix = true → (s.pc t).Holds T ix → T.page ix = some p := by
    intro ix _ hh
    rwa [hpc] at hh
  by_cases hpq : p = q
  · rw [if_pos hpq]
    exact hk.goto trivial hheld
  · rw [if_neg hpq]
    refine hk.goto ⟨s.lastPageIndexRelease, fun _ _ => rfl, forall_lt_succ (fun k hk => ?_) fun he => ?_⟩ hheld
    · rw [← hbase (by omega) hlt]
      exact hf k hk
    · rw [hq] at he
      exact hpq (Option.some.inj he).symm

/-- **The release finds nothing**: the whole table was compared, so the page is not of this pool. -/
theorem Kept.notFound (hk : Kept T s) {t p i : Nat} (hpc : s.pc t = .releaseLoop p i) (hge : T.numberOfPages ≤ i) :
    Kept T { s with pc := Function.update s.pc t .idle, history := s.history ++ [.released t p false] } := by
  have hs := hk.scanned t
  rw [hpc] at hs
  obtain ⟨base, -, hf⟩ := hs
  have hall : ∀ ix, T.Has ix → T.page ix ≠ some p := forall_of_scanned hge hf
  refine hk.move (p := .idle) trivial (fun ix _ hh => ?_) fun e he => ?_
  · rw [hpc] at hh
    exact absurd hh (hall ix (T.has_of_page hh))
  · cases List.mem_singleton.1 he
    intro hp
    obtain ⟨ix, hix⟩ := T.page_of_mem hp
    exact absurd hix (hall ix (T.has_of_page hix))

/-- **Every undisturbed step** keeps the account of scans and flags. -/
theorem kept_step (hn : T.numberOfPages ≤ 2 ^ 30) {a : Action} (hi : Inv T s) (hk : Kept T s)
    (hund : Undisturbed T s a) (h : step T s a = some s') : Kept T s' := by
  cases a with
  | call t c =>
    rw [step] at h
    by_cases hpc : s.pc t = .idle
    · rw [if_pos hpc] at h
      cases h
      exact hk.call hpc
    · rw [if_neg hpc] at h
      cases h
  | step t =>
    rw [step] at h
    cases hpc : s.pc t <;> rw [hpc] at h
    case idle => cases h
    case getLoop i found => exact Kept.getLoop hn hi hk hpc h
    case getTest i ix found => exact Kept.getTest hi hk hpc h
    case getStore ix =>
      obtain ⟨p, hp, rfl⟩ := Option.map_eq_some_iff.1 h
      exact hk.hand hpc hp (hund.1 ix hpc)
    case releaseLoop p i =>
      rw [stepAt] at h
      by_cases hlt : i < T.numberOfPages
      · rw [if_pos hlt, T.releaseIndex_eq hi.release.1 (hi.release.sum_le hn hlt), Option.bind_some] at h
        obtain ⟨q, hq, rfl⟩ := Option.map_eq_some_iff.1 h
        exact hk.compare hpc hlt hq
      · rw [if_neg hlt] at h
        cases h
        exact hk.notFound hpc (Nat.le_of_not_lt hlt)
    case releaseClear p ix =>
      rw [stepAt, if_pos ((hi.within t).index_has ix (by rw [hpc]; rfl))] at h
      cases h
      exact hk.clear hpc ((hi.within t).clears p ix hpc)
    case releaseStore p ix =>
      cases h
      exact hk.release hpc (hund.2 p ix hpc)

/-! ## The pool at rest -/

/-- No call is under way, and the flags that are set are those of the pages owned. -/
structure Resting (T : Table) (s : State) : Prop where
  idle : ∀ t, s.pc t = .idle
  position : T.Position s.lastPageIndexGet
  nodup : s.owned.Nodup
  flagged : ∀ ix, s.pageIsUsed ix = true ↔ ∃ p ∈ s.owned, T.page ix = some p

theorem Resting.exists_free (hr : Resting T s) (hlt : s.owned.length < T.numberOfPages) :
    ∃ ix, T.Has ix ∧ s.pageIsUsed ix = false := by
  obtain ⟨p, hp, hfree⟩ : ∃ p ∈ T.pages, p ∉ s.owned := by
    by_contra hall
    have hsub : T.pages ⊆ s.owned := fun p hp => by
      by_contra hn
      exact hall ⟨p, hp, hn⟩
    exact absurd (List.subperm_of_subset T.nodup hsub).length_le (Nat.not_le.2 hlt)
  obtain ⟨ix, hix⟩ := T.page_of_mem hp
  refine ⟨ix, T.has_of_page hix, ?_⟩
  rw [← Bool.not_eq_true, hr.flagged]
  rintro ⟨q, hq, hq'⟩
  exact hfree (Option.some.inj (hix.symm.trans hq') ▸ hq)

/-- **`getPage` alone returns a page** while there is one that nobody owns. -/
theorem Resting.getPage (hr : Resting T s) (hn : T.numberOfPages ≤ 2 ^ 30) (hlt : s.owned.length < T.numberOfPages)
    (t : Nat) : ∃ k p s', Gets (step T) (Proper T) s (.call t .getPage :: List.replicate k (.step t)) s' ∧
      Resting T s' ∧ s'.owned = p :: s.owned ∧ s'.history = s.history ++ [.got t p] := by
  obtain ⟨ix, hhas, hfree⟩ := hr.exists_free hlt
  obtain ⟨j, hj, rfl⟩ := T.index_covers s.lastPageIndexGet hhas
  -- the first iteration that meets a page that is not in use
  have hex : ∃ d, s.pageIsUsed (T.index s.lastPageIndexGet d) = false := ⟨j, hfree⟩
  have hd : Nat.find hex < T.numberOfPages := Nat.lt_of_le_of_lt (Nat.find_min' hex hfree) hj
  have hsum := hr.position.sum_le hn hd
  obtain ⟨p, hp, hpage⟩ := T.page_has (@Table.index_has T s.lastPageIndexGet _ hd)
  obtain ⟨found, hscan⟩ := scan_used (T := T) (s := s.goto t (.getLoop 0 [])) hr.position.1 (State.goto_pc_self ..)
    (Nat.find hex) (by omega) (by simpa [State.goto, Int.add_right_comm] using (by omega : _ ≤ (intMax : Int)))
    fun k hk => by simpa [State.goto] using Nat.find_min hex hk
  have htake := scan_takes (T := T) (s := (s.goto t (.getLoop 0 [])).goto t (.getLoop (0 + Nat.find hex) found))
    (State.goto_pc_self ..) (by omega) (by rw [Nat.zero_add]; exact T.getIndex_eq hr.position.1 hsum) hpage
    (Nat.find_spec hex)
  have hgets := Gets.cons (proper_getPage (hr.idle t)) (step_getPage (hr.idle t)) (hscan.append htake)
  rw [List.replicate_append_replicate] at hgets
  have hnot : p ∉ s.owned := by
    intro hmem
    have := (hr.flagged _).2 ⟨p, hmem, hpage⟩
    rw [Nat.find_spec hex] at this
    cases this
  refine ⟨_, p, _, hgets, ⟨fun u => ?_, (T.has_of_page hpage).position, List.nodup_cons.2 ⟨hnot, hr.nodup⟩,
    fun jx => ?_⟩, rfl, rfl⟩
  · by_cases hu : u = t
    · simp [hu]
    · simp [State.goto, hu, hr.idle]
  · by_cases hx : jx = T.index s.lastPageIndexGet (Nat.find hex)
    · subst hx
      simp [State.goto, hpage]
    · have hne : T.page jx ≠ some p := fun h => hx (T.page_inj h hpage)
      simp [State.goto, Function.update_of_ne hx, hr.flagged, hne]

/-- Calls of `getPage`, each thread named with the steps its call takes, one call after the other. -/
def consecutive : List (Nat × Nat) → List Action
  | []            => []
  | (t, k) :: cs  => (.call t .getPage :: List.replicate k (.step t)) ++ consecutive cs

theorem Resting.getPages (hn : T.numberOfPages ≤ 2 ^ 30) : ∀ (ts : List Nat) (s : State), Resting T s →
    s.owned.length + ts.length ≤ T.numberOfPages → ∃ ks ps s', ks.length = ts.length ∧ ps.length = ts.length ∧
      Gets (step T) (Proper T) s (consecutive (ts.zip ks)) s' ∧ Resting T s' ∧
      s'.history = s.history ++ List.zipWith .got ts ps
  | [], s, hr, _ => ⟨[], [], s, rfl, rfl, .nil, hr, by simp⟩
  | t :: ts, s, hr, hlen => by
    rw [List.length_cons] at hlen
    obtain ⟨k, p, s₁, h, hr₁, ho, hh⟩ := hr.getPage hn (by omega) t
    obtain ⟨ks, ps, s', hk, hp, h', hr', hh'⟩ := hr₁.getPages hn ts s₁ (by rw [ho, List.length_cons]; omega)
    refine ⟨k :: ks, p :: ps, s', by simp [hk], by simp [hp], h.append h', hr', ?_⟩
    rw [hh', hh, List.append_assoc]
    rfl

/-- What callers count on in a state: every ended call was right, and if all owners have released their pages then
`numberOfPages` calls of `getPage`, by any threads one after the other, all return a page. -/
structure NoLeak (T : Table) (s : State) : Prop where
  right : ∀ e ∈ s.history, e.Right T
  available : (∀ t, s.pc t = .idle) → s.owned = [] → ∀ ts : List Nat, ts.length = T.numberOfPages →
    ∃ ks ps s', ks.length = ts.length ∧ ps.length = ts.length ∧
      Gets (step T) (Proper T) s (consecutive (ts.zip ks)) s' ∧ s'.history = s.history ++ List.zipWith .got ts ps

theorem Kept.resting (hk : Kept T s) (hi : Inv T s) (hidle : ∀ t, s.pc t = .idle) : Resting T s where
  idle := hidle
  position := hi.get
  nodup := hi.nodup
  flagged ix := by
    constructor
    · intro hu
      obtain hp | ⟨t, ht⟩ := hk.claimed ix hu
      · exact hp
      · rw [hidle] at ht
        cases ht
    · rintro ⟨p, hp, hix⟩
      obtain ⟨jx, hj, hu⟩ := hi.flagged p hp
      rwa [T.page_inj hix hj]

/-- **No page is lost and no exhaustion is false** in a run in which no thread's store moves a position another thread
is scanning from. -/
theorem noLeak_of_undisturbed (T : Table) (hn : T.numberOfPages ≤ 2 ^ 30) (as : List Action)
    (hl : Legal (step T) (fun s a => Proper T s a ∧ Undisturbed T s a) .start as) :
    ∃ s, run (step T) .start as = some s ∧ NoLeak T s := by
  have hstep : ∀ s a, Inv T s ∧ Kept T s → Proper T s a ∧ Undisturbed T s a →
      ∃ s', step T s a = some s' ∧ Inv T s' ∧ Kept T s' := by
    rintro s a ⟨hi, hk⟩ ⟨hok, hund⟩
    obtain ⟨s', h, hi'⟩ := inv_step hn s a hi hok
    exact ⟨s', h, hi', kept_step hn hi hk hund h⟩
  obtain ⟨s, hs, hi, hk⟩ := run_inv hstep as .start ⟨.start, .start⟩ hl
  refine ⟨s, hs, hk.right, fun hidle howned ts hts => ?_⟩
  obtain ⟨ks, ps, s', h₁, h₂, h₃, -, h₄⟩ := (hk.resting hi hidle).getPages hn ts s (by rw [howned, hts]; simp)
  exact ⟨ks, ps, s', h₁, h₂, h₃, h₄⟩

/-! ## Two threads -/

/-- A pool of two pages. -/
def twoPages : Table := ⟨[100, 200], by decide, by decide⟩

/-- A thread takes a page and gives it back while another one's call has begun. -/
def politeRun : List Action :=
  [.call 0 .getPage, .call 1 (.construct none), .step 0, .step 0, .step 0, .call 0 (.releasePage 100), .step 0, .step 0,
   .step 0]

theorem noLeak_of_undisturbed_politeRun : twoPages.numberOfPages ≤ 2 ^ 30 ∧
    ∃ s, run (step twoPages) .start politeRun = some s ∧ NoLeak twoPages s := by
  refine ⟨by decide, noLeak_of_undisturbed twoPages (by decide) politeRun ?_⟩
  simp [politeRun, Legal, Proper, Undisturbed, step, stepAt, State.start, State.goto, Call.entry, Call.released,
    Call.page, twoPages, Table.numberOfPages, Table.getIndex, Table.releaseIndex, intPlus, intMax, Table.Has,
    Table.page]
  -- at both stores no thread is in the middle of a scan
  refine ⟨?_, ?_⟩ <;> intro u <;> simp only [Function.update_apply] <;> (repeat' split) <;>
    simp [Pc.ScansGet, Pc.ScansRelease]

/-- Both pages are owned.  Thread 1 releases the second page and has compared the first one when thread 0, releasing
that one, stores its position: thread 1 compares the first page again and ends. -/
def crossedRun : List Action :=
  [.call 0 .getPage, .step 0, .step 0, .step 0, .call 1 .getPage, .step 1, .step 1, .step 1,
   .call 1 (.releasePage 200), .step 1, .call 0 (.releasePage 100), .step 0, .step 0, .step 0, .step 1, .step 1]

theorem legal_crossedRun : Legal (step twoPages) (Proper twoPages) .start crossedRun := by decide +kernel

theorem crossedRun_keeps_flag :
    (run (step twoPages) .start crossedRun).map
      (fun s => (decide (.released 1 200 false ∈ s.history), s.pageIsUsed 1)) =
      some (true, true) := by
  decide +kernel

/-- **A page leaks**: it was released, and its flag stays set. -/
theorem crossed_leaks : ¬ ∀ as, Legal (step twoPages) (Proper twoPages) .start as →
    ∃ s, run (step twoPages) .start as = some s ∧ NoLeak twoPages s := by
  intro h
  obtain ⟨s, hs, hno⟩ := h crossedRun legal_crossedRun
  have hleft := crossedRun_keeps_flag
  rw [hs, Option.map_some, Option.some.injEq, Prod.mk.injEq, decide_eq_true_iff] at hleft
  exact absurd (hno.right _ hleft.1 (by decide)) Bool.false_ne_true

end MemPool
end Flp
