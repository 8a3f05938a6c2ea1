import FlpPrototype.MemPool.Pool
/-!
# Alone — `getPage` while no other thread takes a step

Between two steps of one thread nothing changes, so its scan goes over the pages in use one after the other and takes
the first one that is not.
-/
namespace Flp
namespace MemPool

variable {T : Table} {s : State} {t : Nat}

theorem State.goto_goto (s : State) (t : Nat) (p q : Pc) : (s.goto t p).goto t q = s.goto t q := by
  simp [goto]

@[simp] theorem State.goto_pc_self (s : State) (t : Nat) (p : Pc) : (s.goto t p).pc t = p := Function.update_self ..

theorem State.goto_pageIsUsed (s : State) (t : Nat) (p : Pc) : (s.goto t p).pageIsUsed = s.pageIsUsed := rfl

theorem proper_getPage (hpc : s.pc t = .idle) : Proper T s (.call t .getPage) := ⟨hpc, fun _ h => by cases h⟩

theorem step_getPage (hpc : s.pc t = .idle) : step T s (.call t .getPage) = some (s.goto t (.getLoop 0 [])) := by
  rw [step, if_pos hpc]
  simp [Call.entry, Call.released, State.goto]

/-- **A scan over pages in use** reaches the iteration behind them. -/
theorem scan_used {i : Nat} {found : List Int} (hl : -1 ≤ s.lastPageIndexGet) (hpc : s.pc t = .getLoop i found) :
    ∀ d : Nat, i + d ≤ T.numberOfPages → s.lastPageIndexGet + (i + d) ≤ intMax →
      (∀ k < d, s.pageIsUsed (T.index s.lastPageIndexGet (i + k)) = true) →
      ∃ found', Gets (step T) (Proper T) s (List.replicate (2 * d) (.step t)) (s.goto t (.getLoop (i + d) found'))
  | 0, _, _, _ => by
    refine ⟨found, ?_⟩
    have : s.goto t (.getLoop (i + 0) found) = s := by
      rw [State.goto, Nat.add_zero, ← hpc, Function.update_eq_self]
    rw [this]
    exact .nil
  | d + 1, hlt, hsum, hused => by
    obtain ⟨found', h⟩ := scan_used hl hpc d (by omega) (by omega) fun k hk => hused k (by omega)
    have hix : T.getIndex s.lastPageIndexGet (i + d) = some (T.index s.lastPageIndexGet (i + d)) :=
      T.getIndex_eq hl (by omega)
    have hhas : T.Has (T.index s.lastPageIndexGet (i + d)) := T.index_has (by omega)
    refine ⟨T.index s.lastPageIndexGet (i + d) :: found', ?_⟩
    have hload : step T (s.goto t (.getLoop (i + d) found')) (.step t) =
        some (s.goto t (.getTest (i + d) (T.index s.lastPageIndexGet (i + d)) found')) := by
      rw [step, State.goto_pc_self, stepAt, if_pos (by omega)]
      simp only [State.goto, hix, Option.map_some, Function.update_idem]
    have htest : step T (s.goto t (.getTest (i + d) (T.index s.lastPageIndexGet (i + d)) found')) (.step t) =
        some (s.goto t (.getLoop (i + (d + 1)) (T.index s.lastPageIndexGet (i + d) :: found'))) := by
      rw [step, State.goto_pc_self, stepAt, if_pos hhas, State.goto_pageIsUsed, if_pos (hused d (by omega)),
        State.goto_goto, Nat.add_assoc]
    rw [Nat.mul_succ, ← List.replicate_append_replicate]
    exact h.append (.cons (by simp [Proper]) hload (.cons (by simp [Proper]) htest .nil))

/-- **A scan at a page that is free** takes it. -/
theorem scan_takes {i p : Nat} {ix : Int} {found : List Int} (hpc : s.pc t = .getLoop i found)
    (hi : i < T.numberOfPages) (hix : T.getIndex s.lastPageIndexGet i = some ix) (hp : T.page ix = some p)
    (hfree : s.pageIsUsed ix = false) :
    Gets (step T) (Proper T) s (List.replicate 3 (.step t)) { s with
      pc := Function.update s.pc t .idle, pageIsUsed := Function.update s.pageIsUsed ix true,
      lastPageIndexGet := ix, owned := p :: s.owned, history := s.history ++ [.got t p] } := by
  have hload : step T s (.step t) = some (s.goto t (.getTest i ix found)) := by
    rw [step, hpc, stepAt, if_pos hi, hix, Option.map_some]
  have htest : step T (s.goto t (.getTest i ix found)) (.step t) = some { s with
      pc := Function.update s.pc t (.getStore ix), pageIsUsed := Function.update s.pageIsUsed ix true } := by
    rw [step, State.goto_pc_self, stepAt, if_pos (T.has_of_page hp), if_neg (by simp [State.goto, hfree])]
    simp [State.goto]
  refine .cons (by simp [Proper, hpc]) hload (.cons (by simp [Proper]) htest (.cons (by simp [Proper]) ?_ .nil))
  simp [step, stepAt, hp]

end MemPool
end Flp
