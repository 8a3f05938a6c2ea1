import Mathlib.Data.List.Induction
/-!
# Lines — a list cut at a separator

`cutLines` gives the lines a list ends with the separator, each without it, and what is left behind the last one.  It
goes symbol by symbol, so a stream that arrives in pieces is cut as the whole is.
-/
namespace Flp

variable {α : Type} [DecidableEq α] (sep : α)

/-- One more symbol: the separator ends the line under way. -/
def cutStep (acc : List (List α) × List α) (c : α) : List (List α) × List α :=
  if c = sep then (acc.1 ++ [acc.2], []) else (acc.1, acc.2 ++ [c])

/-- The lines of a list, and the rest. -/
def cutLines (xs : List α) : List (List α) × List α := xs.foldl (cutStep sep) ([], [])

/-- The lines and the rest: what the separators are between. -/
def lines (xs : List α) : List (List α) := (cutLines sep xs).1 ++ [(cutLines sep xs).2]

theorem cutLines_append_singleton (xs : List α) (c : α) :
    cutLines sep (xs ++ [c]) = cutStep sep (cutLines sep xs) c := by
  rw [cutLines, List.foldl_append]
  rfl

theorem cutLines_mono (xs ys : List α) : (cutLines sep xs).1 <+: (cutLines sep (xs ++ ys)).1 := by
  induction ys using List.reverseRecOn with
  | nil => simp
  | append_singleton ys y ih =>
    rw [← List.append_assoc, cutLines_append_singleton, cutStep]
    split
    · exact ih.trans (List.prefix_append _ _)
    · exact ih

theorem mem_cutLines {xs : List α} {y : α} (hy : y ∈ xs) (hne : y ≠ sep) :
    (∃ l ∈ (cutLines sep xs).1, y ∈ l) ∨ y ∈ (cutLines sep xs).2 := by
  induction xs using List.reverseRecOn with
  | nil => cases hy
  | append_singleton xs x ih =>
    rw [cutLines_append_singleton, cutStep]
    rcases List.mem_append.1 hy with hy | hy
    · rcases ih hy with ⟨l, hl, hyl⟩ | hr
      · split
        · exact .inl ⟨l, List.mem_append_left _ hl, hyl⟩
        · exact .inl ⟨l, hl, hyl⟩
      · split
        · exact .inl ⟨_, List.mem_append_right _ (List.mem_singleton_self _), hr⟩
        · exact .inr (List.mem_append_left _ hr)
    · rw [List.mem_singleton.1 hy] at hne ⊢
      rw [if_neg hne]
      exact .inr (by simp)

theorem not_mem_cutLines (xs : List α) : (∀ l ∈ (cutLines sep xs).1, sep ∉ l) ∧ sep ∉ (cutLines sep xs).2 := by
  induction xs using List.reverseRecOn with
  | nil => simp [cutLines]
  | append_singleton xs x ih =>
    rw [cutLines_append_singleton, cutStep]
    split
    · refine ⟨fun l hl => ?_, by simp⟩
      rcases List.mem_append.1 hl with hl | hl
      · exact ih.1 l hl
      · rw [List.mem_singleton.1 hl]
        exact ih.2
    · rename_i hx
      refine ⟨ih.1, fun h => ?_⟩
      rcases List.mem_append.1 h with h | h
      · exact ih.2 h
      · exact hx (List.mem_singleton.1 h).symm

theorem cutLines_append_of_not_mem (xs : List α) : ∀ {l : List α}, sep ∉ l →
    cutLines sep (xs ++ l) = ((cutLines sep xs).1, (cutLines sep xs).2 ++ l) := by
  intro l
  induction l using List.reverseRecOn with
  | nil => exact fun _ => by rw [List.append_nil, List.append_nil]
  | append_singleton l x ih =>
    intro h
    have hx : x ≠ sep := fun e => h (by rw [e]; simp)
    rw [← List.append_assoc, cutLines_append_singleton, ih (fun hm => h (List.mem_append_left _ hm)), cutStep,
      if_neg hx, List.append_assoc]

theorem cutLines_of_not_mem {xs : List α} (h : sep ∉ xs) : cutLines sep xs = ([], xs) :=
  cutLines_append_of_not_mem sep [] h

theorem cutLines_line {l : List α} (h : sep ∉ l) (rest : List α) :
    cutLines sep (l ++ sep :: rest) = (l :: (cutLines sep rest).1, (cutLines sep rest).2) := by
  induction rest using List.reverseRecOn with
  | nil => rw [cutLines_append_singleton, cutLines_of_not_mem sep h, cutStep, if_pos rfl]; rfl
  | append_singleton rest x ih =>
    rw [← List.cons_append, ← List.append_assoc, cutLines_append_singleton, ih, cutLines_append_singleton, cutStep,
      cutStep]
    split <;> rfl

/-- Lines put together are cut into the same lines, and what is behind them as it is by itself. -/
theorem cutLines_flatMap_append (xs : List α) : ∀ {ls : List (List α)}, (∀ l ∈ ls, sep ∉ l) →
    cutLines sep (ls.flatMap (fun l => l ++ [sep]) ++ xs) = (ls ++ (cutLines sep xs).1, (cutLines sep xs).2)
  | [], _ => rfl
  | l :: ls, h => by
    rw [List.flatMap_cons, List.append_assoc, List.append_assoc, List.singleton_append,
      cutLines_line sep (h l List.mem_cons_self),
      cutLines_flatMap_append xs (fun l hl => h l (List.mem_cons_of_mem _ hl))]
    rfl

theorem cutLines_flatMap {ls : List (List α)} (h : ∀ l ∈ ls, sep ∉ l) :
    cutLines sep (ls.flatMap (fun l => l ++ [sep])) = (ls, []) := by
  have := cutLines_flatMap_append sep [] h
  rwa [List.append_nil, show cutLines sep ([] : List α) = ([], []) from rfl, List.append_nil] at this

theorem flatMap_cutLines (xs : List α) :
    (cutLines sep xs).1.flatMap (fun l => l ++ [sep]) ++ (cutLines sep xs).2 = xs := by
  induction xs using List.reverseRecOn with
  | nil => rfl
  | append_singleton xs x ih =>
    rw [cutLines_append_singleton, cutStep]
    split
    · rename_i hx
      simp only [List.flatMap_append, List.flatMap_cons, List.flatMap_nil, List.append_nil]
      rw [← List.append_assoc, ih, hx]
    · rw [← List.append_assoc, ih]

theorem lines_of_not_mem {xs : List α} (h : sep ∉ xs) : lines sep xs = [xs] := by
  rw [lines, cutLines_of_not_mem sep h]
  rfl

theorem lines_line {l : List α} (h : sep ∉ l) (rest : List α) : lines sep (l ++ sep :: rest) = l :: lines sep rest := by
  rw [lines, cutLines_line sep h]
  rfl

theorem lines_eq_pair {xs x y : List α} : lines sep xs = [x, y] ↔ xs = x ++ sep :: y ∧ sep ∉ x ∧ sep ∉ y := by
  constructor
  · intro h
    have both : (cutLines sep xs).1 = [x] ∧ (cutLines sep xs).2 = y := by
      have := List.append_inj' (show (cutLines sep xs).1 ++ [(cutLines sep xs).2] = [x] ++ [y] from h) rfl
      exact ⟨this.1, by simpa using this.2⟩
    have joined := flatMap_cutLines sep xs
    have free := not_mem_cutLines sep xs
    rw [both.1, both.2] at joined free
    exact ⟨by rw [← joined]; simp, free.1 x (List.mem_singleton_self x), free.2⟩
  · rintro ⟨rfl, hx, hy⟩
    rw [lines_line sep hx, lines_of_not_mem sep hy]

theorem mem_of_mem_cutLines {xs l : List α} {y : α} (h : l ∈ (cutLines sep xs).1) (hy : y ∈ l) : y ∈ xs := by
  have both : (∀ l ∈ (cutLines sep xs).1, ∀ y ∈ l, y ∈ xs) ∧ ∀ y ∈ (cutLines sep xs).2, y ∈ xs := by
    clear h hy
    induction xs using List.reverseRecOn with
    | nil => simp [cutLines]
    | append_singleton xs x ih =>
      rw [cutLines_append_singleton, cutStep]
      split
      · refine ⟨fun l hl y hy => List.mem_append_left _ ?_, by simp⟩
        rcases List.mem_append.1 hl with hl | hl
        · exact ih.1 l hl y hy
        · exact ih.2 y (by rwa [← List.mem_singleton.1 hl])
      · refine ⟨fun l hl y hy => List.mem_append_left _ (ih.1 l hl y hy), fun y hy => ?_⟩
        rcases List.mem_append.1 hy with hy | hy
        · exact List.mem_append_left _ (ih.2 y hy)
        · exact List.mem_append_right _ hy
  exact both.1 l h y hy

theorem length_le_of_mem_cutLines {xs l : List α} (h : l ∈ (cutLines sep xs).1) : l.length ≤ xs.length := by
  have both : (∀ l ∈ (cutLines sep xs).1, l.length ≤ xs.length) ∧ (cutLines sep xs).2.length ≤ xs.length := by
    clear h
    induction xs using List.reverseRecOn with
    | nil => simp [cutLines]
    | append_singleton xs x ih =>
      rw [cutLines_append_singleton, cutStep, List.length_append, List.length_singleton]
      split
      · refine ⟨fun l hl => ?_, by simp⟩
        rcases List.mem_append.1 hl with hl | hl
        · exact Nat.le_succ_of_le (ih.1 l hl)
        · rw [List.mem_singleton.1 hl]
          exact Nat.le_succ_of_le ih.2
      · exact ⟨fun l hl => Nat.le_succ_of_le (ih.1 l hl), by simpa using ih.2⟩
  exact both.1 l h

theorem rest_begins (xs ys : List α) : ∃ l ∈ lines sep (xs ++ ys), (cutLines sep xs).2 <+: l := by
  induction ys using List.reverseRecOn with
  | nil =>
    rw [List.append_nil]
    exact ⟨_, List.mem_append_right _ (List.mem_singleton_self _), List.prefix_rfl⟩
  | append_singleton ys y ih =>
    obtain ⟨l, hl, hp⟩ := ih
    rw [lines] at hl
    rw [← List.append_assoc, lines, cutLines_append_singleton, cutStep]
    split
    · exact ⟨l, List.mem_append_left _ hl, hp⟩
    · rcases List.mem_append.1 hl with hl | hl
      · exact ⟨l, List.mem_append_left _ hl, hp⟩
      · rw [List.mem_singleton.1 hl] at hp
        exact ⟨_, List.mem_append_right _ (List.mem_singleton_self _), hp.trans (List.prefix_append _ _)⟩

omit [DecidableEq α] in
/-- A part of a list that begins with a line: it ends before the separator, or has the whole line. -/
theorem append_eq_line {xs ys l tail : List α} {sep : α} (h : xs ++ ys = l ++ sep :: tail) :
    (∃ m, l = xs ++ m ∧ ys = m ++ sep :: tail) ∨ ∃ zs, xs = l ++ sep :: zs ∧ tail = zs ++ ys := by
  rcases List.append_eq_append_iff.1 h with ⟨m, hl, hys⟩ | ⟨m, hxs, htail⟩
  · exact .inl ⟨m, hl, hys⟩
  · cases m with
    | nil => exact .inl ⟨[], by rw [hxs, List.append_nil, List.append_nil], htail.symm⟩
    | cons c zs =>
      obtain ⟨rfl, rfl⟩ := List.cons.inj htail
      exact .inr ⟨zs, hxs, rfl⟩

/-! ## Lines handed out one by one -/

section Drains

variable {σ : Type}

/-- Calls of `get` hand out these lines and then none; a call without a result is undefined. -/
def Drains (get : σ → Option (Option (List α) × σ)) : σ → List (List α) → σ → Prop
  | s, [], s'      => get s = some (none, s')
  | s, l :: ls, s' => ∃ s₁, get s = some (some l, s₁) ∧ Drains get s₁ ls s'

end Drains

end Flp
