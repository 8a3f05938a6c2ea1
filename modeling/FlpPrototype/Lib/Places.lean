import Mathlib.Data.List.Nodup
import Mathlib.Data.List.Perm.Basic
/-!
# Places — how often a key occurs

A system that moves things between lists keeps all of them when every key occurs as often after a step as before it.
`countBy key k l` is how often `k` is the key of an element of `l`; its laws follow the list operations that move an
element, so that the account of a step is an equation between sums.  What stands at a place behind a step is an element
the step has put there, or one there was.
-/
namespace Flp

variable {α β : Type} [DecidableEq β] (key : α → β) (k : β)

/-- How often `k` is the key of an element. -/
def countBy (l : List α) : Nat := (l.map key).count k

@[simp] theorem countBy_nil : countBy key k [] = 0 := rfl

@[simp] theorem countBy_append (l l' : List α) : countBy key k (l ++ l') = countBy key k l + countBy key k l' := by
  simp [countBy]

theorem countBy_cons (x : α) (l : List α) : countBy key k (x :: l) = countBy key k [x] + countBy key k l :=
  countBy_append key k [x] l

theorem countBy_eraseIdx {l : List α} {i : Nat} {x : α} (h : l[i]? = some x) :
    countBy key k (l.eraseIdx i) + countBy key k [x] = countBy key k l := by
  obtain ⟨hi, rfl⟩ := List.getElem?_eq_some_iff.1 h
  rw [Nat.add_comm, ← countBy_cons]
  exact ((List.getElem_cons_eraseIdx_perm hi).map key).count_eq k

theorem countBy_tail {l : List α} {x : α} (h : l.head? = some x) :
    countBy key k l.tail + countBy key k [x] = countBy key k l := by
  obtain ⟨rest, rfl⟩ := List.head?_eq_some_iff.1 h
  rw [Nat.add_comm, ← countBy_cons]
  rfl

/-- The account at the end: as many of each, so the same ones. -/
theorem perm_of_count {l l' m : List β} (hp : l.Perm m) (h : ∀ k, l'.count k = l.count k) : l'.Perm m :=
  (List.perm_iff_count.2 h).trans hp

theorem nodup_multiples {size : Nat} (n : Nat) (h : 0 < size) : ((List.range n).map (· * size)).Nodup :=
  List.Nodup.map (fun _ _ he => Nat.eq_of_mul_eq_mul_right h he) List.nodup_range

/-! ## Elements at their places -/

/-- An element that was changed, and the others. -/
theorem getElem?_set_cases {l : List α} {a x : α} {i j : Nat} (h : (l.set i a)[j]? = some x) :
    (j = i ∧ x = a) ∨ (j ≠ i ∧ l[j]? = some x) := by
  rw [List.getElem?_set] at h
  split at h
  · rename_i heq
    split at h
    · exact .inl ⟨heq.symm, (Option.some.inj h).symm⟩
    · cases h
  · rename_i hne
    exact .inr ⟨fun e => hne e.symm, h⟩

/-- An element that was added, and the others. -/
theorem getElem?_concat_cases {l : List α} {a x : α} {j : Nat} (h : (l ++ [a])[j]? = some x) :
    l[j]? = some x ∨ (j = l.length ∧ x = a) := by
  rcases Nat.lt_or_ge j l.length with hlt | hge
  · rw [List.getElem?_append_left hlt] at h
    exact .inl h
  · rw [List.getElem?_append_right hge, List.getElem?_singleton] at h
    obtain ⟨hj, h⟩ := Option.ite_none_right_eq_some.1 h
    exact .inr ⟨by omega, (Option.some.inj h).symm⟩

end Flp
