import Mathlib.Init
/-!
# Agree — two computations that fail together

`Option.Rel R` relates two computations that both have no result, or results related by `R`: the relation of a
refinement in which neither side may fail alone.  It goes through the constructions programs are made of.
-/
namespace Flp

variable {α β γ δ : Type} {R : α → β → Prop} {S : γ → δ → Prop} {x : Option α} {y : Option β}

/-- **Sequencing**: what follows may use the results that came before. -/
theorem agree_bind {f : α → Option γ} {g : β → Option δ} (h : Option.Rel R x y)
    (hfg : ∀ a b, x = some a → y = some b → R a b → Option.Rel S (f a) (g b)) : Option.Rel S (x.bind f) (y.bind g) := by
  cases h with
  | none => exact .none
  | some h => exact hfg _ _ rfl rfl h

theorem agree_map {f : α → γ} {g : β → δ} (h : Option.Rel R x y)
    (hfg : ∀ a b, x = some a → y = some b → R a b → S (f a) (g b)) : Option.Rel S (x.map f) (y.map g) := by
  cases h with
  | none => exact .none
  | some h => exact .some (hfg _ _ rfl rfl h)

theorem agree_some {b : β} (h : Option.Rel R x (some b)) : ∃ a, x = some a ∧ R a b := by
  cases h with
  | some h => exact ⟨_, rfl, h⟩

theorem agree_some_left {a : α} (h : Option.Rel R (some a) y) : ∃ b, y = some b ∧ R a b := by
  cases h with
  | some h => exact ⟨_, rfl, h⟩

end Flp
