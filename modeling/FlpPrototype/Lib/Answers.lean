import Mathlib.Init
/-!
# Answers — systems that answer calls

A system takes a call and gives an answer and its next state, or has no result at all.  What can be observed of it is
what it answers to a list of calls (`answers`); two states are the same to every observer if all lists of calls are
answered alike (`Alike`).
-/
namespace Flp

variable {σ τ ι ω : Type}

/-- The answers to a list of calls. -/
def answers (call : σ → ι → Option (ω × σ)) : σ → List ι → Option (List ω)
  | _, []      => some []
  | s, i :: is => (call s i).bind fun r => (answers call r.2 is).map (r.1 :: ·)

variable {call : σ → ι → Option (ω × σ)} {call' : τ → ι → Option (ω × τ)}

theorem answers_cons {s s' : σ} {i : ι} {o : ω} (h : call s i = some (o, s')) (is : List ι) :
    answers call s (i :: is) = (answers call s' is).map (o :: ·) := by
  rw [answers, h]
  rfl

theorem answers_cons_none {s : σ} {i : ι} (h : call s i = none) (is : List ι) : answers call s (i :: is) = none := by
  rw [answers, h]
  rfl

theorem answers_cons_eq {s s' : σ} {t t' : τ} {i : ι} {o : ω} {is : List ι} (h : call s i = some (o, s'))
    (h' : call' t i = some (o, t')) :
    answers call s (i :: is) = answers call' t (i :: is) ↔ answers call s' is = answers call' t' is := by
  rw [answers_cons h, answers_cons h']
  exact ⟨fun he => Option.map_injective (fun _ _ hc => (List.cons.inj hc).2) he, fun he => by rw [he]⟩

/-- **A relation of two systems that calls keep**, with equal answers or without a result in both, makes the answers
equal. -/
theorem answers_eq_of {R : σ → τ → Prop} (hstep : ∀ s t i, R s t → (call s i = none ∧ call' t i = none) ∨
    ∃ o s' t', call s i = some (o, s') ∧ call' t i = some (o, t') ∧ R s' t') :
    ∀ {s : σ} {t : τ}, R s t → ∀ is, answers call s is = answers call' t is := by
  intro s t hR is
  induction is generalizing s t with
  | nil => rfl
  | cons i is ih =>
    rcases hstep s t i hR with ⟨hs, ht⟩ | ⟨o, s', t', hs, ht, hR'⟩
    · rw [answers_cons_none hs, answers_cons_none ht]
    · exact (answers_cons_eq hs ht).2 (ih hR')

theorem answers_total {spec : τ → ι → ω × τ} : ∀ (is : List ι) (t : τ), answers (fun t i => some (spec t i)) t is ≠ none
  | [], _ => nofun
  | i :: is, t => by
    rw [answers_cons rfl, Ne, Option.map_eq_none_iff]
    exact answers_total is _

/-! ## States that answer alike -/

/-- No list of calls tells the two states apart. -/
def Alike (call : σ → ι → Option (ω × σ)) (s t : σ) : Prop := ∀ is, answers call s is = answers call t is

variable {s s' t : σ} {i : ι} {o : ω}

theorem Alike.refl (s : σ) : Alike call s s := fun _ => rfl

theorem Alike.symm (h : Alike call s t) : Alike call t s := fun is => (h is).symm

/-- **After one call** with a result they are alike again. -/
theorem Alike.step (h : Alike call s t) (hs : call s i = some (o, s')) :
    ∃ t', call t i = some (o, t') ∧ Alike call s' t' := by
  have hone := h [i]
  rw [answers_cons hs] at hone
  cases ht : call t i with
  | none =>
    rw [answers_cons_none ht] at hone
    cases hone
  | some r =>
    obtain ⟨o', t'⟩ := r
    rw [answers_cons ht] at hone
    obtain rfl : o = o' := (List.cons.inj (Option.some.inj hone)).1
    exact ⟨t', rfl, fun is => (answers_cons_eq hs ht).1 (h (i :: is))⟩

theorem Alike.none (h : Alike call s t) (hs : call s i = none) : call t i = none := by
  cases ht : call t i with
  | none => rfl
  | some r =>
    obtain ⟨s', hs', -⟩ := h.symm.step ht
    rw [hs] at hs'
    cases hs'

/-- **A relation that calls keep**, with equal answers or without a result in both, makes states alike. -/
theorem alike_of {R : σ → σ → Prop} (hstep : ∀ s t i, R s t → (call s i = .none ∧ call t i = .none) ∨
    ∃ o s' t', call s i = some (o, s') ∧ call t i = some (o, t') ∧ R s' t') {s t : σ} (hR : R s t) : Alike call s t :=
  answers_eq_of hstep hR

end Flp
