import Mathlib.Data.List.Induction
/-!
# Promise — an answer that guarantees the calls after it

One side of a queue asks how much room it has and then calls.  Its record (`Seen`) lists the answers and the calls that
succeeded or were refused.  An answer `n` is *honoured* when no call among the next `n` is refused.  Proofs carry the
one number that is still owed (`owed`) instead of the record.
-/
namespace Flp

/-- What one side saw: an answer, a call that succeeded, a call that was refused. -/
inductive Seen where
  | room (n : Int)
  | done
  | refused
deriving DecidableEq

/-- A call, successful or not. -/
def Seen.isCall : Seen → Bool
  | .room _ => false
  | _       => true

/-- No answer `n` is followed by a refused call before `n` calls were made. -/
def Honoured (seen : List Seen) : Prop :=
  ∀ pre n post rest, seen = pre ++ .room n :: (post ++ .refused :: rest) → n ≤ post.countP Seen.isCall

/-- The successful calls still owed. -/
def owed : List Seen → Nat := List.foldl (fun o e => match e with | .room n => max o n.toNat | _ => o - 1) 0

@[simp] theorem owed_nil : owed [] = 0 := rfl

@[simp] theorem owed_room (seen : List Seen) (n : Int) : owed (seen ++ [.room n]) = max (owed seen) n.toNat := by
  simp [owed]

@[simp] theorem owed_done (seen : List Seen) : owed (seen ++ [.done]) = owed seen - 1 := by
  simp [owed]

@[simp] theorem owed_refused (seen : List Seen) : owed (seen ++ [.refused]) = owed seen - 1 := by
  simp [owed]

/-- An answer is owed until the calls behind it used it up. -/
theorem le_owed_append (pre : List Seen) (n : Int) (post : List Seen) :
    n.toNat ≤ owed (pre ++ .room n :: post) + post.countP Seen.isCall := by
  induction post using List.reverseRecOn with
  | nil =>
    rw [owed_room]
    omega
  | append_singleton post e ih =>
    have happ : pre ++ .room n :: (post ++ [e]) = (pre ++ .room n :: post) ++ [e] := by simp
    rw [happ, List.countP_append]
    cases e with
    | room m =>
      rw [owed_room]
      simp only [List.countP_singleton, Seen.isCall, Bool.false_eq_true, if_false]
      omega
    | done =>
      rw [owed_done]
      simp only [List.countP_singleton, Seen.isCall, if_true]
      omega
    | refused =>
      rw [owed_refused]
      simp only [List.countP_singleton, Seen.isCall, if_true]
      omega

/-- **Refusing only when nothing is owed** honours every answer. -/
theorem honoured_of_owed {seen : List Seen} (h : ∀ pre rest, seen = pre ++ .refused :: rest → owed pre = 0) :
    Honoured seen := by
  intro pre n post rest hseen
  have h0 := h (pre ++ .room n :: post) rest (by rw [hseen]; simp)
  have := le_owed_append pre n post
  omega

/-- The record so far, extended by an entry that is no refusal or comes when nothing is owed. -/
theorem owed_append_singleton {seen : List Seen} {e : Seen}
    (h : ∀ pre rest, seen = pre ++ .refused :: rest → owed pre = 0) (he : e = .refused → owed seen = 0) :
    ∀ pre rest, seen ++ [e] = pre ++ .refused :: rest → owed pre = 0 := by
  intro pre rest heq
  induction rest using List.reverseRecOn with
  | nil =>
    obtain ⟨rfl, hx⟩ := List.append_inj' heq rfl
    exact he (List.singleton_inj.1 hx)
  | append_singleton rest' x _ =>
    have happ : seen ++ [e] = (pre ++ .refused :: rest') ++ [x] := by rw [heq]; simp
    exact h pre rest' (List.append_inj' happ rfl).1

end Flp
