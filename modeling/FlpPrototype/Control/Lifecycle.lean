import Mathlib.Init
/-!
# Lifecycle — the states of a controlled object and the callbacks between them

`ControlStateMachine::processStateTransition` calls a method of the object for a command and sets the state after what
the method returns; in between the engine calls `iterateRunning` while the object runs, and `iterateCheck` in any state.
What the methods are for is said in the declaration of `RuntimeControlledObject`: from which state to which each goes
(`Goes`).  A list of calls that may come to pass so, from one state to another, is a `Lifecycle`.
-/
namespace Flp
namespace Control

inductive TState where
  | undefined
  | standby
  | ready
  | running
  | paused
  | error
  deriving DecidableEq, Repr

/-- The methods of `RuntimeControlledObject` that the engine calls. -/
inductive Callback where
  | executePrepare
  | executeReset
  | executeStart
  | executeStop
  | executePause
  | executeResume
  | iterateRunning
  | iterateCheck
  deriving DecidableEq, Repr

def getStringFromState : TState → String
  | .standby   => "STANDBY"
  | .ready     => "READY"
  | .running   => "RUNNING"
  | .paused    => "PAUSED"
  | .error     => "ERROR"
  | .undefined => "UNDEFINED"

def getStateFromString (s : String) : TState :=
  if s = "STANDBY" then .standby
  else if s = "READY" then .ready
  else if s = "RUNNING" then .running
  else if s = "PAUSED" then .paused
  else if s = "ERROR" then .error
  else .undefined

/-- A state that is published is read as itself. -/
theorem getStateFromString_getStringFromState (s : TState) : getStateFromString (getStringFromState s) = s := by
  cases s <;> decide

/-- What a command does in a state: the method it calls, and the state behind it if that returns 0. -/
def transition : TState → String → Option (Callback × TState)
  | .standby, command => if command = "prepare" then some (.executePrepare, .ready) else none
  | .ready, command =>
    if command = "start" then some (.executeStart, .running)
    else if command = "reset" then some (.executeReset, .standby)
    else none
  | .running, command =>
    if command = "stop" then some (.executeStop, .ready)
    else if command = "pause" then some (.executePause, .paused)
    else none
  | .paused, command =>
    if command = "resume" then some (.executeResume, .running)
    else if command = "stop" then some (.executeStop, .ready)
    else none
  | .error, command => if command = "reset" then some (.executeReset, .standby) else none
  | .undefined, _ => none

/-- The command that calls a method. -/
def Callback.command : Callback → Option String
  | .executePrepare => some "prepare"
  | .executeReset   => some "reset"
  | .executeStart   => some "start"
  | .executeStop    => some "stop"
  | .executePause   => some "pause"
  | .executeResume  => some "resume"
  | .iterateRunning => none
  | .iterateCheck   => none

/-- A call of a method: what it returned, and the request it was called for. -/
structure Called where
  callback : Callback
  err : Int
  request : Option Nat
  deriving DecidableEq, Repr

/-- The object as the engine has it: its state, the state last published if the directory took it, whether it takes
what is published, and the calls so far. -/
structure Controlled where
  state : TState
  published : Option String
  unpublished : Bool
  history : List Called
  deriving DecidableEq, Repr

namespace Controlled

/-- `updateState`; `taken` is whether the directory takes the new value. -/
def updateState (o : Controlled) (s : TState) (taken : Bool) : Controlled :=
  { o with
    state := s
    published := if taken then some (getStringFromState s) else o.published
    unpublished := !taken }

def called (o : Controlled) (c : Called) : Controlled := { o with history := o.history ++ [c] }

/-- `processStateTransition` for a request; `err` is what the method returns. -/
def processStateTransition (o : Controlled) (request : Nat) (command : String) (err : Int) (taken : Bool) :
    Controlled :=
  match transition o.state command with
  | none          => o
  | some (cb, s') => (o.called ⟨cb, err, some request⟩).updateState (if err = 0 then s' else .error) taken

/-- A periodic action: what it returns, and whether the directory takes an error. -/
def periodic (o : Controlled) (callback : Callback) (err : Int) (taken : Bool) : Controlled :=
  if err ≠ 0 then (o.called ⟨callback, err, none⟩).updateState .error taken else o.called ⟨callback, err, none⟩

/-- The periodic actions of a turn of the engine. -/
def iterate (o : Controlled) (errRunning errCheck : Int) (taken₁ taken₂ : Bool) : Controlled :=
  (if o.state = .running then o.periodic .iterateRunning errRunning taken₁ else o).periodic .iterateCheck errCheck
    taken₂

/-- The published state is the object's, unless the directory did not take the last one. -/
def Told (o : Controlled) : Prop := o.unpublished = false → o.published = some (getStringFromState o.state)

theorem told_updateState (o : Controlled) (s : TState) (taken : Bool) : (o.updateState s taken).Told := by
  intro h
  have htaken : taken = true := by simpa [updateState] using h
  rw [htaken]
  rfl

theorem Told.processStateTransition {o : Controlled} (h : o.Told) (request : Nat) (command : String) (err : Int)
    (taken : Bool) : (o.processStateTransition request command err taken).Told := by
  unfold Controlled.processStateTransition
  split
  · exact h
  · exact told_updateState _ _ _

theorem Told.periodic {o : Controlled} (h : o.Told) (callback : Callback) (err : Int) (taken : Bool) :
    (o.periodic callback err taken).Told := by
  unfold Controlled.periodic
  split
  · exact told_updateState _ _ _
  · exact h

theorem Told.iterate {o : Controlled} (h : o.Told) (errRunning errCheck : Int) (taken₁ taken₂ : Bool) :
    (o.iterate errRunning errCheck taken₁ taken₂).Told := by
  unfold Controlled.iterate
  split
  · exact (h.periodic _ _ _).periodic _ _ _
  · exact h.periodic _ _ _

end Controlled

/-! ## What the methods are for -/

/-- From which state to which a method goes. -/
inductive Goes : Callback → TState → TState → Prop
  | prepare : Goes .executePrepare .standby .ready
  | reset : Goes .executeReset .ready .standby
  | recover : Goes .executeReset .error .standby
  | start : Goes .executeStart .ready .running
  | stop : Goes .executeStop .running .ready
  | stopPaused : Goes .executeStop .paused .ready
  | pause : Goes .executePause .running .paused
  | resume : Goes .executeResume .paused .running

/-- The calls that may come to pass from one state to another. -/
inductive Lifecycle : TState → List Called → TState → Prop
  | nil (s : TState) : Lifecycle s [] s
  | done {s s₁ s₂ : TState} {h : List Called} {c : Called} : Lifecycle s h s₁ → Goes c.callback s₁ s₂ → c.err = 0 →
      Lifecycle s (h ++ [c]) s₂
  | failed {s s₁ s₂ : TState} {h : List Called} {c : Called} : Lifecycle s h s₁ → Goes c.callback s₁ s₂ → c.err ≠ 0 →
      Lifecycle s (h ++ [c]) .error
  | running {s : TState} {h : List Called} {c : Called} : Lifecycle s h .running → c.callback = .iterateRunning →
      Lifecycle s (h ++ [c]) (if c.err = 0 then .running else .error)
  | check {s s₁ : TState} {h : List Called} {c : Called} : Lifecycle s h s₁ → c.callback = .iterateCheck →
      Lifecycle s (h ++ [c]) (if c.err = 0 then s₁ else .error)

theorem transition_goes {s s' : TState} {command : String} {cb : Callback} (h : transition s command = some (cb, s')) :
    Goes cb s s' ∧ cb.command = some command := by
  cases s with
  | standby =>
    obtain ⟨rfl, h⟩ := Option.ite_none_right_eq_some.1 h
    cases h
    exact ⟨.prepare, rfl⟩
  | ready =>
    simp only [transition] at h
    split at h
    · cases h
      subst command
      exact ⟨.start, rfl⟩
    · obtain ⟨rfl, h⟩ := Option.ite_none_right_eq_some.1 h
      cases h
      exact ⟨.reset, rfl⟩
  | running =>
    simp only [transition] at h
    split at h
    · cases h
      subst command
      exact ⟨.stop, rfl⟩
    · obtain ⟨rfl, h⟩ := Option.ite_none_right_eq_some.1 h
      cases h
      exact ⟨.pause, rfl⟩
  | paused =>
    simp only [transition] at h
    split at h
    · cases h
      subst command
      exact ⟨.resume, rfl⟩
    · obtain ⟨rfl, h⟩ := Option.ite_none_right_eq_some.1 h
      cases h
      exact ⟨.stopPaused, rfl⟩
  | error =>
    obtain ⟨rfl, h⟩ := Option.ite_none_right_eq_some.1 h
    cases h
    exact ⟨.recover, rfl⟩
  | undefined => cases h

/-- The last call is the one looked at, or comes after it. -/
theorem last_or_after {h before after : List Called} {c d : Called} (he : h ++ [d] = before ++ c :: after) :
    (after = [] ∧ d = c) ∨ ∃ rest, after = rest ++ [d] ∧ h = before ++ c :: rest := by
  rcases List.eq_nil_or_concat after with rfl | ⟨rest, x, rfl⟩
  · obtain ⟨-, hx⟩ := List.append_inj' he rfl
    cases hx
    exact .inl ⟨rfl, rfl⟩
  · rw [List.concat_eq_append, ← List.cons_append, ← List.append_assoc] at he
    obtain ⟨rfl, hx⟩ := List.append_inj' he rfl
    cases hx
    exact .inr ⟨rest, List.concat_eq_append, rfl⟩

/-- **After a call that failed** only `executeReset` is called, until it succeeds, and the check. -/
theorem Lifecycle.after_failed {s s' : TState} {h : List Called} (hl : Lifecycle s h s') :
    ∀ {before after : List Called} {c : Called}, h = before ++ c :: after → c.err ≠ 0 →
      (∀ d ∈ after, d.callback = .executeReset → d.err ≠ 0) →
      s' = .error ∧ ∀ d ∈ after, d.callback = .executeReset ∨ d.callback = .iterateCheck := by
  have more :
    ∀ {rest : List Called} {d : Called}, (∀ e ∈ rest, e.callback = .executeReset ∨ e.callback = .iterateCheck) →
      d.callback = .executeReset ∨ d.callback = .iterateCheck →
      ∀ e ∈ rest ++ [d], e.callback = .executeReset ∨ e.callback = .iterateCheck := by
    intro rest d hrest hd e he
    rcases List.mem_append.1 he with he | he
    · exact hrest e he
    · exact List.mem_singleton.1 he ▸ hd
  induction hl with
  | nil =>
    intro before after c he
    cases before <;> cases he
  | @done s₁ s₂ h d hl hg herr ih =>
    intro before after c he hc hreset
    rcases last_or_after he with ⟨rfl, rfl⟩ | ⟨rest, rfl, rfl⟩
    · exact absurd herr hc
    · obtain ⟨rfl, -⟩ := ih rfl hc fun e hmem => hreset e (List.mem_append_left _ hmem)
      -- the only method that goes on from an error would have to succeed
      have hmem := List.mem_append_right rest (List.mem_singleton_self d)
      generalize hcb : d.callback = cb at hg
      cases hg
      exact absurd herr (hreset d hmem hcb)
  | @failed s₁ s₂ h d hl hg herr ih =>
    intro before after c he hc hreset
    rcases last_or_after he with ⟨rfl, rfl⟩ | ⟨rest, rfl, rfl⟩
    · exact ⟨rfl, fun e hmem => by cases hmem⟩
    · obtain ⟨rfl, hrest⟩ := ih rfl hc fun e hmem => hreset e (List.mem_append_left _ hmem)
      refine ⟨rfl, more hrest ?_⟩
      generalize hcb : d.callback = cb at hg
      cases hg
      exact .inl rfl
  | @running h d hl hcb ih =>
    intro before after c he hc hreset
    rcases last_or_after he with ⟨rfl, rfl⟩ | ⟨rest, rfl, rfl⟩
    · exact ⟨if_neg hc, fun e hmem => by cases hmem⟩
    · obtain ⟨hrunning, -⟩ := ih rfl hc fun e hmem => hreset e (List.mem_append_left _ hmem)
      cases hrunning
  | @check s₁ h d hl hcb ih =>
    intro before after c he hc hreset
    rcases last_or_after he with ⟨rfl, rfl⟩ | ⟨rest, rfl, rfl⟩
    · exact ⟨if_neg hc, fun e hmem => by cases hmem⟩
    · obtain ⟨rfl, hrest⟩ := ih rfl hc fun e hmem => hreset e (List.mem_append_left _ hmem)
      exact ⟨ite_self _, more hrest (.inr hcb)⟩

/-! ## The engine keeps to it -/

variable {o : Controlled} {s : TState}

/-- **A command's step** of the lifecycle. -/
theorem Lifecycle.processStateTransition (h : Lifecycle s o.history o.state) (request : Nat) (command : String)
    (err : Int) (taken : Bool) :
    let o' := o.processStateTransition request command err taken
    Lifecycle s o'.history o'.state ∧ (o'.history = o.history ∨ ∃ cb, cb.command = some command ∧
      o'.history = o.history ++ [⟨cb, err, some request⟩]) := by
  unfold Controlled.processStateTransition
  cases ht : transition o.state command with
  | none => exact ⟨h, .inl rfl⟩
  | some t =>
    obtain ⟨cb, s'⟩ := t
    obtain ⟨hg, hcommand⟩ := transition_goes ht
    refine ⟨?_, .inr ⟨cb, hcommand, rfl⟩⟩
    show Lifecycle s (o.history ++ [⟨cb, err, some request⟩]) (if err = 0 then s' else .error)
    split
    · exact h.done hg ‹_›
    · exact h.failed hg ‹_›

theorem Lifecycle.runningFailed (h : Lifecycle s o.history .running) (ho : o.state = .running) (err : Int)
    (taken : Bool) :
    Lifecycle s (o.periodic .iterateRunning err taken).history (o.periodic .iterateRunning err taken).state := by
  have hl : Lifecycle s (o.history ++ [⟨.iterateRunning, err, none⟩]) (if err = 0 then .running else .error) :=
    h.running rfl
  unfold Controlled.periodic
  split
  next herr => rwa [if_neg herr] at hl
  next herr =>
    rw [if_pos (Classical.not_not.1 herr), ← ho] at hl
    exact hl

theorem Lifecycle.checkFailed (h : Lifecycle s o.history o.state) (err : Int) (taken : Bool) :
    Lifecycle s (o.periodic .iterateCheck err taken).history (o.periodic .iterateCheck err taken).state := by
  have hl : Lifecycle s (o.history ++ [⟨.iterateCheck, err, none⟩]) (if err = 0 then o.state else .error) := h.check rfl
  unfold Controlled.periodic
  split
  next herr => rwa [if_neg herr] at hl
  next herr => rwa [if_pos (Classical.not_not.1 herr)] at hl

theorem periodic_history (o : Controlled) (callback : Callback) (err : Int) (taken : Bool) :
    (o.periodic callback err taken).history = o.history ++ [⟨callback, err, none⟩] := by
  unfold Controlled.periodic
  split <;> rfl

/-- **The periodic actions' step** of the lifecycle. -/
theorem Lifecycle.iterate (h : Lifecycle s o.history o.state) (errRunning errCheck : Int) (taken₁ taken₂ : Bool) :
    let o' := o.iterate errRunning errCheck taken₁ taken₂
    Lifecycle s o'.history o'.state ∧ ∃ more, o'.history = o.history ++ more ∧ ∀ c ∈ more, c.request = none := by
  unfold Controlled.iterate
  split
  next hr =>
    have h₁ := (hr ▸ h).runningFailed hr errRunning taken₁
    refine ⟨h₁.checkFailed errCheck taken₂, [⟨.iterateRunning, errRunning, none⟩, ⟨.iterateCheck, errCheck, none⟩], ?_,
      by simp⟩
    rw [periodic_history, periodic_history, List.append_assoc]
    rfl
  next => exact ⟨h.checkFailed errCheck taken₂, [⟨.iterateCheck, errCheck, none⟩], periodic_history _ _ _ _, by simp⟩

end Control
end Flp
