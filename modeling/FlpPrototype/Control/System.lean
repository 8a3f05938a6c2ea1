import FlpPrototype.Control.Commands
import FlpPrototype.Control.Lifecycle
/-!
# System — commands from the clients of the directory to the objects of an engine

A client sends a command by making a child of the object's command node, ephemeral and numbered.  The object's side has
a watch on the node, good for one change: the change makes an event, and the one thread that handles events reads the
children again, which sets the watch anew, then reads, delivers and deletes each.  Delivered is a command by a call of
`executeCommand`, step by step as in `Commands`.  The engine goes through its objects, takes a request from each and
runs it, then the periodic actions.  An object is registered while the engine is between two turns (both hold the same
mutex): it subscribes and deletes the children it finds, then the rest of it is made; up to there a delivered command
goes to the base class, which does nothing, or comes before `pendingCommands` exists and has no result here.

The directory is the surroundings: in which order it lists children, and that a call of it fails, is part of an action.
A string's characters are its bytes.
-/
namespace Flp
namespace Control

/-- The command node of an object: the values of the children made so far, by number, the children there are, and
whether a watch is set.  The other fields record what became of children: those whose client has gone, those whose
delete failed, those purged at the start, those that could not be read, and those delivered before there was an object.
`deaf` is set when the children could not be listed: there is no watch from then on. -/
structure CommandNode where
  sent : List String
  present : List Nat
  watched : Bool
  withdrawn : List Nat
  undeleted : List Nat
  purged : List Nat
  unread : List Nat
  ignored : List Nat
  deaf : Bool
  deriving DecidableEq, Repr

/-- How far the registration of an object is. -/
inductive Phase where
  | subscribe
  | purge (children : List Nat)
  | construct
  | registered
  deriving DecidableEq, Repr

/-- A `ControlStateMachine`; `delivered` has the number of the child and the command of each call of its
`executeCommand`. -/
structure Machine where
  phase : Phase
  node : CommandNode
  fifo : State
  object : Controlled
  delivered : List (Nat × String)
  deriving DecidableEq, Repr

/-- Where the thread that handles an event of a node is: about to list the children, between two of them, in
`executeCommand` or about to delete one. -/
inductive Stage where
  | list
  | next (children : List Nat)
  | call (child : Nat) (children : List Nat)
  | delete (child : Nat) (children : List Nat)
  deriving DecidableEq, Repr

/-- The machines in the order of their registration, the events not handled yet, the thread that handles them, and the
machine the engine is at in its turn. -/
structure System where
  machines : List Machine
  events : List Nat
  watcher : Option (Nat × Stage)
  engine : Option Nat
  deriving DecidableEq, Repr

/-- Steps of the thread that registers objects; `ok` and `taken` are whether a delete succeeds and whether the directory
takes a value, `order` the children as the directory lists them. -/
inductive Registering where
  | subscribeNewChild (order : Option (List Nat))
  | purge (ok : Bool)
  | construct (taken : Bool)
  deriving DecidableEq, Repr

/-- Steps of the thread that handles events. -/
inductive Watching where
  | getChildren (order : Option (List Nat))
  | get (ok : Bool)
  | call
  | delete (ok : Bool)
  | handled
  deriving DecidableEq, Repr

/-- Steps of the engine at a machine: on in its loop, but for the calls of the object's methods, and these. -/
inductive Turning where
  | fifo
  | process (err : Int) (taken : Bool)
  | iterate (errRunning errCheck : Int) (taken₁ taken₂ : Bool)
  deriving DecidableEq, Repr

namespace CommandNode

/-- A command node with children left from before. -/
def found (left : List String) : CommandNode :=
  ⟨left, List.range left.length, false, [], [], [], [], [], false⟩

/-- A client makes a child. -/
def create (n : CommandNode) (command : String) : CommandNode :=
  { n with sent := n.sent ++ [command], present := n.present ++ [n.sent.length], watched := false }

/-- A child goes with the session of its client. -/
def withdraw (n : CommandNode) (child : Nat) : CommandNode :=
  { n with present := n.present.filter (· ≠ child), watched := false, withdrawn := n.withdrawn ++ [child] }

/-- A child is deleted. -/
def remove (n : CommandNode) (child : Nat) : CommandNode :=
  { n with present := n.present.filter (· ≠ child), watched := false }

/-- `zoo_wget_children`: the children there are, in the order the directory gives them, and a watch; or a failure. -/
def getChildren (n : CommandNode) : Option (List Nat) → Option CommandNode
  | none       => some { n with deaf := true }
  | some order => if order.Perm n.present then some { n with watched := true } else none

/-- `zoo_get` into a buffer of 127 bytes; `ok` is false when it fails for another reason than a missing child. -/
def get (n : CommandNode) (child : Nat) (ok : Bool) : Option String :=
  if child ∈ n.present ∧ ok then n.sent[child]?.map fun value => String.ofList (value.toList.take 127) else none

end CommandNode

namespace Machine

/-- A machine that is about to subscribe. -/
def new (left : List String) : Machine :=
  ⟨.subscribe, .found left, Control.start, ⟨.undefined, none, false, []⟩, []⟩

/-- A delete that may fail; one of a missing child does. -/
def deleteChild (m : Machine) (child : Nat) (ok : Bool) : Machine :=
  if child ∈ m.node.present then
    if ok then { m with node := m.node.remove child }
    else { m with node := { m.node with undeleted := m.node.undeleted ++ [child] } }
  else m

/-- A step of the registration. -/
def register (m : Machine) : Registering → Option Machine
  | .subscribeNewChild order =>
    if m.phase = .subscribe then
      (m.node.getChildren order).map fun node => { m with node, phase := .purge (order.getD []) }
    else none
  | .purge ok =>
    match m.phase with
    | .purge []        => some { m with phase := .construct }
    | .purge (k :: ks) =>
      let m' := { m with phase := .purge ks }.deleteChild k ok
      -- a child that is deleted here has not been read here
      some (if k ∈ m.node.present ∧ ok then { m' with node := { m'.node with purged := m'.node.purged ++ [k] } }
        else m')
    | _                => none
  | .construct taken =>
    if m.phase = .construct then
      some { m with phase := .registered, object := m.object.updateState .standby taken }
    else none

/-- A call of `executeCommand` by the thread that handles events: of the base class up to the end of its constructor,
and no result before `pendingCommands` is made. -/
def deliver (m : Machine) (child : Nat) (command : String) (children : List Nat) : Option (Machine × Option Stage) :=
  match m.phase with
  | .construct  => none
  | .registered => (Control.step m.fifo (.producer command)).map fun fifo =>
      ({ m with fifo, delivered := m.delivered ++ [(child, command)] }, some (.call child children))
  | _           => some ({ m with node := { m.node with ignored := m.node.ignored ++ [child] } },
      some (.delete child children))

/-- A step of the thread that handles events, in `z_watcher_subNode`. -/
def watch (m : Machine) : Stage → Watching → Option (Machine × Option Stage)
  | .list, .getChildren order =>
    (m.node.getChildren order).map fun node => ({ m with node }, order.map .next)
  | .next [], .handled => some (m, none)
  | .next (k :: ks), .get ok =>
    match m.node.get k ok with
    | none         => some ({ m with node := { m.node with unread := m.node.unread ++ [k] } }, some (.delete k ks))
    | some command => m.deliver k command ks
  | .call k ks, .call =>
    (Control.step m.fifo (.producer "")).map fun fifo =>
      ({ m with fifo }, some (if fifo.producer = .idle then .delete k ks else .call k ks))
  | .delete k ks, .delete ok => some (m.deleteChild k ok, some (.next ks))
  | _, _ => none

/-- A step of the engine. -/
def turn (m : Machine) : Turning → Option Machine
  | .fifo =>
    match m.fifo.engine with
    | .process _ | .check => none
    | _                   => (Control.step m.fifo .engine).map fun fifo => { m with fifo }
  | .process err taken =>
    match m.fifo.engine with
    | .process p => (m.fifo.read p).bind fun command => (Control.step m.fifo .engine).map fun fifo =>
        { m with fifo, object := m.object.processStateTransition p command err taken }
    | _          => none
  | .iterate errRunning errCheck taken₁ taken₂ =>
    if m.fifo.engine = .check then
      (Control.step m.fifo .engine).map fun fifo =>
        { m with fifo, object := m.object.iterate errRunning errCheck taken₁ taken₂ }
    else none

end Machine

namespace System

inductive Action where
  | registerObject (left : List String)
  | register (a : Registering)
  | sendCommand (o : Nat) (command : String)
  | withdraw (o child : Nat)
  | takeEvent
  | watch (a : Watching)
  | beginTurn
  | turn (a : Turning)
  | endTurn
  deriving DecidableEq, Repr

def start : System := ⟨[], [], none, none⟩

/-- A machine goes on; if that has used up the watch on its node, there is an event. -/
def goOn (s : System) (o : Nat) (m m' : Machine) : System :=
  { s with
    machines := s.machines.set o m'
    events := if m.node.watched && !m'.node.watched then s.events ++ [o] else s.events }

/-- The engine and the thread that registers objects hold the same mutex. -/
def Unlocked (s : System) : Prop := s.engine = none ∧ ∀ m ∈ s.machines, m.phase = .registered

instance (s : System) : Decidable s.Unlocked := inferInstanceAs (Decidable (_ ∧ _))

def step (s : System) : Action → Option System
  | .registerObject left => if s.Unlocked then some { s with machines := s.machines ++ [.new left] } else none
  | .register a =>
    s.machines.getLast?.bind fun m => (m.register a).map fun m' => s.goOn (s.machines.length - 1) m m'
  | .sendCommand o command =>
    s.machines[o]?.map fun m => s.goOn o m { m with node := m.node.create command }
  | .withdraw o child => s.machines[o]?.bind fun m =>
      if child ∈ m.node.present then some (s.goOn o m { m with node := m.node.withdraw child }) else none
  | .takeEvent =>
    match s.watcher, s.events with
    | none, o :: events => some { s with events, watcher := some (o, .list) }
    | _, _              => none
  | .watch a => s.watcher.bind fun w => s.machines[w.1]?.bind fun m => (m.watch w.2 a).map fun r =>
      { s.goOn w.1 m r.1 with watcher := r.2.map fun stage => (w.1, stage) }
  | .beginTurn => if s.Unlocked then some { s with engine := some 0 } else none
  | .turn a => s.engine.bind fun o => s.machines[o]?.bind fun m => (m.turn a).map fun m' =>
      { s.goOn o m m' with engine := match a with
        | .iterate _ _ _ _ => some (o + 1)
        | _                => some o }
  | .endTurn => s.engine.bind fun o => if s.machines.length ≤ o then some { s with engine := none } else none

end System

/-! ## What the parts of a step do -/

namespace Machine

variable {m m' : Machine}

/-- A command is given to `pendingCommands`, or to the base class. -/
theorem deliver_cases {child : Nat} {command : String} {children : List Nat} {stage : Option Stage}
    (h : m.deliver child command children = some (m', stage)) :
    (m.phase = .registered ∧ ∃ fifo, stepProducer command m.fifo = some fifo ∧
      m' = { m with fifo, delivered := m.delivered ++ [(child, command)] } ∧ stage = some (.call child children)) ∨
    m' = { m with node := { m.node with ignored := m.node.ignored ++ [child] } } ∧
      stage = some (.delete child children) := by
  unfold deliver at h
  split at h
  next => cases h
  next hphase =>
    obtain ⟨fifo, hfifo, he⟩ := Option.map_eq_some_iff.1 h
    cases he
    exact .inl ⟨hphase, fifo, hfifo, rfl, rfl⟩
  next =>
    cases h
    exact .inr ⟨rfl, rfl⟩

/-- **The engine goes on in its loop**, and may have the object called. -/
theorem turn_cases {a : Turning} (h : m.turn a = some m') : ∃ fifo, stepEngine m.fifo = some fifo ∧
    (m' = { m with fifo } ∨
      (∃ p command err taken, m.fifo.engine = .process p ∧ m.fifo.read p = some command ∧
        m' = { m with fifo, object := m.object.processStateTransition p command err taken }) ∨
      ∃ errRunning errCheck taken₁ taken₂,
        m' = { m with fifo, object := m.object.iterate errRunning errCheck taken₁ taken₂ }) := by
  cases a with
  | fifo =>
    simp only [turn] at h
    split at h
    next => cases h
    next => cases h
    next =>
      obtain ⟨fifo, hfifo, rfl⟩ := Option.map_eq_some_iff.1 h
      exact ⟨fifo, hfifo, .inl rfl⟩
  | process err taken =>
    simp only [turn] at h
    split at h
    next p hengine =>
      obtain ⟨command, hread, h⟩ := Option.bind_eq_some_iff.1 h
      obtain ⟨fifo, hfifo, rfl⟩ := Option.map_eq_some_iff.1 h
      exact ⟨fifo, hfifo, .inr (.inl ⟨p, command, err, taken, hengine, hread, rfl⟩)⟩
    next => cases h
  | iterate errRunning errCheck taken₁ taken₂ =>
    obtain ⟨-, h⟩ := Option.ite_none_right_eq_some.1 h
    obtain ⟨fifo, hfifo, rfl⟩ := Option.map_eq_some_iff.1 h
    exact ⟨fifo, hfifo, .inr (.inr ⟨errRunning, errCheck, taken₁, taken₂, rfl⟩)⟩

end Machine
end Control
end Flp
