import FlpPrototype.Common.Fifo
/-!
# Commands — commands on their way to the engine

`ControlStateMachine::executeCommand` puts a `CommandRequest` into `pendingCommands`, a FIFO of one slot, and the
thread of `RuntimeControlEngine` looks at it with `front`, runs it, pops it and deletes it.  When the FIFO is full the
first thread looks at what keeps it busy, with `front` as well.  A step is one access to an index or a slot of the FIFO
or to a request; the steps of the two threads come in any order.  A request that is read or deleted after it was
deleted has no result here.  What was accepted, refused, processed and deleted is recorded beside the state.
-/
namespace Flp
namespace Control

open Common (next)

/-- What a call of `executeCommand` has: its argument, and the address of the request it makes. -/
structure Call where
  newCommand : Nat
  command : String
  deriving DecidableEq, Repr

/-- Where the thread in `executeCommand` is. -/
inductive Producer where
  | idle
  | allocate (command : String)
  | fill (c : Call)
  | pushEnd (c : Call)
  | pushStart (c : Call) (indexEndNew : Nat)
  | pushData (c : Call) (indexEndNew : Nat)
  | pushStore (c : Call) (indexEndNew : Nat)
  | usedEnd (c : Call)
  | usedStart (c : Call)
  | emptyEnd (c : Call)
  | emptyStart (c : Call) (e : Nat)
  | frontStart (c : Call)
  | frontSlot (c : Call) (ix : Nat)
  | print (c : Call) (currentCommand : Nat)
  | delete (c : Call)
  deriving DecidableEq, Repr

/-- Where the engine's thread is in a turn of its loop. -/
inductive Engine where
  | turn
  | emptyEnd
  | emptyStart (e : Nat)
  | frontStart
  | frontSlot (ix : Nat)
  | starting (newCommand : Nat)
  | process (newCommand : Nat)
  | done (newCommand : Nat)
  | popEmptyEnd (newCommand : Nat)
  | popEmptyStart (newCommand e : Nat)
  | popStart
  | popStore (new_indexStart : Nat)
  | popRead
  | popReadSlot (ix : Nat)
  | popReset (item : Option Nat)
  | popResetSlot (item : Option Nat) (ix : Nat)
  | delete (newCommand : Option Nat)
  | check
  deriving DecidableEq, Repr

/-- The FIFO and the requests, by address; a null pointer is `none`.  `turnBegan` is how many commands were accepted
when the engine's turn began, and `turns` has that number and the number processed at the end for each turn. -/
structure State where
  indexStart : Nat
  indexEnd : Nat
  data : List (Option Nat)
  requests : List String
  producer : Producer
  engine : Engine
  accepted : List Call
  rejected : List Call
  processed : List Call
  deleted : List Nat
  turnBegan : Nat
  turns : List (Nat × Nat)
  deriving DecidableEq, Repr

/-- The size `pendingCommands` is made with. -/
def pendingSize : Nat := 1

def start : State := ⟨0, 0, List.replicate (pendingSize + 1) none, [], .idle, .turn, [], [], [], [], 0, []⟩

/-- The command of a request that exists. -/
def State.read (s : State) (p : Nat) : Option String := if p ∈ s.deleted then none else s.requests[p]?

/-- `delete`, once for a request that exists; a null pointer is left alone. -/
def State.delete (s : State) : Option Nat → Option State
  | none   => some s
  | some p => (s.read p).map fun _ => { s with deleted := s.deleted ++ [p] }

/-- The slot `front` reads. -/
def frontIndex (indexStart : Nat) : Option Nat :=
  (intAdd indexStart 1).bind fun a => (intAdd pendingSize 1).map fun n => a % n

/-- The next step of the thread that delivers: into `executeCommand` with the next command, or on in it. -/
def stepProducer (command : String) (s : State) : Option State :=
  match s.producer with
  | .idle => some { s with producer := .allocate command }
  | .allocate command =>
    some { s with requests := s.requests ++ [""], producer := .fill ⟨s.requests.length, command⟩ }
  | .fill c => (s.read c.newCommand).map fun _ =>
      { s with requests := s.requests.set c.newCommand c.command, producer := .pushEnd c }
  | .pushEnd c => (next pendingSize s.indexEnd).map fun new => { s with producer := .pushStart c new }
  | .pushStart c new =>
    if new = s.indexStart then some { s with rejected := s.rejected ++ [c], producer := .usedEnd c }
    else some { s with producer := .pushData c new }
  | .pushData c new =>
    if new < s.data.length then
      some { s with data := s.data.set new (some c.newCommand), producer := .pushStore c new }
    else none
  | .pushStore c new => some { s with indexEnd := new, accepted := s.accepted ++ [c], producer := .idle }
  -- already busy: `getNumberOfUsedSlots` loads both indices, then `front`
  | .usedEnd c => some { s with producer := .usedStart c }
  | .usedStart c => some { s with producer := .emptyEnd c }
  | .emptyEnd c => some { s with producer := .emptyStart c s.indexEnd }
  | .emptyStart c e => some { s with producer := if e = s.indexStart then .delete c else .frontStart c }
  | .frontStart c => (frontIndex s.indexStart).map fun ix => { s with producer := .frontSlot c ix }
  | .frontSlot c ix => s.data[ix]?.map fun
      | none   => { s with producer := .delete c }
      | some q => { s with producer := .print c q }
  | .print c q => (s.read q).map fun _ => { s with producer := .delete c }
  | .delete c => (s.delete (some c.newCommand)).map fun s => { s with producer := .idle }

/-- The next step of the engine. -/
def stepEngine (s : State) : Option State :=
  match s.engine with
  | .turn => some { s with turnBegan := s.accepted.length, engine := .emptyEnd }
  | .emptyEnd => some { s with engine := .emptyStart s.indexEnd }
  | .emptyStart e => some { s with engine := if e = s.indexStart then .check else .frontStart }
  | .frontStart => (frontIndex s.indexStart).map fun ix => { s with engine := .frontSlot ix }
  | .frontSlot ix => s.data[ix]?.map fun
      | none   => { s with engine := .check }
      | some p => { s with engine := .starting p }
  | .starting p => (s.read p).map fun _ => { s with engine := .process p }
  | .process p => (s.read p).map fun command =>
      { s with processed := s.processed ++ [⟨p, command⟩], engine := .done p }
  | .done p => (s.read p).map fun _ => { s with engine := .popEmptyEnd p }
  | .popEmptyEnd p => some { s with engine := .popEmptyStart p s.indexEnd }
  -- a pop that fails leaves `newCommand` as it is
  | .popEmptyStart p e => some { s with engine := if e = s.indexStart then .delete (some p) else .popStart }
  | .popStart => (next pendingSize s.indexStart).map fun new => { s with engine := .popStore new }
  | .popStore new => some { s with indexStart := new, engine := .popRead }
  | .popRead => some { s with engine := .popReadSlot s.indexStart }
  | .popReadSlot ix => s.data[ix]?.map fun item => { s with engine := .popReset item }
  | .popReset item => some { s with engine := .popResetSlot item s.indexStart }
  | .popResetSlot item ix =>
    if ix < s.data.length then some { s with data := s.data.set ix none, engine := .delete item } else none
  | .delete item => (s.delete item).map fun s => { s with engine := .check }
  | .check => some { s with turns := s.turns ++ [(s.turnBegan, s.processed.length)], engine := .turn }

/-- Which thread takes its next step; `command` is what the first one delivers if it is in no call. -/
inductive Action where
  | producer (command : String)
  | engine
  deriving DecidableEq, Repr

def step (s : State) : Action → Option State
  | .producer command => stepProducer command s
  | .engine           => stepEngine s

/-- The engine deletes no request that the other thread is about to print. -/
def Spared (s : State) : Action → Prop
  | .engine => ∀ c q, s.producer = .print c q → s.engine ≠ .delete (some q)
  | _       => True

end Control
end Flp
