import FlpPrototype.InfoLoggerD.Dispatch
import FlpPrototype.Lib.Turns
/-!
# ServerLoop — `InfoLoggerServer::doLoop`

The server takes a file from the transport, decodes it to a list of messages, gives the list to each base dispatcher and
then to one of those for the database, trying them in turn, three times around at most.  A base dispatcher whose queue
is full goes without, a list for which all database queues are full is lost.  Each dispatcher has a thread of its own,
and all of them go on between any two accesses of the server's.
-/
namespace Flp
namespace InfoLoggerServer

/-- What became of a file: it could not be decoded, a database dispatcher took its list, or the list was lost; then the
record has the dispatchers that were full and how many lists each held. -/
inductive Outcome (α : Type) where
  | undecoded
  | kept (msgList : α) (engine : Nat)
  | lost (msgList : α) (full : List (Nat × Nat))
  deriving DecidableEq

def Outcome.list {α : Type} : Outcome α → Option α
  | .undecoded   => none
  | .kept m _    => some m
  | .lost m _    => some m

/-- The list, if it went to a dispatcher. -/
def Outcome.keptBy {α : Type} (k : Nat) : Outcome α → Option α
  | .kept m j => if j = k then some m else none
  | _         => none

/-- What a base dispatcher answered when it was given a list: it took it, or it was full and held so many. -/
structure Offer (α : Type) where
  engine : Nat
  msgList : α
  full : Option Nat
  deriving DecidableEq

/-- The list, if it was given to this dispatcher. -/
def Offer.givenTo {α : Type} (k : Nat) (o : Offer α) : Option α := if o.engine = k then some o.msgList else none

/-- The list, if this dispatcher took it. -/
def Offer.takenBy {α : Type} (k : Nat) (o : Offer α) : Option α :=
  match o.full with
  | none   => o.givenTo k
  | some _ => none

/-- Where `doLoop` is: before a file, in a call of `pushMessage`, or about to acknowledge the file. -/
inductive Phase (α : Type) where
  | idle
  | base (msgList : α) (k : Nat) (call : Pushing)
  | db (msgList : α) (nTry : Nat) (call : Pushing)
  | done

/-- `InfoLoggerServer`, with a record of the lists decoded, of the answers of the base dispatchers, of the database
dispatchers found full for the list at hand, and of what became of each file. -/
structure Server (α : Type) where
  dispatchEngines : List (Dispatch α)
  dispatchEnginesDB : List (Dispatch α)
  dbRoundRobinIx : Nat
  msgCount : UInt64
  phase : Phase α
  decoded : List α
  offers : List (Offer α)
  full : List (Nat × Nat)
  outcomes : List (Outcome α)

/-- A step: `TR_server_get_file` gives a file, with what it is decoded to; the next access of the server's thread; the
file is acknowledged; a step of a dispatcher. -/
inductive Action (α : Type) where
  | getFile (msgList : Option α)
  | push
  | ackFile
  | base (k : Nat) (a : Threading)
  | db (k : Nat) (a : Threading)

variable {α : Type}

namespace Server

/-- `size` is `dbDispatchQueueSize`. -/
def start (size nBase dbNThreads : Nat) : Option (Server α) :=
  (Dispatch.create size).map fun d => ⟨List.replicate nBase d, List.replicate dbNThreads d, 0, 0, .idle, [], [], [], []⟩

/-- The file is dealt with. -/
def finish (s : Server α) (messages : α → Nat) (m : α) (o : Outcome α) : Server α :=
  { s with
    phase := .done, msgCount := s.msgCount + UInt64.ofNat (messages m), full := [], outcomes := s.outcomes ++ [o] }

/-- A try to give a list to the next database dispatcher begins, if there is one left. -/
def beginTry (size : Nat) (messages : α → Nat) (s : Server α) (m : α) (nTry : Nat) : Option (Server α) :=
  if nTry ≤ s.dispatchEnginesDB.length * 3 then
    s.dispatchEnginesDB[s.dbRoundRobinIx]?.bind fun d => (d.call size .isFull).map fun d =>
      { s with dispatchEnginesDB := s.dispatchEnginesDB.set s.dbRoundRobinIx d, phase := .db m nTry .isFull }
  else some (s.finish messages m (.lost m s.full))

/-- A list is to be given to a base dispatcher, or they all had it. -/
def beginBase (size : Nat) (messages : α → Nat) (s : Server α) (m : α) (k : Nat) : Option (Server α) :=
  match s.dispatchEngines[k]? with
  | some d => (d.call size .isFull).map fun d =>
      { s with dispatchEngines := s.dispatchEngines.set k d, phase := .base m k .isFull }
  | none   => s.beginTry size messages m 1

/-- `dbRoundRobinIx` behind a try. -/
def nextIx (s : Server α) : Nat := if s.dbRoundRobinIx + 1 ≥ s.dispatchEnginesDB.length then 0 else s.dbRoundRobinIx + 1

/-- The next access of the server's thread. -/
def push (size : Nat) (messages : α → Nat) (s : Server α) : Option (Server α) :=
  match s.phase with
  | .base m k call => s.dispatchEngines[k]?.bind fun d => (d.pushMessage size m call).bind fun r =>
      let s := { s with dispatchEngines := s.dispatchEngines.set k r.1 }
      match r.2 with
      | .goesOn call => some { s with phase := .base m k call }
      | .returns ok  =>
        let answer : Offer α := ⟨k, m, if ok then none else some r.1.held⟩
        { s with offers := s.offers ++ [answer] }.beginBase size messages m (k + 1)
  | .db m nTry call => s.dispatchEnginesDB[s.dbRoundRobinIx]?.bind fun d => (d.pushMessage size m call).bind fun r =>
      let s := { s with dispatchEnginesDB := s.dispatchEnginesDB.set s.dbRoundRobinIx r.1 }
      match r.2 with
      | .goesOn call    => some { s with phase := .db m nTry call }
      | .returns true   => some ({ s with dbRoundRobinIx := s.nextIx }.finish messages m (.kept m s.dbRoundRobinIx))
      | .returns false  =>
        { s with dbRoundRobinIx := s.nextIx, full := s.full ++ [(s.dbRoundRobinIx, r.1.held)] }.beginTry size messages m
          (nTry + 1)
  | .idle => none
  | .done => none

def step (size : Nat) (messages : α → Nat) (s : Server α) : Action α → Option (Server α)
  | .getFile none     => some { s with phase := .done, outcomes := s.outcomes ++ [.undecoded] }
  | .getFile (some m) => { s with decoded := s.decoded ++ [m] }.beginBase size messages m 0
  | .push             => s.push size messages
  | .ackFile          => some { s with phase := .idle }
  | .base k a         => s.dispatchEngines[k]?.bind fun d => (d.thread size a).map fun d =>
      { s with dispatchEngines := s.dispatchEngines.set k d }
  | .db k a           => s.dispatchEnginesDB[k]?.bind fun d => (d.thread size a).map fun d =>
      { s with dispatchEnginesDB := s.dispatchEnginesDB.set k d }

/-- Each thread does what it is at. -/
def mayDo (s : Server α) : Action α → Bool
  | .getFile _ => match s.phase with
    | .idle => true
    | _     => false
  | .push      => match s.phase with
    | .base _ _ _ | .db _ _ _ => true
    | _                       => false
  | .ackFile   => match s.phase with
    | .done => true
    | _     => false
  | .base k a  => s.dispatchEngines[k]?.any (·.mayDo a)
  | .db k a    => s.dispatchEnginesDB[k]?.any (·.mayDo a)

end Server
end InfoLoggerServer
end Flp
