import FlpPrototype.Lib.Run
import Mathlib.Logic.Function.Basic
import Mathlib.Tactic.Ring
/-!
# Aggregator — `DataBlockAggregator::threadCallback`

The callback looks at the first block of every input, picks the smallest id, and collects from every input the block
that has it into one data set, which it pushes to the output.  Each call of a FIFO is one step; between the steps the
readers push to the inputs, the consumer pops the output, and the timer runs.  Number 0 stands for "no id yet".

A data set records beside each block the input it came from; what was pushed, popped and emitted is recorded too.
-/
namespace Flp
namespace Readout

/-- A block: its id, and what else is in it. -/
structure Block where
  id : UInt64
  data : Nat
deriving DecidableEq

/-- An input FIFO of `size` places, with what went in and out. -/
structure Input where
  size : Nat
  queue : List Block
  pushed : List Block
  popped : List Block

def Input.push (q : Input) (b : Block) : Input :=
  if q.queue.length < q.size then { q with queue := q.queue ++ [b], pushed := q.pushed ++ [b] } else q

def Input.pop (q : Input) : Input :=
  match q.queue with
  | []        => q
  | b :: rest => { q with queue := rest, popped := q.popped ++ [b] }

/-- The blocks of a set, each with its input. -/
abbrev DataSet := List (Nat × Block)

/-- The variables of the first loop. -/
structure Look where
  someEmpty : Bool
  allEmpty : Bool
  allSame : Bool
  minId : UInt64
  lastId : UInt64
deriving DecidableEq

def Look.start : Look := ⟨false, true, true, 0, 0⟩

/-- An input with a block. -/
def Look.see (a : Look) (newId : UInt64) : Look where
  someEmpty := a.someEmpty
  allEmpty  := false
  minId     := if a.minId = 0 ∨ newId < a.minId then newId else a.minId
  allSame   := if a.lastId ≠ 0 ∧ newId ≠ a.lastId then false else a.allSame
  lastId    := newId

/-- An empty input. -/
def Look.miss (a : Look) : Look := { a with someEmpty := true, allSame := false }

inductive CallbackResult where
  | Ok
  | Idle
  | Error
deriving DecidableEq

/-- Where the callback is: the FIFO call it makes next. -/
inductive Pc where
  | idle
  | isFull
  | look (i : Nat) (a : Look)
  | lookFront (i : Nat) (a : Look)
  | decide (a : Look)
  | collect (i : Nat) (minId : UInt64) (bcv : DataSet)
  | collectFront (i : Nat) (minId : UInt64) (bcv : DataSet)
  | collectPop (i : Nat) (minId : UInt64) (bcv : DataSet) (b : Block)
  | push (bcv : DataSet)
deriving DecidableEq

structure Aggregator where
  inputs : Nat → Input
  output : List DataSet
  isIncompletePending : Bool
  result : CallbackResult
  pc : Pc
  emitted : List DataSet
  refused : List DataSet
  consumed : List DataSet

/-- The aggregator before anything was pushed, input `i` having `sizes i` places. -/
def Aggregator.start (sizes : Nat → Nat) : Aggregator :=
  ⟨fun i => ⟨sizes i, [], [], []⟩, [], false, .Idle, .idle, [], [], []⟩

def succIndex (i : Nat) : Nat := (i + 1) % 2 ^ 32

def Aggregator.goto (s : Aggregator) (p : Pc) : Aggregator := { s with pc := p }

/-- The callback returns. -/
def Aggregator.ret (s : Aggregator) (r : CallbackResult) : Aggregator := { s with pc := .idle, result := r }

/-- The next call of the callback, `n` inputs and `outputSize` places in the output.  What `isTimeout` answers and
whether the data set can be allocated is given from outside.  A null reference that is followed has no result. -/
def stepCallback (n outputSize : Nat) (s : Aggregator) (isTimeout allocated : Bool) : Option Aggregator :=
  match s.pc with
  | .idle => none
  | .isFull => if outputSize ≤ s.output.length then some (s.ret .Idle) else some (s.goto (.look 0 .start))
  | .look i a =>
    if i < n then
      if (s.inputs i).queue = [] then some (s.goto (.look (succIndex i) a.miss)) else some (s.goto (.lookFront i a))
    else some (s.goto (.decide a))
  | .lookFront i a => (s.inputs i).queue.head?.map fun b => s.goto (.look (succIndex i) (a.see b.id))
  | .decide a =>
    if a.allEmpty then some (s.ret .Idle)
    else if a.someEmpty && !isTimeout then some { s.ret .Idle with isIncompletePending := true }
    else
      let pending := !a.allSame && (s.isIncompletePending || a.someEmpty)
      if allocated then some { s.goto (.collect 0 a.minId []) with isIncompletePending := pending }
      else some { s.ret .Error with isIncompletePending := pending }
  | .collect i minId bcv =>
    if i < n then
      if (s.inputs i).queue = [] then some (s.goto (.collect (succIndex i) minId bcv))
      else some (s.goto (.collectFront i minId bcv))
    else some (s.goto (.push bcv))
  | .collectFront i minId bcv => (s.inputs i).queue.head?.map fun b =>
      if b.id = minId then s.goto (.collectPop i minId bcv b) else s.goto (.collect (succIndex i) minId bcv)
  | .collectPop i minId bcv b =>
    some { s with
      inputs := Function.update s.inputs i (s.inputs i).pop, pc := .collect (succIndex i) minId (bcv ++ [(i, b)]) }
  | .push bcv =>
    if s.output.length < outputSize then
      some { s with
        output := s.output ++ [bcv], emitted := s.emitted ++ [bcv], pc := .idle, result := .Ok }
    else some { s with refused := s.refused ++ [bcv], pc := .idle, result := .Ok }

inductive Action where
  | threadCallback
  | step (isTimeout allocated : Bool)
  | pushInput (i : Nat) (b : Block)
  | popOutput

def step (n outputSize : Nat) (s : Aggregator) : Action → Option Aggregator
  | .threadCallback        => some (s.goto .isFull)
  | .step isTimeout alloc  => stepCallback n outputSize s isTimeout alloc
  | .pushInput i b         => some { s with inputs := Function.update s.inputs i ((s.inputs i).push b) }
  | .popOutput             =>
    match s.output with
    | []        => some s
    | d :: rest => some { s with output := rest, consumed := s.consumed ++ [d] }

/-- One thread runs the callback. -/
def Proper (s : Aggregator) : Action → Prop
  | .threadCallback => s.pc = .idle
  | .step _ _       => s.pc ≠ .idle
  | _               => True

instance (s : Aggregator) : (a : Action) → Decidable (Proper s a)
  | .threadCallback => inferInstanceAs (Decidable (_ = _))
  | .step _ _       => inferInstanceAs (Decidable (_ ≠ _))
  | .pushInput _ _  => isTrue trivial
  | .popOutput      => isTrue trivial

def fromInput (i : Nat) (d : DataSet) : List Block := (d.filter (·.1 = i)).map (·.2)

/-- The set under construction. -/
def Pc.current : Pc → DataSet
  | .collect _ _ bcv | .collectFront _ _ bcv | .collectPop _ _ bcv _ | .push bcv => bcv
  | _                                                                            => []

@[simp] theorem fromInput_append (i : Nat) (d d' : DataSet) :
    fromInput i (d ++ d') = fromInput i d ++ fromInput i d' := by
  simp [fromInput]

@[simp] theorem fromInput_self (i : Nat) (b : Block) : fromInput i [(i, b)] = [b] := by simp [fromInput]

theorem fromInput_other {i j : Nat} (b : Block) (h : j ≠ i) : fromInput i [(j, b)] = [] := by simp [fromInput, h]

/-! ## FIFO calls -/

theorem Input.push_head {q : Input} {b c : Block} (h : q.queue.head? = some c) : (q.push b).queue.head? = some c := by
  unfold push
  split
  · simp [h]
  · exact h

theorem Input.push_popped (q : Input) (b : Block) : (q.push b).popped = q.popped := by
  unfold push
  split <;> rfl

theorem Input.push_pushed {q : Input} (b : Block) (h : q.popped ++ q.queue = q.pushed) :
    (q.push b).popped ++ (q.push b).queue = (q.push b).pushed := by
  unfold push
  split
  · simp [← h]
  · exact h

theorem Input.pop_popped {q : Input} {b : Block} (h : q.queue.head? = some b) : q.pop.popped = q.popped ++ [b] := by
  obtain ⟨rest, hq⟩ := List.head?_eq_some_iff.1 h
  simp [pop, hq]

theorem Input.pop_pushed {q : Input} (h : q.popped ++ q.queue = q.pushed) :
    q.pop.popped ++ q.pop.queue = q.pop.pushed := by
  unfold pop
  split
  · exact h
  · rename_i b rest hq
    simp [← h, hq]

end Readout
end Flp
