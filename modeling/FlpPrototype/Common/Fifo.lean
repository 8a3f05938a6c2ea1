import FlpPrototype.Lib.CInt
import FlpPrototype.Lib.Promise
import FlpPrototype.Lib.Run
/-!
# Fifo — `Common::Fifo`, one writer and one reader

The writer runs `push`, `isFull` and `getNumberOfFreeSlots`, the reader `pop`, `front`, `isEmpty` and
`getNumberOfUsedSlots`.  A step is one access to `indexStart`, `indexEnd` or a slot of `data`; the steps of the two
sides come in any order.  What was pushed and popped and what each side saw is recorded beside the state.
-/
namespace Flp
namespace Common

/-- Where the writer is.  `e` is a value of `indexEnd` plus one. -/
inductive Writer (α : Type) where
  | idle
  | pushEnd (item : α)
  | pushStart (item : α) (indexEndNew : Nat)
  | pushData (item : α) (indexEndNew : Nat)
  | pushStore (item : α) (indexEndNew : Nat)
  | fullEnd
  | fullStart (e : Nat)
  | fullEndAgain
  | fullStartAgain
  | freeEnd
  | freeStart (i1 : Nat)

/-- The function that called `isEmpty`, or `isEmpty` itself. -/
inductive Caller where
  | pop
  | front
  | isEmpty
deriving DecidableEq

/-- Where the reader is. -/
inductive Reader (α : Type) where
  | idle
  | emptyEnd (k : Caller)
  | emptyStart (k : Caller) (e : Nat)
  | popStart
  | popStore (new_indexStart : Nat)
  | popRead
  | popReadSlot (ix : Nat)
  | popReset (item : α)
  | popResetSlot (item : α) (ix : Nat)
  | frontStart
  | frontSlot (ix : Nat)
  | usedEnd
  | usedStart (i1 : Nat)

structure Fifo (α : Type) where
  indexStart : Nat
  indexEnd : Nat
  data : List α
  nIn : UInt64
  nOut : UInt64
  writer : Writer α
  reader : Reader α
  pushed : List α
  popped : List α
  written : List Seen
  read : List Seen

variable {α : Type}

/-- `Fifo(size)`: undefined when `size + 1` is no `int`.  The slots start with `T()`. -/
def Fifo.create (size : Nat) (blank : α) : Option (Fifo α) :=
  (intAdd size 1).map fun n => ⟨0, 0, List.replicate n blank, 0, 0, .idle, .idle, [], [], [], []⟩

/-- The index after the one given: back to the first one behind `size`. -/
def next (size index : Nat) : Option Nat := (intAdd index 1).map fun n => if n > size then 0 else n

/-- `getNumberOfFreeSlots` of the two indices it loaded. -/
def numberOfFreeSlots (size i1 i2 : Nat) : Int := if i1 ≥ i2 then size - i1 + i2 else i2 - i1 - 1

/-- A function of the writer ends. -/
def Fifo.writerSees (s : Fifo α) (e : Seen) : Fifo α := { s with writer := .idle, written := s.written ++ [e] }

/-- A function of the reader ends. -/
def Fifo.readerSees (s : Fifo α) (e : Seen) : Fifo α := { s with reader := .idle, read := s.read ++ [e] }

/-- The writer's next access. -/
def stepWriter (size : Nat) (s : Fifo α) : Option (Fifo α) :=
  match s.writer with
  | .idle => none
  | .pushEnd item => (next size s.indexEnd).map fun new => { s with writer := .pushStart item new }
  | .pushStart item new =>
    if new = s.indexStart then some (s.writerSees .refused) else some { s with writer := .pushData item new }
  | .pushData item new =>
    if new < s.data.length then some { s with data := s.data.set new item, writer := .pushStore item new } else none
  | .pushStore item new =>
    some { s with
      indexEnd := new, nIn := s.nIn + 1, pushed := s.pushed ++ [item], writer := .idle,
      written := s.written ++ [.done] }
  | .fullEnd => (intAdd s.indexEnd 1).map fun e => { s with writer := .fullStart e }
  | .fullStart e =>
    if e = s.indexStart then some (s.writerSees (.room 0)) else some { s with writer := .fullEndAgain }
  | .fullEndAgain => (intAdd s.indexEnd 1).map fun e =>
      if e > size then { s with writer := .fullStartAgain } else s.writerSees (.room 1)
  | .fullStartAgain =>
    if s.indexStart = 0 then some (s.writerSees (.room 0)) else some (s.writerSees (.room 1))
  | .freeEnd => some { s with writer := .freeStart s.indexEnd }
  | .freeStart i1 => some (s.writerSees (.room (numberOfFreeSlots size i1 s.indexStart)))

/-- The reader's next access.  `zero` is what a slot is reset to. -/
def stepReader (size : Nat) (zero : α) (s : Fifo α) : Option (Fifo α) :=
  match s.reader with
  | .idle => none
  | .emptyEnd k => some { s with reader := .emptyStart k s.indexEnd }
  | .emptyStart k e =>
    if e = s.indexStart then
      match k with
      | .pop     => some (s.readerSees .refused)
      | .front   => some { s with reader := .idle }
      | .isEmpty => some (s.readerSees (.room 0))
    else
      match k with
      | .pop     => some { s with reader := .popStart }
      | .front   => some { s with reader := .frontStart }
      | .isEmpty => some (s.readerSees (.room 1))
  | .popStart => (next size s.indexStart).map fun new => { s with reader := .popStore new }
  | .popStore new => some { s with indexStart := new, reader := .popRead }
  | .popRead => some { s with reader := .popReadSlot s.indexStart }
  | .popReadSlot ix => s.data[ix]?.map fun item => { s with reader := .popReset item }
  | .popReset item => some { s with reader := .popResetSlot item s.indexStart }
  | .popResetSlot item ix =>
    if ix < s.data.length then
      some { s with
        data := s.data.set ix zero, nOut := s.nOut + 1, popped := s.popped ++ [item], reader := .idle,
        read := s.read ++ [.done] }
    else none
  | .frontStart =>
    (intAdd s.indexStart 1).bind fun a => (intAdd size 1).map fun n => { s with reader := .frontSlot (a % n) }
  | .frontSlot ix => s.data[ix]?.map fun _ => { s with reader := .idle }
  | .usedEnd => some { s with reader := .usedStart s.indexEnd }
  | .usedStart i1 => some (s.readerSees (.room (size - numberOfFreeSlots size i1 s.indexStart)))

inductive Action (α : Type) where
  | push (item : α)
  | isFull
  | getNumberOfFreeSlots
  | pop
  | front
  | isEmpty
  | getNumberOfUsedSlots
  | writer
  | reader

def step (size : Nat) (zero : α) (s : Fifo α) : Action α → Option (Fifo α)
  | .push item            => some { s with writer := .pushEnd item }
  | .isFull               => some { s with writer := .fullEnd }
  | .getNumberOfFreeSlots => some { s with writer := .freeEnd }
  | .pop                  => some { s with reader := .emptyEnd .pop }
  | .front                => some { s with reader := .emptyEnd .front }
  | .isEmpty              => some { s with reader := .emptyEnd .isEmpty }
  | .getNumberOfUsedSlots => some { s with reader := .usedEnd }
  | .writer               => stepWriter size s
  | .reader               => stepReader size zero s

def Writer.isIdle : Writer α → Bool
  | .idle => true
  | _     => false

def Reader.isIdle : Reader α → Bool
  | .idle => true
  | _     => false

/-- Each side runs one function at a time. -/
def Proper (s : Fifo α) : Action α → Prop
  | .push _ | .isFull | .getNumberOfFreeSlots        => s.writer.isIdle = true
  | .pop | .front | .isEmpty | .getNumberOfUsedSlots => s.reader.isIdle = true
  | .writer                                          => s.writer.isIdle = false
  | .reader                                          => s.reader.isIdle = false

end Common
end Flp
