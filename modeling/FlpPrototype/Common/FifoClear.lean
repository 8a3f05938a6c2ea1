import FlpPrototype.Common.Fifo
import FlpPrototype.Lib.Answers
import FlpPrototype.Lib.Ring
import Mathlib.Data.List.Pairwise
/-!
# FifoClear — `Common::Fifo` in one thread, with `clear`

Called by one thread, every function runs as a whole.  The queue is the window behind `indexStart` in the circular
`data`, until `clear` empties not only the queue but the vector too: whatever is pushed then has an index outside it.
The FIFO is a bounded queue exactly as long as nothing is pushed after a `clear` (`behavesAsQueue_iff`).
-/
namespace Flp
namespace Common

variable {α : Type}

/-- The calls of a FIFO. -/
inductive Operation (α : Type) where
  | push (item : α)
  | pop
  | front
  | isFull
  | isEmpty
  | getNumberOfFreeSlots
  | getNumberOfUsedSlots
  | resetStats
  | clear
  deriving DecidableEq, Repr

def Operation.isPush : Operation α → Bool
  | .push _ => true
  | _       => false

/-- What a call returns: the code of one that failed, an item, a number, or nothing to be told. -/
inductive Answer (α : Type) where
  | failed
  | done
  | item (x : α)
  | number (n : Int)
  deriving DecidableEq, Repr

/-! ## The code -/

/-- The fields of a `Fifo`, its `size` apart. -/
structure Fields (α : Type) where
  indexStart : Nat
  indexEnd : Nat
  data : List α
  nIn : UInt64
  nOut : UInt64
  deriving DecidableEq, Repr

namespace Fields

/-- `Fifo(size)`: undefined when `size + 1` is no `int`.  The slots start with `T()`. -/
def create (size : Nat) (blank : α) : Option (Fields α) :=
  (intAdd size 1).map fun n => ⟨0, 0, List.replicate n blank, 0, 0⟩

/-- An index outside `data` has no defined result. -/
def push (size : Nat) (f : Fields α) (item : α) : Option (Answer α × Fields α) :=
  (next size f.indexEnd).bind fun indexEndNew =>
    if indexEndNew = f.indexStart then some (.failed, f)
    else if indexEndNew < f.data.length then
      some (.done, { f with data := f.data.set indexEndNew item, indexEnd := indexEndNew, nIn := f.nIn + 1 })
    else none

def isEmpty (f : Fields α) : Bool := f.indexEnd = f.indexStart

/-- `pop`; `zero` is what the slot is reset to. -/
def pop (size : Nat) (zero : α) (f : Fields α) : Option (Answer α × Fields α) :=
  if f.isEmpty then some (.failed, f)
  else (next size f.indexStart).bind fun new_indexStart =>
    f.data[new_indexStart]?.map fun item =>
      (.item item, { f with
        indexStart := new_indexStart, data := f.data.set new_indexStart zero, nOut := f.nOut + 1 })

def front (size : Nat) (f : Fields α) : Option (Answer α × Fields α) :=
  if f.isEmpty then some (.failed, f)
  else (intAdd f.indexStart 1).bind fun a => (intAdd size 1).bind fun n =>
    f.data[a % n]?.map fun item => (.item item, f)

def isFull (size : Nat) (f : Fields α) : Option Bool :=
  (intAdd f.indexEnd 1).map fun e => decide (e = f.indexStart) || (decide (e > size) && decide (f.indexStart = 0))

def getNumberOfFreeSlots (size : Nat) (f : Fields α) : Int := numberOfFreeSlots size f.indexEnd f.indexStart

def getNumberOfUsedSlots (size : Nat) (f : Fields α) : Int := size - f.getNumberOfFreeSlots size

def clear (f : Fields α) : Fields α := { f with data := [], indexStart := 0, indexEnd := 0 }

def resetStats (f : Fields α) : Fields α := { f with nIn := 0, nOut := 0 }

def call (size : Nat) (zero : α) (f : Fields α) : Operation α → Option (Answer α × Fields α)
  | .push item            => f.push size item
  | .pop                  => f.pop size zero
  | .front                => f.front size
  | .isFull               => (f.isFull size).map fun b => (.number (if b then 1 else 0), f)
  | .isEmpty              => some (.number (if f.isEmpty then 1 else 0), f)
  | .getNumberOfFreeSlots => some (.number (f.getNumberOfFreeSlots size), f)
  | .getNumberOfUsedSlots => some (.number (f.getNumberOfUsedSlots size), f)
  | .resetStats           => some (.done, f.resetStats)
  | .clear                => some (.done, f.clear)

/-- The elements, from the slot behind `indexStart` on. -/
def contents (size : Nat) (f : Fields α) : List α :=
  Ring.window f.data (Ring.wrap (size + 1) (f.indexStart + 1)) (f.getNumberOfUsedSlots size).toNat

end Fields

/-! ## The queue -/

/-- A queue of at most `capacity` elements, its oldest first. -/
def queueCall (capacity : Nat) (q : List α) : Operation α → Answer α × List α
  | .push item            => if q.length = capacity then (.failed, q) else (.done, q ++ [item])
  | .pop                  =>
    match q with
    | []     => (.failed, [])
    | x :: q => (.item x, q)
  | .front                =>
    match q with
    | []     => (.failed, [])
    | x :: q => (.item x, x :: q)
  | .isFull               => (.number (if q.length = capacity then 1 else 0), q)
  | .isEmpty              => (.number (if q.length = 0 then 1 else 0), q)
  | .getNumberOfFreeSlots => (.number ((capacity : Int) - q.length), q)
  | .getNumberOfUsedSlots => (.number q.length, q)
  | .resetStats           => (.done, q)
  | .clear                => (.done, [])

/-- Every call of a new FIFO is answered as by an empty queue, all indices being inside the vector. -/
def BehavesAsQueue (size : Nat) (blank zero : α) (ops : List (Operation α)) : Prop :=
  (Fields.create size blank).bind (answers (Fields.call size zero) · ops) =
    answers (fun q op => some (queueCall size q op)) [] ops

/-- Nothing is pushed after a `clear`. -/
def NoPushAfterClear (ops : List (Operation α)) : Prop := ops.Pairwise fun a b => a = .clear → b.isPush = false

/-! ## A FIFO that was not cleared -/

variable {size : Nat} {zero : α} {f f' : Fields α} {q q' : List α}

/-- The queue is the window behind `indexStart`, and `indexEnd` its last slot. -/
structure Holds (size : Nat) (f : Fields α) (q : List α) : Prop where
  length : f.data.length = size + 1
  start_lt : f.indexStart < size + 1
  ends : f.indexEnd = Ring.wrap (size + 1) (f.indexStart + q.length)
  fits : q.length ≤ size
  queue : q = Ring.window f.data (Ring.wrap (size + 1) (f.indexStart + 1)) q.length

theorem next_wrap (hsize : size < intMax) {index : Nat} (h : index < size + 1) :
    next size index = some (Ring.wrap (size + 1) (index + 1)) := by
  rw [next, intAdd_of_le (by omega), Option.map_some, Ring.wrap]
  congr 1
  split <;> split <;> omega

theorem holds_create (hsize : size < intMax) (blank : α) :
    ∃ f, Fields.create size blank = some f ∧ Holds size f [] := by
  refine ⟨_, by rw [Fields.create, intAdd_of_le (by omega), Option.map_some], ?_⟩
  constructor
  · simp
  · exact Nat.succ_pos size
  · simp [Ring.wrap]
  · exact Nat.zero_le size
  · rfl

namespace Holds

theorem end_lt (h : Holds size f q) : f.indexEnd < size + 1 := by
  have := h.start_lt
  have := h.fits
  rw [h.ends]
  exact Ring.wrap_lt (by omega)

/-- The slot behind the last one is the first one's predecessor exactly if the queue is full. -/
theorem next_end_eq (h : Holds size f q) : Ring.wrap (size + 1) (f.indexEnd + 1) = f.indexStart ↔ q.length = size := by
  have := h.start_lt
  have := h.fits
  rw [h.ends]
  unfold Ring.wrap
  split <;> split <;> omega

theorem isEmpty_eq (h : Holds size f q) : f.isEmpty = decide (q.length = 0) := by
  have := h.start_lt
  have := h.fits
  rw [Fields.isEmpty, h.ends]
  congr 1
  unfold Ring.wrap
  split <;> simp only [eq_iff_iff] <;> omega

theorem isFull_eq (hsize : size < intMax) (h : Holds size f q) : f.isFull size = some (decide (q.length = size)) := by
  have := h.end_lt
  have := h.start_lt
  rw [Fields.isFull, intAdd_of_le (by omega), Option.map_some, ← Bool.decide_and, ← Bool.decide_or]
  congr 2
  rw [eq_iff_iff, ← h.next_end_eq]
  unfold Ring.wrap
  split <;> omega

theorem freeSlots_eq (h : Holds size f q) : f.getNumberOfFreeSlots size = (size : Int) - q.length := by
  have := h.start_lt
  have := h.fits
  rw [Fields.getNumberOfFreeSlots, numberOfFreeSlots, h.ends]
  unfold Ring.wrap
  split <;> split <;> omega

theorem contents_eq (h : Holds size f q) : f.contents size = q := by
  rw [Fields.contents, Fields.getNumberOfUsedSlots, h.freeSlots_eq]
  have hlength : ((size : Int) - ((size : Int) - q.length)).toNat = q.length := by omega
  rw [hlength, ← h.queue]

/-- **A push** is refused by a full queue, and else appends. -/
theorem push (hsize : size < intMax) (h : Holds size f q) (item : α) :
    ∃ f', f.push size item = some ((queueCall size q (.push item)).1, f') ∧
      Holds size f' (queueCall size q (.push item)).2 := by
  rw [Fields.push, next_wrap hsize h.end_lt, Option.bind_some, queueCall]
  by_cases hfull : q.length = size
  · rw [if_pos (h.next_end_eq.2 hfull), if_pos hfull]
    exact ⟨f, rfl, h⟩
  · have hend := h.end_lt
    have hstart := h.start_lt
    have hfits := h.fits
    have hlt : Ring.wrap (size + 1) (f.indexEnd + 1) < f.data.length := by
      rw [h.length]
      exact Ring.wrap_lt (by omega)
    rw [if_neg (mt h.next_end_eq.1 hfull), if_pos hlt, if_neg hfull]
    have hfirst : Ring.wrap (size + 1) (f.indexStart + 1) < size + 1 := Ring.wrap_lt (by omega)
    have hslot : Ring.wrap (size + 1) (f.indexEnd + 1) =
        Ring.wrap f.data.length (Ring.wrap (size + 1) (f.indexStart + 1) + q.length) := by
      rw [h.length, h.ends]
      unfold Ring.wrap
      split <;> split <;> split <;> split <;> omega
    refine ⟨_, rfl, ?_⟩
    constructor
    · simpa using h.length
    · exact hstart
    · rw [h.ends]
      simp only [List.length_append, List.length_singleton]
      unfold Ring.wrap
      split <;> split <;> split <;> omega
    · simp only [List.length_append, List.length_singleton]
      omega
    · rw [List.length_append, List.length_singleton]
      dsimp only
      rw [hslot, Ring.window_push item (by rw [h.length]; exact hfirst) (by rw [h.length]; omega), ← h.queue]

/-- What `pop` and `front` find in the slot behind `indexStart`, and what is left of the window without it. -/
theorem window_cons (h : Holds size f q) {x : α} {rest : List α} (hq : q = x :: rest) (e : α) :
    f.data[Ring.wrap (size + 1) (f.indexStart + 1)]? = some x ∧
      rest = Ring.window (f.data.set (Ring.wrap (size + 1) (f.indexStart + 1)) e)
        (Ring.wrap (size + 1) (Ring.wrap (size + 1) (f.indexStart + 1) + 1)) rest.length := by
  have hstart := h.start_lt
  have hfits := h.fits
  subst hq
  rw [List.length_cons] at hfits
  have hfirst : Ring.wrap (size + 1) (f.indexStart + 1) < f.data.length := by
    rw [h.length]
    exact Ring.wrap_lt (by omega)
  have hqueue := h.queue
  rw [List.length_cons, Ring.window_pop e hfirst (by rw [h.length]; omega)] at hqueue
  obtain ⟨hx, hrest⟩ := List.cons.inj hqueue
  rw [h.length] at hrest
  exact ⟨by rw [List.getElem?_eq_getElem hfirst, ← hx], hrest⟩

/-- **A pop** takes the first element. -/
theorem pop (hsize : size < intMax) (h : Holds size f q) :
    ∃ f', f.pop size zero = some ((queueCall size q .pop).1, f') ∧ Holds size f' (queueCall size q .pop).2 := by
  rw [Fields.pop, h.isEmpty_eq, next_wrap hsize h.start_lt, Option.bind_some]
  cases hq : q with
  | nil =>
    rw [hq] at h
    exact ⟨f, rfl, h⟩
  | cons x rest =>
    obtain ⟨hx, hrest⟩ := h.window_cons hq zero
    have hstart := h.start_lt
    have hfits := h.fits
    have hends := h.ends
    rw [hq, List.length_cons] at hfits hends
    rw [if_neg (by simp), hx]
    refine ⟨_, rfl, ?_⟩
    constructor
    · simpa using h.length
    · exact Ring.wrap_lt (by omega)
    · rw [hends]
      simp only [queueCall, Ring.wrap]
      split <;> split <;> split <;> omega
    · simp only [queueCall]
      omega
    · exact hrest

theorem front (hsize : size < intMax) (h : Holds size f q) :
    ∃ f', f.front size = some ((queueCall size q .front).1, f') ∧ Holds size f' (queueCall size q .front).2 := by
  have hstart := h.start_lt
  rw [Fields.front, h.isEmpty_eq, intAdd_of_le (by omega), intAdd_of_le (by omega), Option.bind_some, Option.bind_some,
    ← Ring.wrap_eq_mod (by omega)]
  cases hq : q with
  | nil =>
    rw [hq] at h
    exact ⟨f, rfl, h⟩
  | cons x rest =>
    obtain ⟨hx, -⟩ := h.window_cons hq x
    rw [hq] at h
    rw [if_neg (by simp), hx]
    exact ⟨f, rfl, h⟩

end Holds

/-! ## A FIFO that was cleared -/

/-- The vector is empty, and the indices are the first ones. -/
structure Cleared (f : Fields α) : Prop where
  data : f.data = []
  indexStart : f.indexStart = 0
  indexEnd : f.indexEnd = 0

theorem cleared_clear (f : Fields α) : Cleared f.clear := ⟨rfl, rfl, rfl⟩

/-- **A push behind a `clear`** has an index outside the vector. -/
theorem Cleared.push (h : Cleared f) (hpos : 1 ≤ size) (hsize : size < intMax) (item : α) :
    f.push size item = none := by
  have hone : Ring.wrap (size + 1) (0 + 1) = 1 := by
    rw [Ring.wrap, if_neg (by omega)]
  rw [Fields.push, h.indexEnd, next_wrap hsize (Nat.succ_pos size), Option.bind_some, h.indexStart, hone]
  simp [h.data]

/-- **Every other call** is answered as by the empty queue. -/
theorem Cleared.call (zero : α) (h : Cleared f) (hpos : 1 ≤ size) {op : Operation α} (hop : op.isPush = false) :
    ∃ f', f.call size zero op = some ((queueCall size [] op).1, f') ∧ Cleared f' ∧ (queueCall size [] op).2 = [] := by
  have hempty : f.isEmpty = true := by simp [Fields.isEmpty, h.indexStart, h.indexEnd]
  have hfree : f.getNumberOfFreeSlots size = size := by
    simp [Fields.getNumberOfFreeSlots, numberOfFreeSlots, h.indexStart, h.indexEnd]
  cases op with
  | push item => cases hop
  | pop => exact ⟨f, by simp [Fields.call, Fields.pop, hempty, queueCall], h, rfl⟩
  | front => exact ⟨f, by simp [Fields.call, Fields.front, hempty, queueCall], h, rfl⟩
  | isFull =>
    have hfull : f.isFull size = some false := by
      simp [Fields.isFull, h.indexStart, h.indexEnd, intAdd, intMax]
      omega
    have hne : (0 : Nat) ≠ size := by omega
    exact ⟨f, by simp [Fields.call, hfull, queueCall, hne], h, rfl⟩
  | isEmpty => exact ⟨f, by simp [Fields.call, hempty, queueCall], h, rfl⟩
  | getNumberOfFreeSlots => exact ⟨f, by simp [Fields.call, hfree, queueCall], h, rfl⟩
  | getNumberOfUsedSlots => exact ⟨f, by simp [Fields.call, Fields.getNumberOfUsedSlots, hfree, queueCall], h, rfl⟩
  | resetStats => exact ⟨f.resetStats, rfl, ⟨h.data, h.indexStart, h.indexEnd⟩, rfl⟩
  | clear => exact ⟨f.clear, rfl, cleared_clear f, rfl⟩

/-! ## Runs -/

namespace Holds

/-- **A call that is no `clear`** is answered as by the queue, and keeps it. -/
theorem call (zero : α) (hsize : size < intMax) (h : Holds size f q) {op : Operation α} (hop : op ≠ .clear) :
    ∃ f', f.call size zero op = some ((queueCall size q op).1, f') ∧ Holds size f' (queueCall size q op).2 := by
  cases op with
  | push item => exact h.push hsize item
  | pop => exact h.pop hsize
  | front => exact h.front hsize
  | isFull => exact ⟨f, by simp [Fields.call, h.isFull_eq hsize, queueCall], h⟩
  | isEmpty => exact ⟨f, by simp [Fields.call, h.isEmpty_eq, queueCall], h⟩
  | getNumberOfFreeSlots => exact ⟨f, by simp [Fields.call, h.freeSlots_eq, queueCall], h⟩
  | getNumberOfUsedSlots => exact ⟨f, by simp [Fields.call, Fields.getNumberOfUsedSlots, h.freeSlots_eq, queueCall], h⟩
  | resetStats => exact ⟨f.resetStats, rfl, ⟨h.length, h.start_lt, h.ends, h.fits, h.queue⟩⟩
  | clear => exact absurd rfl hop

end Holds

/-- What the empty queue answers. -/
abbrev queueAnswers (size : Nat) (q : List α) (ops : List (Operation α)) : Option (List (Answer α)) :=
  answers (fun q op => some (queueCall size q op)) q ops

theorem answers_eq_queue {op : Operation α} (h : f.call size zero op = some ((queueCall size q op).1, f'))
    (ops : List (Operation α)) : answers (Fields.call size zero) f (op :: ops) = queueAnswers size q (op :: ops) ↔
      answers (Fields.call size zero) f' ops = queueAnswers size (queueCall size q op).2 ops :=
  answers_cons_eq h rfl

/-- **Behind a `clear`** the queue is kept up until something is pushed. -/
theorem cleared_answers (zero : α) (hpos : 1 ≤ size) (hsize : size < intMax) :
    ∀ (ops : List (Operation α)) {f : Fields α},
    Cleared f → (answers (Fields.call size zero) f ops = queueAnswers size [] ops ↔ ∀ op ∈ ops, op.isPush = false)
  | [], _, _ => by simp [answers]
  | op :: ops, f, h => by
    rw [List.forall_mem_cons]
    by_cases hop : op.isPush = false
    · obtain ⟨f', hcall, hf', hq⟩ := h.call zero hpos hop
      have hrest := cleared_answers zero hpos hsize ops hf'
      rw [answers_eq_queue hcall, hq, hrest]
      exact ⟨fun hops => ⟨hop, hops⟩, fun hops => hops.2⟩
    · cases op with
      | push item =>
        have hnone : f.call size zero (.push item) = none := h.push hpos hsize item
        rw [answers_cons_none hnone]
        exact iff_of_false (answers_total _ _).symm fun hops => hop hops.1
      | _ => exact absurd rfl hop

/-- **A FIFO that holds a queue** answers as the queue does, exactly if nothing is pushed after a `clear`. -/
theorem holds_answers (hpos : 1 ≤ size) (hsize : size < intMax) : ∀ {ops : List (Operation α)} {f : Fields α}
    {q : List α}, Holds size f q →
      (answers (Fields.call size zero) f ops = queueAnswers size q ops ↔ NoPushAfterClear ops)
  | [], _, _, _ => by simp [answers, NoPushAfterClear]
  | op :: ops, f, q, h => by
    rw [NoPushAfterClear, List.pairwise_cons, ← NoPushAfterClear]
    by_cases hop : op = .clear
    · subst hop
      have hcall : f.call size zero .clear = some ((queueCall size q .clear).1, f.clear) := rfl
      have hcleared := cleared_answers zero hpos hsize ops (cleared_clear f)
      rw [answers_eq_queue hcall]
      refine hcleared.trans ⟨fun hops => ⟨fun op hmem _ => hops op hmem, ?_⟩, fun hops op hmem => hops.1 op hmem rfl⟩
      exact List.pairwise_of_forall_mem_list fun _ _ b hb _ => hops b hb
    · obtain ⟨f', hcall, hf'⟩ := h.call zero hsize hop
      rw [answers_eq_queue hcall, holds_answers hpos hsize hf']
      exact ⟨fun hops => ⟨fun _ _ hclear => absurd hclear hop, hops⟩, fun hops => hops.2⟩

/-- **A FIFO is a bounded queue** exactly as long as nothing is pushed after a `clear`. -/
theorem behavesAsQueue_iff (hpos : 1 ≤ size) (blank zero : α) (ops : List (Operation α)) :
    BehavesAsQueue size blank zero ops ↔ size < intMax ∧ NoPushAfterClear ops := by
  by_cases hsize : size < intMax
  · obtain ⟨f, hcreate, h⟩ := holds_create hsize blank
    rw [BehavesAsQueue, hcreate, Option.bind_some]
    exact (holds_answers hpos hsize h).trans ⟨fun hops => ⟨hsize, hops⟩, fun hops => hops.2⟩
  · have hnone : Fields.create size blank = none := by
      rw [Fields.create, intAdd, if_neg (by omega), Option.map_none]
    rw [BehavesAsQueue, hnone, Option.bind_none]
    exact iff_of_false (answers_total ops []).symm fun hops => hsize hops.1

/-- Three slots, used before and after a `clear`. -/
def refill : List (Operation Nat) := [.push 7, .push 8, .pop, .clear, .push 9, .pop]

theorem behavesAsQueue_iff_refill :
    BehavesAsQueue 3 0 0 refill ↔ 3 < intMax ∧ NoPushAfterClear refill :=
  behavesAsQueue_iff (by decide) 0 0 refill

/-- The push after the `clear` has an index outside the vector. -/
theorem refill_not_queue : ¬ BehavesAsQueue 3 0 0 refill := by
  unfold BehavesAsQueue
  decide

end Common
end Flp
