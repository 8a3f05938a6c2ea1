import FlpPrototype.Common.FifoCalls
/-!
# Dispatch — `InfoLoggerDispatch`, a queue of message lists and the thread that empties it

`pushMessage` asks whether the queue is full and pushes if it is not; it does not look at what `push` returns.
`threadCallback` pops while the queue is not empty and does not look at what `pop` returns.  Both are called from one
thread each, and in both the question is enough: what is pushed is in the queue, and what is processed is what was
pushed, in order.  A slot holds a shared pointer; `none` is the null pointer, and to process it has no result.
-/
namespace Flp
namespace InfoLoggerServer

open Common (Fifo)

variable {α : Type}

/-- Where the thread is: between two calls of `threadCallback`, in a call on the queue, or in `customMessageProcess`. -/
inductive Callback (α : Type) where
  | between
  | isEmpty
  | pop
  | process (nextMessage : Option α)

/-- What was popped and is not processed. -/
def Callback.inHand : Callback α → List (Option α)
  | .process nextMessage => [nextMessage]
  | _                    => []

structure Dispatch (α : Type) where
  input : Fifo (Option α)
  callback : Callback α
  processed : List α

/-- Steps of the thread; `customLoop` fails or not. -/
inductive Threading where
  | customLoop (ok : Bool)
  | access
  | process
  deriving DecidableEq

/-- Where `pushMessage` is. -/
inductive Pushing where
  | isFull
  | push
  deriving DecidableEq

/-- `pushMessage` goes on, or returns; `true` is 0. -/
inductive Pushed where
  | goesOn (call : Pushing)
  | returns (ok : Bool)

namespace Dispatch

/-- A queue of `dbDispatchQueueSize`. -/
def create (size : Nat) : Option (Dispatch α) := (Fifo.create size none).map fun input => ⟨input, .between, []⟩

/-- A function of the queue is called. -/
def call (size : Nat) (d : Dispatch α) (a : Common.Action (Option α)) : Option (Dispatch α) :=
  (Common.step size none d.input a).map fun input => { d with input }

/-- A step of `threadCallback`. -/
def thread (size : Nat) (d : Dispatch α) : Threading → Option (Dispatch α)
  | .customLoop ok =>
    match d.callback with
    | .between => if ok then { d with callback := .isEmpty }.call size .isEmpty else some d
    | _        => none
  | .access =>
    match d.callback with
    | .isEmpty => (d.call size .reader).bind fun d =>
        if d.input.reader.isIdle then
          if d.input.read.getLast? = some (.room 0) then some { d with callback := .between }
          else { d with callback := .pop }.call size .pop
        else some d
    | .pop     => (d.call size .reader).map fun d =>
        if d.input.reader.isIdle then
          { d with
            callback := .process (if d.input.read.getLast? = some .done then d.input.popped.getLast?.join else none) }
        else d
    | _        => none
  | .process =>
    match d.callback with
    | .process (some msg) => { d with callback := .isEmpty, processed := d.processed ++ [msg] }.call size .isEmpty
    | _                   => none

/-- The next access of `pushMessage`. -/
def pushMessage (size : Nat) (d : Dispatch α) (msg : α) (call : Pushing) : Option (Dispatch α × Pushed) :=
  (d.call size .writer).bind fun d =>
    if d.input.writer.isIdle then
      match call with
      | .isFull =>
        if d.input.written.getLast? = some (.room 0) then some (d, .returns false)
        else (d.call size (.push (some msg))).map fun d => (d, .goesOn .push)
      | .push   => some (d, .returns true)
    else some (d, .goesOn call)

/-- What the thread may do. -/
def mayDo (d : Dispatch α) : Threading → Bool
  | .customLoop _ => match d.callback with
    | .between => true
    | _        => false
  | .access       => match d.callback with
    | .isEmpty | .pop => true
    | _               => false
  | .process      => match d.callback with
    | .process _ => true
    | _          => false

/-! ## The invariant -/

/-- Where the reader of the queue is. -/
def Reads (input : Fifo (Option α)) : Callback α → Prop
  | .isEmpty             => input.reader.IsEmpty
  | .pop                 => input.reader.Pops ∧ 0 < owed input.read
  | .between             => input.reader.isIdle = true
  | .process nextMessage => input.reader.isIdle = true ∧ nextMessage ≠ none

/-- Where the writer of the queue is. -/
def Writes (input : Fifo (Option α)) : Option (α × Pushing) → Prop
  | none                => input.writer.isIdle = true
  | some (_, .isFull)   => input.writer.IsFull
  | some (msg, .push)   => input.writer.Pushes (some msg) ∧ 0 < owed input.written

/-- **A dispatcher**, with the call of `pushMessage` under way, if any; `pushed` are the lists given to it. -/
structure Ok (size : Nat) (call : Option (α × Pushing)) (pushed : List α) (d : Dispatch α) : Prop where
  queue : Common.Inv size d.input
  reads : Reads d.input d.callback
  writes : Writes d.input call
  pushed : d.input.pushed = pushed.map some
  popped : d.input.popped = d.processed.map some ++ d.callback.inHand

variable {size : Nat} {d d' : Dispatch α} {call : Option (α × Pushing)} {pushed : List α} {msg : α}

theorem ok_create (hsize : size < intMax) : ∃ d : Dispatch α, create size = some d ∧ Ok size none [] d := by
  obtain ⟨input, hs, hi⟩ := Common.inv_create hsize (none : Option α)
  refine ⟨⟨input, .between, []⟩, by rw [create, hs, Option.map_some], ?_⟩
  obtain ⟨n, -, rfl⟩ := Option.map_eq_some_iff.1 hs
  exact ⟨hi, rfl, rfl, rfl, rfl⟩

/-- What was processed, and what is in hand, was pushed, in order. -/
theorem Ok.inOrder (h : Ok size call pushed d) : d.processed.map some ++ d.callback.inHand <+: pushed.map some := by
  have hpopped := h.queue.popped
  rw [h.popped, h.pushed] at hpopped
  rw [hpopped]
  exact List.take_prefix _ _

/-- An item the queue returns is one that was pushed. -/
theorem Ok.item {input : Fifo (Option α)} {item : Option α} (hi : Common.Inv size input)
    (hpushed : input.pushed = pushed.map some) (hpopped : input.popped = d.input.popped ++ [item]) : item ≠ none := by
  have hmem : item ∈ input.pushed := List.mem_of_mem_take (by
    rw [← hi.popped, hpopped]
    exact List.mem_append_right _ List.mem_cons_self)
  rw [hpushed] at hmem
  obtain ⟨m, -, rfl⟩ := List.mem_map.1 hmem
  exact Option.some_ne_none m

/-- A call of the reader's begins. -/
theorem inv_reads {input : Fifo (Option α)} (hi : Common.Inv size input) (hidle : input.reader.isIdle = true)
    (k : Common.Caller) :
    Common.Inv size { input with reader := .emptyEnd k } := by
  refine hi.reader_moves ?_ trivial hi.owed_read hi.read
  cases hr : input.reader <;> first | rfl | (rw [hr] at hidle; cases hidle)

theorem Reads.congr {input input' : Fifo (Option α)} {callback : Callback α} (h : Reads input callback)
    (hs : Common.SameReading input input') : Reads input' callback := by
  cases callback <;> simp only [Reads, hs.reader, hs.read] at h ⊢ <;> exact h

theorem Writes.congr {input input' : Fifo (Option α)} (h : Writes input call) (hs : Common.SameWriting input input') :
    Writes input' call := by
  rcases call with _ | ⟨_, _ | _⟩ <;> simp only [Writes, hs.writer, hs.written] at h ⊢ <;> exact h

/-- The reader has taken a step. -/
theorem Ok.read {input : Fifo (Option α)} {callback : Callback α} {processed : List α} (h : Ok size call pushed d)
    (hs : Common.SameWriting d.input input) (hi : Common.Inv size input) (hreads : Reads input callback)
    (hpopped : input.popped = processed.map some ++ callback.inHand) :
    Ok size call pushed ⟨input, callback, processed⟩ :=
  ⟨hi, hreads, h.writes.congr hs, hs.pushed.trans h.pushed, hpopped⟩

/-- **A step of the thread** has a result: there is never a null pointer to process.  Nothing that was processed is
processed again. -/
theorem Ok.thread (h : Ok size call pushed d) (hsize : size < intMax) {a : Threading} (hmay : d.mayDo a = true) :
    ∃ d', d.thread size a = some d' ∧ Ok size call pushed d' ∧ d.processed <+: d'.processed := by
  obtain ⟨input, callback, processed⟩ := d
  have hreads := h.reads
  have hpopped : input.popped = processed.map some ++ callback.inHand := h.popped
  cases a with
  | customLoop ok =>
    cases callback with
    | between =>
      cases ok with
      | true =>
        exact ⟨_, rfl, h.read ⟨rfl, rfl, rfl⟩ (inv_reads h.queue hreads .isEmpty) rfl hpopped, List.prefix_refl _⟩
      | false => exact ⟨_, rfl, h, List.prefix_refl _⟩
    | isEmpty | pop | process => cases hmay
  | access =>
    cases callback with
    | isEmpty =>
      have hr : input.reader.IsEmpty := hreads
      obtain ⟨input', hs, hi⟩ := Common.inv_stepReader hsize none h.queue hr.not_idle
      have hsame := Common.stepReader_writing hs
      obtain ⟨hp, hcases⟩ := Common.stepReader_isEmpty hr hs
      have hp' := hp.trans hpopped
      simp only [Dispatch.thread, Dispatch.call, Common.step, hs, Option.map_some, Option.bind_some]
      rcases hcases with ⟨hr', hread⟩ | ⟨hr', hread⟩ | ⟨hr', hread⟩
      · rw [if_neg (by rw [hr'.not_idle]; decide)]
        exact ⟨_, rfl, h.read hsame hi hr' hp', List.prefix_refl _⟩
      · rw [hr', if_pos (by rfl), if_pos (by rw [hread]; simp)]
        exact ⟨_, rfl, h.read hsame hi (by rw [Reads, hr']; rfl) hp', List.prefix_refl _⟩
      · rw [hr', if_pos (by rfl), if_neg (by rw [hread]; simp)]
        refine ⟨_, rfl,
          h.read ⟨hsame.writer, hsame.written, hsame.pushed⟩ (inv_reads hi (by rw [hr']; rfl) .pop) ⟨rfl, ?_⟩ hp',
          List.prefix_refl _⟩
        show 0 < owed input'.read
        rw [hread, owed_room]
        exact Nat.lt_of_lt_of_le Nat.zero_lt_one (Nat.le_max_right _ _)
    | pop =>
      obtain ⟨hr, howed⟩ : input.reader.Pops ∧ 0 < owed input.read := hreads
      obtain ⟨input', hs, hi⟩ := Common.inv_stepReader hsize none h.queue hr.not_idle
      have hsame := Common.stepReader_writing hs
      simp only [Dispatch.thread, Dispatch.call, Common.step, hs, Option.map_some]
      rcases Common.stepReader_pop h.queue hr howed hs with ⟨hr', hread, hp⟩ | ⟨hr', hread, item, hp⟩
      · rw [if_neg (by rw [hr'.not_idle]; decide)]
        exact ⟨_, rfl, h.read hsame hi ⟨hr', hread ▸ howed⟩ (hp.trans hpopped), List.prefix_refl _⟩
      · have hitem : item ≠ none := Ok.item hi (hsame.pushed.trans h.pushed) hp
        have hlast : (if input'.read.getLast? = some .done then input'.popped.getLast?.join else none) = item := by
          rw [hread, hp, if_pos (by simp)]
          simp
        rw [hlast, if_pos (by rw [hr']; rfl)]
        refine ⟨_, rfl, h.read hsame hi ⟨by rw [hr']; rfl, hitem⟩ ?_, List.prefix_refl _⟩
        rw [hp, hpopped]
        simp [Callback.inHand]
    | between | process => cases hmay
  | process =>
    cases callback with
    | process nextMessage =>
      obtain ⟨hidle, hne⟩ : input.reader.isIdle = true ∧ nextMessage ≠ none := hreads
      obtain ⟨m, rfl⟩ := Option.ne_none_iff_exists'.1 hne
      refine ⟨_, rfl, h.read ⟨rfl, rfl, rfl⟩ (inv_reads h.queue hidle .isEmpty) rfl ?_, List.prefix_append _ _⟩
      show input.popped = (processed ++ [m]).map some ++ []
      rw [hpopped]
      simp [Callback.inHand]
    | between | isEmpty | pop => cases hmay

/-! ## Pushing -/

/-- A call of the writer's begins. -/
theorem inv_writes {input : Fifo (Option α)} (hi : Common.Inv size input) {w : Common.Writer (Option α)}
    (hw : w = .fullEnd ∨ ∃ item, w = .pushEnd item) : Common.Inv size { input with writer := w } := by
  refine hi.writer_moves ?_ hi.owed_written hi.written
  rcases hw with rfl | ⟨item, rfl⟩ <;> exact trivial

/-- `pushMessage` begins. -/
theorem Ok.begin (h : Ok size none pushed d) (msg : α) :
    ∃ d', d.call size .isFull = some d' ∧ Ok size (some (msg, .isFull)) pushed d' ∧ d'.processed = d.processed :=
  ⟨_, rfl, ⟨inv_writes h.queue (.inl rfl), h.reads.congr ⟨rfl, rfl, rfl⟩, trivial, h.pushed, h.popped⟩, rfl⟩

/-- The lists in the queue. -/
def held (d : Dispatch α) : Nat := d.input.pushed.length - d.input.popped.length

/-- **A step of `pushMessage`**: it goes on, or returns with the list pushed, or, when the queue was full, without. -/
theorem Ok.pushMessage {step : Pushing} (h : Ok size (some (msg, step)) pushed d) (hsize : size < intMax) :
    ∃ d' r, d.pushMessage size msg step = some (d', r) ∧ d'.processed = d.processed ∧
      ((∃ step', r = .goesOn step' ∧ Ok size (some (msg, step')) pushed d') ∨
        r = .returns true ∧ Ok size none (pushed ++ [msg]) d' ∨
        r = .returns false ∧ Ok size none pushed d' ∧ size ≤ d'.held) := by
  obtain ⟨input, callback, processed⟩ := d
  cases step with
  | isFull =>
    have hw : input.writer.IsFull := h.writes
    obtain ⟨input', hs, hi⟩ := Common.inv_stepWriter hsize h.queue hw.not_idle
    have hsame := Common.stepWriter_reading hs
    obtain ⟨hpushed, hcases⟩ := Common.stepWriter_isFull h.queue hw hs
    have hp := hpushed.trans h.pushed
    have hpopped := hsame.popped.trans h.popped
    simp only [Dispatch.pushMessage, Dispatch.call, Common.step, hs, Option.map_some, Option.bind_some]
    rcases hcases with ⟨hw', -⟩ | ⟨hw', hwritten, hfull⟩ | ⟨hw', hwritten⟩
    · rw [if_neg (by rw [hw'.not_idle]; decide)]
      exact ⟨_, _, rfl, rfl, .inl ⟨.isFull, rfl, hi, h.reads.congr hsame, hw', hp, hpopped⟩⟩
    · rw [hw', if_pos (by rfl), if_pos (by rw [hwritten]; simp)]
      refine ⟨_, _, rfl, rfl, .inr (.inr ⟨rfl, ⟨hi, h.reads.congr hsame, by rw [Writes, hw']; rfl, hp, hpopped⟩, ?_⟩)⟩
      show size ≤ input'.pushed.length - input'.popped.length
      have hpushed' : input'.pushed = input.pushed := hpushed
      have hpopped' : input'.popped = input.popped := hsame.popped
      have : input.pushed.length = input.popped.length + input.reader.published + size := hfull
      rw [hpushed', hpopped']
      omega
    · rw [hw', if_pos (by rfl), if_neg (by rw [hwritten]; simp)]
      refine ⟨_, _, rfl, rfl, .inl ⟨.push, rfl, inv_writes hi (.inr ⟨some msg, rfl⟩),
        h.reads.congr ⟨hsame.reader, hsame.read, hsame.popped⟩, ⟨rfl, ?_⟩, hp, hpopped⟩⟩
      show 0 < owed input'.written
      rw [hwritten, owed_room]
      exact Nat.lt_of_lt_of_le Nat.zero_lt_one (Nat.le_max_right _ _)
  | push =>
    obtain ⟨hw, howed⟩ : input.writer.Pushes (some msg) ∧ 0 < owed input.written := h.writes
    obtain ⟨input', hs, hi⟩ := Common.inv_stepWriter hsize h.queue hw.not_idle
    have hsame := Common.stepWriter_reading hs
    have hpopped := hsame.popped.trans h.popped
    simp only [Dispatch.pushMessage, Dispatch.call, Common.step, hs, Option.map_some, Option.bind_some]
    rcases Common.stepWriter_push h.queue hw howed hs with ⟨hw', hwritten, hpushed⟩ | ⟨hw', hwritten, hpushed⟩
    · rw [if_neg (by rw [hw'.not_idle]; decide)]
      exact ⟨_, _, rfl, rfl,
        .inl ⟨.push, rfl, hi, h.reads.congr hsame, ⟨hw', hwritten ▸ howed⟩, hpushed.trans h.pushed, hpopped⟩⟩
    · rw [if_pos (by rw [hw']; rfl)]
      refine ⟨_, _, rfl, rfl, .inr (.inl ⟨rfl, hi, h.reads.congr hsame, by rw [Writes, hw']; rfl, ?_, hpopped⟩)⟩
      have hbefore : input.pushed = pushed.map some := h.pushed
      show input'.pushed = _
      rw [hpushed, hbefore, List.map_append, List.map_singleton]

end Dispatch
end InfoLoggerServer
end Flp
