import FlpPrototype.Lib.Answers
import FlpPrototype.Lib.CInt
import FlpPrototype.Lib.Ring
import FlpPrototype.Transport.Files
/-!
# Fifo — the FIFOs of `utility.c`

`struct FIFO` keeps its items in the `size + 1` slots of `data`, from `index_start` on and up to `index_end`;
`struct ptFIFO` is the same with a mutex and calls that wait.  They are lists of at most `size` items, whose elements
can be looked up by position, as long as the sum `size + 1` is an `int` and the counter of the items written does not
overflow (`fifos_are_lists_iff`).
-/
namespace Flp
namespace Utility

variable {α : Type}

/-! ## The code -/

/-- What `struct FIFO` and `struct ptFIFO` have in common.  A slot of `data` holds a pointer, `none` for NULL. -/
structure Slots (α : Type) where
  size : Nat
  indexStart : Nat
  indexEnd : Nat
  data : List (Option α)
  deriving DecidableEq, Repr

/-- The constructors set all slots but the last one; `last` is what is in that one. -/
def newSlots (size : Nat) (last : Option α) : Option (Slots α) :=
  (intAdd size 1).map fun _ => ⟨size, 0, 0, List.replicate size none ++ [last]⟩

namespace Slots

/-- `index++; if (index>f->size) index=0;` -/
def after (f : Slots α) (index : Nat) : Option Nat :=
  (intAdd index 1).map fun i => if f.size < i then 0 else i

/-- The first item and the slots without it, from the test for an empty FIFO on. -/
def takeFirst (f : Slots α) : Option (Option α × Slots α) :=
  f.data[f.indexStart]?.bind fun item => (f.after f.indexStart).map fun indexStart =>
    (item, { f with data := f.data.set f.indexStart none, indexStart := indexStart })

/-- The slots with one more item, `new_index_end` being the index behind it. -/
def append (f : Slots α) (item : α) (newIndexEnd : Nat) : Option (Slots α) :=
  if f.indexEnd < f.data.length then some { f with data := f.data.set f.indexEnd item, indexEnd := newIndexEnd }
  else none

/-- `su`, the number of items as it is computed from the indices. -/
def used (f : Slots α) : Option Int :=
  if f.indexEnd < f.indexStart then
    (intAdd f.size 1).bind fun n => intPlus ((f.indexEnd : Int) - f.indexStart) n
  else some ((f.indexEnd : Int) - f.indexStart)

end Slots

structure Fifo (α : Type) extends Slots α where
  totalFiles : Nat
  deriving DecidableEq, Repr

def fifoNew (size : Nat) (last : Option α) : Option (Fifo α) := (newSlots size last).map fun f => ⟨f, 0⟩

def fifoRead (f : Fifo α) : Option (Option α × Fifo α) :=
  if f.indexStart = f.indexEnd then some (none, f)
  else f.takeFirst.map fun r => (r.1, { f with toSlots := r.2 })

def fifoWrite (f : Fifo α) : Option α → Option (Int × Fifo α)
  | none      => some (-1, f)
  | some item => (f.after f.indexEnd).bind fun newIndexEnd =>
    if newIndexEnd = f.indexStart then some (-1, f)
    else (f.append item newIndexEnd).bind fun g => (intAdd f.totalFiles 1).map fun n => (0, ⟨g, n⟩)

def fifoIsFull (f : Fifo α) : Option Int :=
  (f.after f.indexEnd).map fun newIndexEnd => if newIndexEnd = f.indexStart then 1 else 0

def fifoIsEmpty (f : Fifo α) : Int := if f.indexStart = f.indexEnd then 1 else 0

def fifoGetSpaceLeft (f : Fifo α) : Option Int := f.used.map fun su => f.size - su

/-- The loop of `FIFO_read_index`, with the turns left: `i==index` in the last one. -/
def readIndexLoop (f : Slots α) : Nat → Nat → Option (Option α)
  | 0, _     => some none
  | n + 1, j =>
    if j = f.indexEnd then some none
    else if n = 0 then f.data[j]?
    else (f.after j).bind fun j => readIndexLoop f n j

def fifoReadIndex (f : Fifo α) (index : Int) : Option (Option α) :=
  readIndexLoop f.toSlots (index + 1).toNat f.indexStart

/-- `struct ptFIFO`, its mutex and its condition apart. -/
abbrev PtFifo (α : Type) := Slots α

def ptFifoNew (size : Nat) (last : Option α) : Option (PtFifo α) := newSlots size last

/-- What a call gives back. -/
inductive Answer (α : Type) where
  | pointer (item : Option α)
  | number (n : Int)
  /-- The `float` computed as this quotient. -/
  | quotient (su : Int) (size : Nat)
  /-- It waits, without a time-out. -/
  | waits
  deriving DecidableEq, Repr

/-- `ptFIFO_read`, no other call being made while it waits. -/
def ptFifoRead (f : PtFifo α) (timeout : Int) : Option (Answer α × PtFifo α) :=
  if f.indexStart = f.indexEnd then some (if timeout < 0 then .waits else .pointer none, f)
  else f.takeFirst.map fun r => (.pointer r.1, r.2)

def ptFifoWrite (f : PtFifo α) (timeout : Int) : Option α → Option (Answer α × PtFifo α)
  | none      => some (.number (-1), f)
  | some item => (f.after f.indexEnd).bind fun newIndexEnd =>
    if newIndexEnd = f.indexStart then some (if timeout < 0 then .waits else .number (-1), f)
    else (f.append item newIndexEnd).map fun g => (.number 0, g)

def ptFifoSpaceUsed (f : PtFifo α) : Option (Answer α) := f.used.map fun su => .quotient su f.size

def ptFifoIsEmpty (f : PtFifo α) : Int := if f.indexStart = f.indexEnd then 1 else 0

/-! ## Calls -/

inductive FifoCall (α : Type) where
  | read
  | write (item : Option α)
  | isFull
  | isEmpty
  | getSpaceLeft
  | readIndex (index : Int)
  deriving DecidableEq, Repr

def fifoCall (f : Fifo α) : FifoCall α → Option (Answer α × Fifo α)
  | .read            => (fifoRead f).map fun r => (.pointer r.1, r.2)
  | .write item      => (fifoWrite f item).map fun r => (.number r.1, r.2)
  | .isFull          => (fifoIsFull f).map fun n => (.number n, f)
  | .isEmpty         => some (.number (fifoIsEmpty f), f)
  | .getSpaceLeft    => (fifoGetSpaceLeft f).map fun n => (.number n, f)
  | .readIndex index => (fifoReadIndex f index).map fun item => (.pointer item, f)

inductive PtFifoCall (α : Type) where
  | read (timeout : Int)
  | write (item : Option α) (timeout : Int)
  | spaceUsed
  | isEmpty
  deriving DecidableEq, Repr

def ptFifoCall (f : PtFifo α) : PtFifoCall α → Option (Answer α × PtFifo α)
  | .read timeout       => ptFifoRead f timeout
  | .write item timeout => ptFifoWrite f timeout item
  | .spaceUsed          => (ptFifoSpaceUsed f).map fun a => (a, f)
  | .isEmpty            => some (.number (ptFifoIsEmpty f), f)

/-! ## Lists of a capacity -/

/-- The list behind a write. -/
def listWrite (capacity : Nat) (q : List α) : Option α → List α
  | none      => q
  | some item => if q.length = capacity then q else q ++ [item]

/-- The item at a position, oldest first. -/
def nth (q : List α) (index : Int) : Option α := if index < 0 then none else q[index.toNat]?

/-- The write is refused: it is of NULL, or the list is full. -/
def Refused (capacity : Nat) (q : List α) (item : Option α) : Prop := item = none ∨ q.length = capacity

instance (capacity : Nat) (q : List α) : (item : Option α) → Decidable (Refused capacity q item)
  | none   => .isTrue (.inl rfl)
  | some _ => decidable_of_iff (q.length = capacity) ⟨.inr, fun h => h.resolve_left (Option.some_ne_none _)⟩

def listCall (capacity : Nat) (q : List α) : FifoCall α → Answer α × List α
  | .read            => (.pointer q.head?, q.tail)
  | .write item      => (.number (if Refused capacity q item then -1 else 0), listWrite capacity q item)
  | .isFull          => (.number (if q.length = capacity then 1 else 0), q)
  | .isEmpty         => (.number (if q = [] then 1 else 0), q)
  | .getSpaceLeft    => (.number ((capacity : Int) - q.length), q)
  | .readIndex index => (.pointer (nth q index), q)

def ptListCall (capacity : Nat) (q : List α) : PtFifoCall α → Answer α × List α
  | .read timeout       => (if q = [] ∧ timeout < 0 then .waits else .pointer q.head?, q.tail)
  | .write item timeout =>
    (if q.length = capacity ∧ item ≠ none ∧ timeout < 0 then .waits
     else .number (if Refused capacity q item then -1 else 0), listWrite capacity q item)
  | .spaceUsed          => (.quotient q.length capacity, q)
  | .isEmpty            => (.number (if q = [] then 1 else 0), q)

/-! ## The slots hold a list -/

variable {size : Nat} {f g : Slots α} {q : List α} {x : α}

/-- The list is the window from `indexStart` on, and `indexEnd` the slot behind it. -/
structure Holds (f : Slots α) (q : List α) : Prop where
  length : f.data.length = f.size + 1
  first : f.indexStart < f.size + 1
  ends : f.indexEnd = Ring.wrap (f.size + 1) (f.indexStart + q.length)
  fits : q.length ≤ f.size
  window : Ring.window f.data f.indexStart q.length = q.map some

theorem holds_new (hsize : size < intMax) (last : Option α) :
    ∃ f, newSlots size last = some f ∧ Holds f [] ∧ f.size = size := by
  refine ⟨_, by rw [newSlots, intAdd_of_le (by omega), Option.map_some], ⟨?_, ?_, ?_, ?_, ?_⟩, rfl⟩
  · simp
  · exact Nat.succ_pos size
  · simp [Ring.wrap]
  · exact Nat.zero_le size
  · rfl

theorem after_wrap (hsize : f.size < intMax) {index : Nat} (h : index < f.size + 1) :
    f.after index = some (Ring.wrap (f.size + 1) (index + 1)) := by
  rw [Slots.after, intAdd_of_le (by omega), Option.map_some, Ring.wrap]
  congr 1
  split <;> split <;> omega

namespace Holds

theorem end_lt (h : Holds f q) : f.indexEnd < f.size + 1 := by
  have hfirst := h.first
  have hfits := h.fits
  rw [h.ends]
  exact Ring.wrap_lt (by omega)

theorem start_eq_end (h : Holds f q) : f.indexStart = f.indexEnd ↔ q = [] := by
  have hfirst := h.first
  have hfits := h.fits
  rw [h.ends, ← List.length_eq_zero_iff]
  unfold Ring.wrap
  split <;> omega

/-- The slot behind the last one is the first one's predecessor exactly if the list is full. -/
theorem after_end_eq (h : Holds f q) : Ring.wrap (f.size + 1) (f.indexEnd + 1) = f.indexStart ↔ q.length = f.size := by
  have hfirst := h.first
  have hfits := h.fits
  rw [h.ends]
  unfold Ring.wrap
  split <;> split <;> omega

theorem used_eq (hsize : f.size < intMax) (h : Holds f q) : f.used = some (q.length : Int) := by
  have hfirst := h.first
  have hfits := h.fits
  have hends := h.ends
  unfold Ring.wrap at hends
  rw [Slots.used]
  by_cases hturn : f.indexEnd < f.indexStart
  · rw [if_pos hturn, intAdd_of_le (by omega), Option.bind_some,
      intPlus_of_le (by unfold intMax at hsize; omega) (by omega), Option.some.injEq]
    split at hends <;> omega
  · rw [if_neg hturn, Option.some.injEq]
    split at hends <;> omega

/-- **The first item** is taken. -/
theorem takeFirst (hsize : f.size < intMax) (h : Holds f (x :: q)) :
    ∃ g, f.takeFirst = some (some x, g) ∧ Holds g q ∧ g.size = f.size := by
  have hfirst := h.first
  have hfits := h.fits
  have hends := h.ends
  have hwindow := h.window
  rw [List.length_cons] at hfits hends hwindow
  have hlt : f.indexStart < f.data.length := by rw [h.length]; exact hfirst
  rw [Ring.window_pop none hlt (by rw [h.length]; omega), List.map_cons, h.length] at hwindow
  obtain ⟨hx, hrest⟩ := List.cons.inj hwindow
  have hget : f.data[f.indexStart]? = some (some x) := by rw [List.getElem?_eq_getElem hlt, hx]
  have htake : f.takeFirst = some (some x, { f with
      data := f.data.set f.indexStart none, indexStart := Ring.wrap (f.size + 1) (f.indexStart + 1) }) := by
    rw [Slots.takeFirst, hget, Option.bind_some, after_wrap hsize hfirst, Option.map_some]
  refine ⟨_, htake, ⟨by simpa using h.length, Ring.wrap_lt (by omega), ?_, Nat.le_of_succ_le hfits, hrest⟩, rfl⟩
  show f.indexEnd = Ring.wrap (f.size + 1) (Ring.wrap (f.size + 1) (f.indexStart + 1) + q.length)
  rw [hends, Ring.wrap_wrap_add (by omega), Nat.add_assoc, Nat.add_comm 1]

/-- **One more item** goes behind the others. -/
theorem append (h : Holds f q) (hroom : q.length < f.size) (x : α) :
    ∃ g, f.append x (Ring.wrap (f.size + 1) (f.indexEnd + 1)) = some g ∧ Holds g (q ++ [x]) ∧ g.size = f.size := by
  have hfirst := h.first
  have hend := h.end_lt
  have hslot : f.indexEnd = Ring.wrap f.data.length (f.indexStart + q.length) := by rw [h.length, h.ends]
  have happend : f.append x (Ring.wrap (f.size + 1) (f.indexEnd + 1)) = some { f with
      data := f.data.set f.indexEnd (some x), indexEnd := Ring.wrap (f.size + 1) (f.indexEnd + 1) } := by
    rw [Slots.append, if_pos (by rw [h.length]; exact hend)]
  refine ⟨_, happend, ⟨by simpa using h.length, hfirst, ?_, ?_, ?_⟩, rfl⟩
  · rw [h.ends, List.length_append, List.length_singleton, Ring.wrap_wrap_add (by omega), Nat.add_assoc]
  · rw [List.length_append]
    exact hroom
  · dsimp only
    rw [List.length_append, List.length_singleton, hslot, Ring.window_push (some x) (by rw [h.length]; exact hfirst)
      (by rw [h.length]; omega), h.window, List.map_append]
    rfl

/-- **The indexed walk** stops behind the last item, or at the item it looks for. -/
theorem readIndexLoop_eq (hsize : f.size < intMax) (h : Holds f q) : ∀ (n i : Nat), i ≤ q.length →
    readIndexLoop f n (Ring.wrap (f.size + 1) (f.indexStart + i)) = some (if n = 0 then none else q[i + (n - 1)]?)
  | 0, _, _ => rfl
  | n + 1, i, hi => by
    have hfirst := h.first
    have hfits := h.fits
    have hstop : Ring.wrap (f.size + 1) (f.indexStart + i) = f.indexEnd ↔ i = q.length := by
      rw [h.ends]
      unfold Ring.wrap
      split <;> split <;> omega
    rw [readIndexLoop]
    by_cases hend : i = q.length
    · rw [if_pos (hstop.2 hend), if_neg (Nat.succ_ne_zero n), List.getElem?_eq_none (by omega)]
    · rw [if_neg (mt hstop.1 hend), if_neg (Nat.succ_ne_zero n), Nat.add_sub_cancel]
      have hlt : i < q.length := by omega
      by_cases hn : n = 0
      · have hget := @Ring.getElem?_window _ f.data f.indexStart q.length i (by rw [h.length]; exact hfirst)
          (by rw [h.length]; omega) hlt
        rw [h.length, h.window, List.getElem?_map] at hget
        rw [if_pos hn, ← hget, hn, Nat.add_zero, List.getElem?_eq_getElem hlt, Option.map_some]
      · have hnext : Ring.wrap (f.size + 1) (Ring.wrap (f.size + 1) (f.indexStart + i) + 1) =
            Ring.wrap (f.size + 1) (f.indexStart + (i + 1)) := by
          rw [Ring.wrap_wrap_add (by omega), Nat.add_assoc]
        rw [if_neg hn, after_wrap hsize (Ring.wrap_lt (by omega)), Option.bind_some, hnext,
          readIndexLoop_eq hsize h n (i + 1) hlt, if_neg hn]
        congr 2
        omega

end Holds

/-! ## Calls -/

theorem nth_eq (q : List α) (index : Int) :
    (if (index + 1).toNat = 0 then none else q[0 + ((index + 1).toNat - 1)]?) = nth q index := by
  rw [nth]
  by_cases hneg : index < 0
  · rw [if_pos (by omega), if_pos hneg]
  · rw [if_neg (by omega), if_neg hneg]
    congr 1
    omega

/-- How many items a call adds to the list. -/
def added (capacity : Nat) (q : List α) : FifoCall α → Nat
  | .write item => if Refused capacity q item then 0 else 1
  | _           => 0

/-- How many items a list takes in. -/
def written (capacity : Nat) : List α → List (FifoCall α) → Nat
  | _, []      => 0
  | q, c :: cs => added capacity q c + written capacity (listCall capacity q c).2 cs

namespace Holds

variable {F : Fifo α}

theorem fifoRead (hsize : F.size < intMax) (h : Holds F.toSlots q) :
    ∃ G : Fifo α, fifoRead F = some (q.head?, G) ∧ Holds G.toSlots q.tail ∧ G.size = F.size ∧
      G.totalFiles = F.totalFiles := by
  rw [Utility.fifoRead]
  cases q with
  | nil => exact ⟨F, by rw [if_pos (h.start_eq_end.2 rfl)]; rfl, h, rfl, rfl⟩
  | cons x q =>
    obtain ⟨g, htake, hg, hs⟩ := h.takeFirst hsize
    refine ⟨{ F with toSlots := g }, ?_, hg, hs, rfl⟩
    rw [if_neg (mt h.start_eq_end.1 (List.cons_ne_nil x q)), htake]
    rfl

/-- **A write** is taken where there is room, unless the counter overflows. -/
theorem fifoWrite (hsize : F.size < intMax) (h : Holds F.toSlots q) (item : Option α) :
    (F.totalFiles + added F.size q (.write item) ≤ intMax → ∃ G : Fifo α,
      fifoWrite F item = some (if Refused F.size q item then -1 else 0, G) ∧
      Holds G.toSlots (listWrite F.size q item) ∧ G.size = F.size ∧
      G.totalFiles = F.totalFiles + added F.size q (.write item)) ∧
    (intMax < F.totalFiles + added F.size q (.write item) → F.totalFiles ≤ intMax →
      Utility.fifoWrite F item = none) := by
  cases item with
  | none =>
    have href : Refused F.size q none := .inl rfl
    refine ⟨fun _ => ⟨F, by rw [if_pos href]; rfl, h, rfl, ?_⟩, fun hbig hle => ?_⟩
    · rw [added, if_pos href, Nat.add_zero]
    · rw [added, if_pos href] at hbig
      omega
  | some x =>
    rw [Utility.fifoWrite, after_wrap hsize h.end_lt, Option.bind_some]
    by_cases hfull : q.length = F.size
    · have href : Refused F.size q (some x) := .inr hfull
      rw [if_pos (h.after_end_eq.2 hfull), added, if_pos href, if_pos href, listWrite, if_pos hfull]
      exact ⟨fun _ => ⟨F, rfl, h, rfl, rfl⟩, fun hbig hle => by omega⟩
    · have hnot : ¬ Refused F.size q (some x) := fun href => hfull (href.resolve_left (Option.some_ne_none x))
      obtain ⟨g, happend, hg, hs⟩ := h.append (Nat.lt_of_le_of_ne h.fits hfull) x
      rw [if_neg (mt h.after_end_eq.1 hfull), added, if_neg hnot, if_neg hnot, listWrite, if_neg hfull, happend,
        Option.bind_some]
      constructor
      · intro hle
        exact ⟨⟨g, F.totalFiles + 1⟩, by rw [intAdd_of_le hle]; rfl, hg, hs, rfl⟩
      · intro hbig _
        rw [intAdd, if_neg (Nat.not_le.2 hbig)]
        rfl

/-- **A call** is answered as by the list and keeps it, unless the counter overflows. -/
theorem call (hsize : F.size < intMax) (h : Holds F.toSlots q) (c : FifoCall α)
    (hle : F.totalFiles + added F.size q c ≤ intMax) : ∃ G : Fifo α,
      fifoCall F c = some ((listCall F.size q c).1, G) ∧ Holds G.toSlots (listCall F.size q c).2 ∧ G.size = F.size ∧
      G.totalFiles = F.totalFiles + added F.size q c := by
  cases c with
  | read =>
    obtain ⟨G, hread, hG⟩ := h.fifoRead hsize
    exact ⟨G, by simp only [fifoCall, hread, Option.map_some, listCall], hG⟩
  | write item =>
    obtain ⟨G, hwrite, hG⟩ := (h.fifoWrite hsize item).1 hle
    exact ⟨G, by simp only [fifoCall, hwrite, Option.map_some, listCall], hG⟩
  | isFull =>
    refine ⟨F, ?_, h, rfl, rfl⟩
    simp only [fifoCall, fifoIsFull, after_wrap hsize h.end_lt, Option.map_some, listCall, h.after_end_eq]
  | isEmpty =>
    refine ⟨F, ?_, h, rfl, rfl⟩
    simp only [fifoCall, fifoIsEmpty, listCall, h.start_eq_end]
  | getSpaceLeft =>
    refine ⟨F, ?_, h, rfl, rfl⟩
    simp only [fifoCall, fifoGetSpaceLeft, h.used_eq hsize, Option.map_some, listCall]
  | readIndex index =>
    have hstart : F.indexStart = Ring.wrap (F.size + 1) (F.indexStart + 0) := by
      have hfirst := h.first
      rw [Ring.wrap, if_neg (by omega)]
      rfl
    have hloop := h.readIndexLoop_eq hsize (index + 1).toNat 0 (Nat.zero_le _)
    rw [← hstart, nth_eq] at hloop
    refine ⟨F, ?_, h, rfl, rfl⟩
    simp only [fifoCall, fifoReadIndex, hloop, Option.map_some, listCall]

/-- **A list of calls** is answered as by the list exactly if the counter does not overflow. -/
theorem answers_iff : ∀ (cs : List (FifoCall α)) {F : Fifo α} {q : List α}, F.size < intMax → Holds F.toSlots q →
    F.totalFiles ≤ intMax → (answers fifoCall F cs = answers (fun q c => some (listCall F.size q c)) q cs ↔
      F.totalFiles + written F.size q cs ≤ intMax)
  | [], _, _, _, _, hle => by simp [answers, written, hle]
  | c :: cs, F, q, hsize, h, hle => by
    rw [written, ← Nat.add_assoc]
    by_cases hstep : F.totalFiles + added F.size q c ≤ intMax
    · obtain ⟨G, hcall, hG, hs, hn⟩ := h.call hsize c hstep
      have hrest := answers_iff cs (hs ▸ hsize) hG (hn ▸ hstep)
      rw [hs, hn] at hrest
      rw [← hrest]
      exact answers_cons_eq hcall rfl
    · have hnone : fifoCall F c = none := by
        cases c with
        | write item => simp only [fifoCall, (h.fifoWrite hsize item).2 (Nat.not_le.1 hstep) hle, Option.map_none]
        | _ => exact absurd hle hstep
      rw [answers_cons_none hnone]
      exact iff_of_false (answers_total _ _).symm (by omega)

theorem ptFifoRead (hsize : f.size < intMax) (h : Holds f q) (timeout : Int) :
    ∃ g, ptFifoRead f timeout = some ((ptListCall f.size q (.read timeout)).1, g) ∧ Holds g q.tail ∧
      g.size = f.size := by
  rw [Utility.ptFifoRead, ptListCall]
  cases q with
  | nil => exact ⟨f, by simp [h.start_eq_end], h, rfl⟩
  | cons x q =>
    obtain ⟨g, htake, hg⟩ := h.takeFirst hsize
    exact ⟨g, by simp [h.start_eq_end, htake], hg⟩

theorem ptFifoWrite (hsize : f.size < intMax) (h : Holds f q) (item : Option α) (timeout : Int) :
    ∃ g, ptFifoWrite f timeout item = some ((ptListCall f.size q (.write item timeout)).1, g) ∧
      Holds g (listWrite f.size q item) ∧ g.size = f.size := by
  cases item with
  | none => exact ⟨f, by simp [Utility.ptFifoWrite, ptListCall, Refused], h, rfl⟩
  | some x =>
    rw [Utility.ptFifoWrite, after_wrap hsize h.end_lt, Option.bind_some, ptListCall, listWrite]
    by_cases hfull : q.length = f.size
    · refine ⟨f, ?_, by rw [if_pos hfull]; exact h, rfl⟩
      by_cases hwait : timeout < 0 <;> simp [h.after_end_eq, hfull, hwait, Refused]
    · obtain ⟨g, happend, hg⟩ := h.append (Nat.lt_of_le_of_ne h.fits hfull) x
      refine ⟨g, ?_, by rw [if_neg hfull]; exact hg⟩
      simp [h.after_end_eq, hfull, happend, Refused]

theorem ptCall (hsize : f.size < intMax) (h : Holds f q) (c : PtFifoCall α) :
    ∃ g, ptFifoCall f c = some ((ptListCall f.size q c).1, g) ∧ Holds g (ptListCall f.size q c).2 ∧
      g.size = f.size := by
  cases c with
  | read timeout => exact h.ptFifoRead hsize timeout
  | write item timeout => exact h.ptFifoWrite hsize item timeout
  | spaceUsed => exact ⟨f, by simp [ptFifoCall, ptFifoSpaceUsed, h.used_eq hsize, ptListCall], h, rfl⟩
  | isEmpty => exact ⟨f, by simp [ptFifoCall, ptFifoIsEmpty, h.start_eq_end, ptListCall], h, rfl⟩

end Holds

/-! ## The queues of the transport -/

/-- **The queues of transport files** are such lists. -/
theorem transport_listCall (q : Transport.Fifo) (hfits : q.items.length ≤ q.size) (file : Transport.TrFile)
    (index : Int) :
    listCall q.size q.items (.write (some file)) = (.number (if q.isFull then -1 else 0), (q.write file).items) ∧
    listCall q.size q.items .read = (.pointer q.read.1, q.read.2.items) ∧
    listCall q.size q.items .isFull = (.number (if q.isFull then 1 else 0), q.items) ∧
    listCall q.size q.items (.readIndex index) = (.pointer (q.readIndex index), q.items) := by
  have hfull : q.isFull = decide (q.items.length = q.size) := by
    rw [Transport.Fifo.isFull, decide_eq_decide]
    omega
  refine ⟨?_, rfl, ?_, rfl⟩
  · rw [listCall, listWrite, Transport.Fifo.write, hfull]
    by_cases hlen : q.items.length = q.size <;> simp [hlen, Refused]
  · rw [listCall, hfull]
    by_cases hlen : q.items.length = q.size <;> simp [hlen]

/-! ## Runs -/

/-- Every call of a new FIFO is answered as by an empty list of its capacity, all accesses being inside its slots. -/
def FifoIsList (size : Nat) (last : Option α) (calls : List (FifoCall α)) : Prop :=
  (fifoNew size last).bind (answers fifoCall · calls) = answers (fun q c => some (listCall size q c)) [] calls

def PtFifoIsList (size : Nat) (last : Option α) (calls : List (PtFifoCall α)) : Prop :=
  (ptFifoNew size last).bind (answers ptFifoCall · calls) = answers (fun q c => some (ptListCall size q c)) [] calls

theorem newSlots_overflow (hsize : ¬ size < intMax) (last : Option α) : newSlots size last = none := by
  rw [newSlots, intAdd, if_neg (by omega), Option.map_none]

theorem fifoIsList_iff (last : Option α) (calls : List (FifoCall α)) :
    FifoIsList size last calls ↔ size < intMax ∧ written size [] calls ≤ intMax := by
  by_cases hsize : size < intMax
  · obtain ⟨f, hnew, hf, rfl⟩ := holds_new hsize last
    have hrun := @Holds.answers_iff α calls ⟨f, 0⟩ [] hsize hf (Nat.zero_le _)
    rw [Nat.zero_add] at hrun
    rw [FifoIsList, fifoNew, hnew, Option.map_some, Option.bind_some, hrun]
    exact ⟨fun hw => ⟨hsize, hw⟩, fun hw => hw.2⟩
  · rw [FifoIsList, fifoNew, newSlots_overflow hsize]
    exact iff_of_false (answers_total calls []).symm fun hboth => hsize hboth.1

theorem ptFifoIsList_iff (last : Option α) (calls : List (PtFifoCall α)) :
    PtFifoIsList size last calls ↔ size < intMax := by
  by_cases hsize : size < intMax
  · obtain ⟨f, hnew, hf, rfl⟩ := holds_new hsize last
    rw [PtFifoIsList, ptFifoNew, hnew, Option.bind_some]
    refine iff_of_true (answers_eq_of (R := fun g q => g.size = f.size ∧ Holds g q) ?_ ⟨rfl, hf⟩ calls) hsize
    rintro g q c ⟨hs, hg⟩
    obtain ⟨g', hcall, hg', hs'⟩ := hg.ptCall (hs ▸ hsize) c
    rw [hs] at hcall hg'
    exact .inr ⟨_, g', _, hcall, rfl, hs'.trans hs, hg'⟩
  · rw [PtFifoIsList, ptFifoNew, newSlots_overflow hsize]
    exact iff_of_false (answers_total calls []).symm hsize

/-- **The FIFOs are lists of their capacity** exactly as long as `size + 1` is an `int` and no more items are written
than the counter of `struct FIFO` can count. -/
theorem fifos_are_lists_iff (size : Nat) (last : Option α) (calls : List (FifoCall α)) (ptCalls : List (PtFifoCall α)) :
    (FifoIsList size last calls ↔ size < intMax ∧ written size [] calls ≤ intMax) ∧
    (PtFifoIsList size last ptCalls ↔ size < intMax) :=
  ⟨fifoIsList_iff last calls, ptFifoIsList_iff last ptCalls⟩

/-- Not even an empty list of calls is answered by a FIFO of the largest size. -/
theorem largest_not_list : ¬ FifoIsList (α := Nat) intMax none [] ∧ ¬ PtFifoIsList (α := Nat) intMax none [] := by
  have hnew : newSlots (α := Nat) intMax none = none := newSlots_overflow (Nat.lt_irrefl _) none
  constructor
  · rw [FifoIsList, fifoNew, hnew]
    exact nofun
  · rw [PtFifoIsList, ptFifoNew, hnew]
    exact nofun

end Utility
end Flp
