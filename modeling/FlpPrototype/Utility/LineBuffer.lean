import FlpPrototype.Common.LineBuffer
import FlpPrototype.Lib.Run
import FlpPrototype.Message.Memory
/-!
# LineBuffer — `lineBuffer_add` and `lineBuffer_getLine`

The line buffer in C keeps what it has read in one piece of memory, up to `bufferMaxSize` bytes.  A line that is all
there is in it is handed over with the memory, otherwise what is behind the line is copied.  The bytes read so far are
always the lines returned and what the memory holds in front of its terminator (`Holds`); so this line buffer is exact
too, and returns what the one in C++ returns (`lineBuffers_exact`).
-/
namespace Flp
namespace Utility

open Common (Turn readBytes LineReader Exact)
open Message (store)

def bufferChunkSize : Nat := 100
def bufferMaxSize : Nat := 200000

/-- `malloc`: memory of the size asked for, whatever is in it, or NULL. -/
abbrev Alloc := Nat → Option Bytes

def Alloc.Succeeds (alloc : Alloc) : Prop := ∀ n, ∃ fresh, alloc n = some fresh ∧ fresh.length = n

/-- `realloc`: what is new of the memory is behind the old. -/
def realloc (alloc : Alloc) (memory : Bytes) (size : Nat) : Option Bytes :=
  (alloc (size - memory.length)).map fun fresh => memory.take size ++ fresh

/-- `memcpy` out of a memory, which it must not leave. -/
def load (memory : Bytes) (address n : Nat) : Option Bytes :=
  if address + n ≤ memory.length then some ((memory.drop address).take n) else none

/-- `strchr` in a memory: it goes up to the terminator, and there must be one. -/
def strchrIn (memory : Bytes) (c : UInt8) : Option (Option Nat) :=
  match strchr (cStr memory) c with
  | some e => some (some e)
  | none   => if 0 ∈ memory then some none else none

structure LineBuffer where
  bufContent : Option Bytes
  bufUsed : Nat
  bufSize : Nat
  deriving DecidableEq, Repr

namespace LineBuffer

/-- `lineBuffer_new`. -/
def new : LineBuffer := ⟨none, 0, 0⟩

def allocate (alloc : Alloc) (buf : LineBuffer) (size : Nat) : Int × LineBuffer :=
  if bufferMaxSize < size + buf.bufSize then (-1, buf)
  else
    match (match buf.bufContent with
      | none         => alloc size
      | some content => realloc alloc content (size + buf.bufSize)) with
    | none        => (-1, buf)
    | some newptr => (0, { buf with bufContent := some newptr, bufSize := buf.bufSize + size })

/-- Increase buffer size if needed. -/
def makeRoom (alloc : Alloc) (buf : LineBuffer) : Int × LineBuffer :=
  if buf.bufSize - buf.bufUsed < bufferChunkSize then allocate alloc buf bufferChunkSize else (0, buf)

/-- `read` behind what is used, and the terminator.  A count below zero would be a huge one. -/
def readInto (buf : LineBuffer) (fd : Bytes) (n : Nat) : Option (Option Int × LineBuffer × Bytes) :=
  match buf.bufContent with
  | none         => none
  | some content =>
    if buf.bufSize ≤ buf.bufUsed then none
    else
      let got := readBytes fd (buf.bufSize - buf.bufUsed - 1) n
      if got = [] then some (some (-1), buf, fd)
      else do
        let content ← store content buf.bufUsed got
        let content ← store content (buf.bufUsed + got.length) [0]
        some (none, { buf with bufContent := some content, bufUsed := buf.bufUsed + got.length }, fd.drop got.length)

/-- One turn of the loop of `lineBuffer_add`: the code it is left with, if it is. -/
def addTurn (alloc : Alloc) (buf : LineBuffer) (fd : Bytes) : Turn → Option (Option Int × LineBuffer × Bytes)
  | .selectError => some (some 0, buf, fd)
  | .notReady    => some (some 0, buf, fd)
  | .readError   => some (some 0, (makeRoom alloc buf).2, fd)
  | .read n      =>
    if (makeRoom alloc buf).1 < 0 then some (some 0, (makeRoom alloc buf).2, fd)
    else readInto (makeRoom alloc buf).2 fd n

/-- `lineBuffer_add`; behind the last turn nothing is ready. -/
def add (buf : LineBuffer) (fd : Bytes) : List (Alloc × Turn) → Option (Int × LineBuffer × Bytes)
  | []     => some (0, buf, fd)
  | t :: ts =>
    match addTurn t.1 buf fd t.2 with
    | none                        => none
    | some (some code, buf', fd') => some (code, buf', fd')
    | some (none, buf', fd')      => add buf' fd' ts

def getLine (alloc : Alloc) (buf : LineBuffer) : Option (Option Bytes × LineBuffer) :=
  if buf.bufUsed = 0 then some (none, buf)
  else
    match buf.bufContent with
    | none         => none
    | some content =>
      match strchrIn content newline with
      | none                => none
      | some none           => some (none, buf)
      | some (some endline) =>
        let endPos := endline + 1
        if endPos = buf.bufUsed then
          (store content (buf.bufUsed - 1) [0]).map fun line => (some (cStr line), ⟨none, 0, 0⟩)
        else
          match alloc (buf.bufSize - endPos) with
          | none   => some (none, buf)
          | some _ => do
            let newbuf ← load content endPos (buf.bufSize - endPos)
            match realloc alloc content endPos with
            | none      => some (none, buf)
            | some line =>
              let line ← store line (endPos - 1) [0]
              some (some (cStr line), ⟨some newbuf, buf.bufUsed - endPos, buf.bufSize - endPos⟩)

/-! ## What the memory holds -/

/-- The bytes that have not been returned, a terminator behind them, all inside the memory. -/
structure Holds (buf : LineBuffer) (held : Bytes) : Prop where
  used : buf.bufUsed = held.length
  small : buf.bufSize ≤ bufferMaxSize
  memory : buf.bufContent = none ∧ held = [] ∧ buf.bufSize = 0 ∨
    ∃ c behind, buf.bufContent = some (held ++ c :: behind) ∧ buf.bufSize = (held ++ c :: behind).length ∧
      (held ≠ [] → c = 0)

variable {buf : LineBuffer} {held fd : Bytes} {alloc : Alloc}

theorem holds_new : Holds new [] := ⟨rfl, Nat.zero_le _, .inl ⟨rfl, rfl, rfl⟩⟩

theorem store_over (before here there behind : Bytes) (h : there.length = here.length) :
    store (before ++ (here ++ behind)) before.length there = some (before ++ (there ++ behind)) := by
  rw [store, if_pos (by simp only [List.length_append]; omega), List.take_left, h, ← List.drop_drop, List.drop_left,
    List.drop_left, List.append_assoc]

theorem allocate_chunk (h : Holds buf held) (ha : alloc.Succeeds)
    (hroom : bufferChunkSize + buf.bufSize ≤ bufferMaxSize) :
    ∃ c behind, allocate alloc buf bufferChunkSize =
        (0, ⟨some (held ++ c :: behind), buf.bufUsed, buf.bufSize + bufferChunkSize⟩) ∧
      buf.bufSize + bufferChunkSize = (held ++ c :: behind).length ∧ (held ≠ [] → c = 0) ∧ behind ≠ [] := by
  obtain ⟨hcontent, rfl, hsize⟩ | ⟨c, behind, hcontent, hsize, hc⟩ := h.memory
  · obtain ⟨fresh, hfresh, hlen⟩ := ha bufferChunkSize
    match fresh, hlen with
    | c :: d :: behind, hlen =>
      refine ⟨c, d :: behind, ?_, ?_, fun hne => absurd rfl hne, List.cons_ne_nil _ _⟩
      · simp only [allocate, if_neg (Nat.not_lt.2 hroom), hcontent, hfresh, List.nil_append]
      · rw [hsize, Nat.zero_add, List.nil_append, hlen]
  · obtain ⟨fresh, hfresh, hlen⟩ := ha (bufferChunkSize + buf.bufSize - (held ++ c :: behind).length)
    have hextended : realloc alloc (held ++ c :: behind) (bufferChunkSize + buf.bufSize) =
        some (held ++ c :: (behind ++ fresh)) := by
      rw [realloc, hfresh, Option.map_some, List.take_of_length_le (by omega), List.append_assoc, List.cons_append]
    rw [← hsize, Nat.add_sub_cancel] at hlen
    refine ⟨c, behind ++ fresh, ?_, ?_, hc, fun hnil => ?_⟩
    · simp only [allocate, if_neg (Nat.not_lt.2 hroom), hcontent, hextended]
    · rw [hsize]
      simp only [List.length_append, List.length_cons, hlen]
      omega
    · rw [(List.append_eq_nil_iff.1 hnil).2] at hlen
      cases hlen

/-- There is room behind what is held, or the buffer is nearly full. -/
theorem makeRoom_spec (h : Holds buf held) (ha : alloc.Succeeds) :
    (makeRoom alloc buf = (-1, buf) ∧ bufferMaxSize - 2 * bufferChunkSize ≤ held.length) ∨
    ∃ buf' c behind, makeRoom alloc buf = (0, buf') ∧ Holds buf' held ∧
      buf'.bufContent = some (held ++ c :: behind) ∧ buf'.bufSize = (held ++ c :: behind).length ∧ behind ≠ [] := by
  have hused := h.used
  unfold makeRoom
  split
  · rename_i hneeded
    by_cases hroom : bufferChunkSize + buf.bufSize ≤ bufferMaxSize
    · obtain ⟨c, behind, heq, hsize, hc, hne⟩ := allocate_chunk h ha hroom
      exact .inr ⟨_, c, behind, heq, ⟨hused, by rw [Nat.add_comm]; exact hroom, .inr ⟨c, behind, rfl, hsize, hc⟩⟩, rfl,
        hsize, hne⟩
    · refine .inl ⟨by rw [allocate, if_pos (Nat.lt_of_not_le hroom)], ?_⟩
      simp only [bufferChunkSize, bufferMaxSize] at hroom hneeded ⊢
      omega
  · rename_i hroom
    obtain ⟨-, -, hsize⟩ | ⟨c, behind, hcontent, hsize, -⟩ := h.memory
    · rw [hsize, Nat.zero_sub] at hroom
      exact absurd (by decide) hroom
    · refine .inr ⟨buf, c, behind, rfl, h, hcontent, hsize, ?_⟩
      rintro rfl
      rw [List.length_append, List.length_singleton] at hsize
      simp only [bufferChunkSize] at hroom
      omega

/-! ## The calls -/

theorem readBytes_append (count n : Nat) : readBytes fd count n ++ fd.drop (readBytes fd count n).length = fd :=
  List.prefix_iff_eq_append.1 (List.take_prefix _ _)

theorem readInto_spec (fd : Bytes) (h : Holds buf held) {c : UInt8} {behind : Bytes}
    (hcontent : buf.bufContent = some (held ++ c :: behind)) (hsize : buf.bufSize = (held ++ c :: behind).length)
    (hbehind : behind ≠ []) (n : Nat) :
    fd = [] ∧ readInto buf fd n = some (some (-1), buf, fd) ∨
    ∃ buf' got fd', readInto buf fd n = some (none, buf', fd') ∧ got ≠ [] ∧ fd = got ++ fd' ∧
      Holds buf' (held ++ got) := by
  have hused := h.used
  have hlen := hsize
  rw [List.length_append, List.length_cons] at hlen
  have hcount : buf.bufSize - buf.bufUsed - 1 = behind.length := by omega
  have hpos : 0 < behind.length := List.length_pos_iff.2 hbehind
  by_cases hfd : fd = []
  · refine .inl ⟨hfd, ?_⟩
    simp only [readInto, hcontent, if_neg (show ¬ buf.bufSize ≤ buf.bufUsed by omega), hfd, readBytes, List.take_nil,
      if_pos]
  · have hgot : readBytes fd behind.length n ≠ [] := by
      rw [readBytes, ne_eq, List.take_eq_nil_iff]
      exact not_or.2 ⟨by omega, hfd⟩
    have hle : (readBytes fd behind.length n).length ≤ behind.length := by
      rw [readBytes, List.length_take]
      omega
    generalize hr : readBytes fd behind.length n = got at hgot hle
    have hwhole : got ++ fd.drop got.length = fd := by rw [← hr]; exact readBytes_append _ _
    -- the bytes go over the terminator, and the new terminator over what is behind them
    obtain ⟨here, d, after, hsplit, hhere⟩ : ∃ here d after, c :: behind = here ++ (d :: after) ∧
        here.length = got.length := by
      have hdrop : (c :: behind).drop got.length ≠ [] := by
        rw [ne_eq, List.drop_eq_nil_iff, List.length_cons]
        omega
      obtain ⟨d, after, hd⟩ := List.exists_cons_of_ne_nil hdrop
      exact ⟨(c :: behind).take got.length, d, after, by rw [← hd, List.take_append_drop],
        List.length_take_of_le (by rw [List.length_cons]; omega)⟩
    have hread : store (held ++ c :: behind) buf.bufUsed got = some (held ++ (got ++ d :: after)) := by
      rw [hused, hsplit]
      exact store_over held here got _ hhere.symm
    have hterm : store (held ++ (got ++ d :: after)) (buf.bufUsed + got.length) [0] =
        some (held ++ got ++ 0 :: after) := by
      rw [hused, ← List.append_assoc, ← List.length_append]
      exact store_over (held ++ got) [d] [0] after rfl
    refine .inr ⟨⟨some (held ++ got ++ 0 :: after), buf.bufUsed + got.length, buf.bufSize⟩, got, fd.drop got.length, ?_,
      hgot, hwhole.symm, by rw [List.length_append, ← hused], h.small, .inr ⟨0, after, rfl, ?_, fun _ => rfl⟩⟩
    · simp only [readInto, hcontent, if_neg (show ¬ buf.bufSize ≤ buf.bufUsed by omega), hcount, hr, if_neg hgot,
        Option.bind_eq_bind, hread, Option.bind_some, hterm]
    · show buf.bufSize = _
      rw [hsize, hsplit]
      simp only [List.length_append, List.length_cons, hhere]
      omega

theorem strchrIn_text {t : Bytes} (h : 0 ∉ t) (behind : Bytes) (c : UInt8) :
    strchrIn (t ++ 0 :: behind) c = some (strchr t c) := by
  rw [strchrIn, cStr_append_nul h]
  cases strchr t c with
  | none   => exact if_pos (by simp)
  | some e => rfl

theorem getLine_none (h : Holds buf held) (hnul : 0 ∉ held) (hnl : newline ∉ held) :
    getLine alloc buf = some (none, buf) := by
  rw [getLine]
  split
  · rfl
  · rename_i hused
    rw [h.used] at hused
    have hne : held ≠ [] := fun e => hused (by rw [e]; rfl)
    obtain ⟨-, hnil, -⟩ | ⟨c, behind, hcontent, -, hc⟩ := h.memory
    · exact absurd hnil hne
    · rw [hc hne] at hcontent
      simp only [hcontent, strchrIn_text hnul, strchr_eq_none.2 hnl]

theorem getLine_line {l rest : Bytes} (h : Holds buf (l ++ newline :: rest)) (hnul : 0 ∉ l ++ newline :: rest)
    (hl : newline ∉ l) (ha : alloc.Succeeds) :
    ∃ buf', getLine alloc buf = some (some l, buf') ∧ Holds buf' rest := by
  have hused := h.used
  rw [List.length_append, List.length_cons] at hused
  have hl0 : 0 ∉ l := fun h0 => hnul (List.mem_append_left _ h0)
  obtain ⟨-, hnil, -⟩ | ⟨c, behind, hcontent, hsize, hc⟩ := h.memory
  · exact absurd hnil (by simp)
  obtain rfl : c = 0 := hc (by simp)
  have hfound : strchrIn (l ++ newline :: rest ++ 0 :: behind) newline = some (some l.length) := by
    rw [strchrIn_text hnul, strchr_append hl]
  -- the newline becomes the terminator of the line
  have hline : ∀ tail, store (l ++ ([newline] ++ tail)) l.length [0] = some (l ++ ([0] ++ tail)) := fun tail =>
    store_over l [newline] [0] tail rfl
  have htext : ∀ tail, cStr (l ++ ([0] ++ tail)) = l := fun tail => cStr_append_nul hl0 tail
  rw [getLine, if_neg (by omega)]
  simp only [hcontent, hfound]
  split
  · rename_i hend
    have hrest : rest = [] := List.length_eq_zero_iff.1 (by omega)
    subst hrest
    refine ⟨⟨none, 0, 0⟩, ?_, rfl, Nat.zero_le _, .inl ⟨rfl, rfl, rfl⟩⟩
    rw [show buf.bufUsed - 1 = l.length by omega, List.append_assoc, ← List.singleton_append, List.append_assoc, hline,
      Option.map_some, htext]
  · rename_i hend
    have hrest : rest ≠ [] := fun e => hend (by rw [hused, e]; rfl)
    have hlen : buf.bufSize = l.length + 1 + (rest ++ 0 :: behind).length := by
      rw [hsize]
      simp only [List.length_append, List.length_cons]
      omega
    have hmemory : l ++ newline :: rest ++ 0 :: behind = (l ++ [newline]) ++ (rest ++ 0 :: behind) := by simp
    have hendPos : (l ++ [newline]).length = l.length + 1 := by simp
    obtain ⟨newbuf, hnew, -⟩ := ha (buf.bufSize - (l.length + 1))
    obtain ⟨fresh, hfresh, hfreshlen⟩ := ha 0
    have hfresh0 : fresh = [] := List.length_eq_zero_iff.1 hfreshlen
    have hload : load (l ++ newline :: rest ++ 0 :: behind) (l.length + 1) (buf.bufSize - (l.length + 1)) =
        some (rest ++ 0 :: behind) := by
      rw [load, if_pos (by rw [← hsize]; omega), hmemory, ← hendPos, List.drop_left, List.take_of_length_le (by omega)]
    have hrealloc :
        realloc alloc (l ++ newline :: rest ++ 0 :: behind) (l.length + 1) = some (l ++ ([newline] ++ [])) := by
      rw [realloc, show l.length + 1 - (l ++ newline :: rest ++ 0 :: behind).length = 0 by rw [← hsize]; omega, hfresh,
        hfresh0, Option.map_some, hmemory, ← hendPos, List.take_left, List.append_nil, List.append_nil]
    refine ⟨⟨some (rest ++ 0 :: behind), buf.bufUsed - (l.length + 1), buf.bufSize - (l.length + 1)⟩, ?_, ?_, ?_,
      .inr ⟨0, behind, rfl, ?_, fun _ => rfl⟩⟩
    · simp only [hnew, hload, hrealloc, Option.bind_eq_bind, Option.bind_some, Nat.add_sub_cancel, hline, htext]
    · show buf.bufUsed - (l.length + 1) = rest.length
      omega
    · exact Nat.le_trans (Nat.sub_le _ _) h.small
    · show buf.bufSize - (l.length + 1) = _
      omega

/-! ## The runs -/

inductive Call where
  | add (turns : List (Alloc × Turn))
  | getLine (alloc : Alloc)

/-- No allocation of the call fails. -/
def Call.Succeeds : Call → Prop
  | .add turns     => ∀ t ∈ turns, t.1.Succeeds
  | .getLine alloc => alloc.Succeeds

def step (r : LineReader LineBuffer) : Call → Option (LineReader LineBuffer)
  | .add turns =>
    (add r.buffer r.fd turns).map fun answer => { r with buffer := answer.2.1, fd := answer.2.2 }
  | .getLine alloc =>
    (getLine alloc r.buffer).map fun answer =>
      { r with buffer := answer.2, returned := r.returned ++ answer.1.toList }

def text (buf : LineBuffer) : Bytes := (buf.bufContent.getD []).take buf.bufUsed

/-- What is read has been returned, line by line, or is held. -/
def Keeps (stream : Bytes) (r : LineReader LineBuffer) : Prop :=
  ∃ held, stream = r.returned.flatMap (fun l => l ++ [newline]) ++ held ++ r.fd ∧ (∀ l ∈ r.returned, newline ∉ l) ∧
    Holds r.buffer held

variable {stream : Bytes} {r : LineReader LineBuffer}

theorem Keeps.without_nul (hnul : 0 ∉ stream) (h : Keeps stream r) :
    ∃ held, stream = r.returned.flatMap (fun l => l ++ [newline]) ++ held ++ r.fd ∧ (∀ l ∈ r.returned, newline ∉ l) ∧
      Holds r.buffer held ∧ 0 ∉ held := by
  obtain ⟨held, hs, hlines, hholds⟩ := h
  refine ⟨held, hs, hlines, hholds, fun h0 => hnul ?_⟩
  rw [hs]
  exact List.mem_append_left _ (List.mem_append_right _ h0)

theorem Holds.text_eq (h : Holds buf held) : buf.text = held := by
  obtain ⟨hcontent, rfl, -⟩ | ⟨c, behind, hcontent, -, -⟩ := h.memory
  · simp [text, hcontent]
  · rw [text, hcontent, h.used, Option.getD_some, List.take_left]

/-- What is held begins with a line, or has none. -/
theorem line_or_not (held : Bytes) : newline ∉ held ∨ ∃ l rest, held = l ++ newline :: rest ∧ newline ∉ l := by
  cases hs : strchr held newline with
  | none   => exact .inl (strchr_eq_none.1 hs)
  | some e =>
    obtain ⟨heq, hl, -⟩ := strchr_eq_some hs
    exact .inr ⟨_, _, heq, hl⟩

theorem drains_held (ha : alloc.Succeeds) : ∀ (n : Nat) {buf : LineBuffer} {held : Bytes}, held.length ≤ n →
    Holds buf held → 0 ∉ held → ∃ b, Drains (getLine alloc) buf (cutLines newline held).1 b ∧
      Holds b (cutLines newline held).2
  | n, buf, held, hn, h, hnul => by
    rcases line_or_not held with hno | ⟨l, rest, rfl, hl⟩
    · rw [cutLines_of_not_mem newline hno]
      exact ⟨buf, getLine_none h hnul hno, h⟩
    · rw [List.length_append, List.length_cons] at hn
      cases n with
      | zero => omega
      | succ n =>
        obtain ⟨buf', hget, h'⟩ := getLine_line h hnul hl ha
        have hrest : 0 ∉ rest := fun h0 => hnul (List.mem_append_right _ (List.mem_cons_of_mem _ h0))
        obtain ⟨b, hd, hb⟩ := drains_held ha n (by omega) h' hrest
        rw [cutLines_line newline hl]
        exact ⟨b, ⟨buf', hget, hd⟩, hb⟩

theorem Keeps.exact (hnul : 0 ∉ stream) (h : Keeps stream r) (ha : alloc.Succeeds) :
    Exact (getLine alloc) text stream r := by
  obtain ⟨held, hs, hlines, hholds, hheld⟩ := h.without_nul hnul
  obtain ⟨b, hd, hb⟩ := drains_held ha held.length (Nat.le_refl _) hholds hheld
  refine ⟨_, hs, _, b, hd, ?_, ?_⟩
  · rw [cutLines_flatMap_append newline held hlines]
  · rw [hb.text_eq, cutLines_flatMap_append newline held hlines]

/-- What the user of the buffer in C relies on: it is exact, the terminator is inside the memory, and if the lines are
not too long there is a line to be got or room for more. -/
structure Sound (stream : Bytes) (r : LineReader LineBuffer) : Prop where
  exact : ∀ alloc : Alloc, alloc.Succeeds → Exact (getLine alloc) text stream r
  inside : ∀ content, r.buffer.bufContent = some content → r.buffer.bufUsed < r.buffer.bufSize ∧
    content.length = r.buffer.bufSize ∧ (0 < r.buffer.bufUsed → content[r.buffer.bufUsed]? = some 0)
  moves : (∀ l ∈ lines newline stream, l.length < bufferMaxSize - 2 * bufferChunkSize) → r.fd ≠ [] →
    ∀ alloc : Alloc, alloc.Succeeds → ∀ n, (∃ line b, getLine alloc r.buffer = some (some line, b)) ∨
      ∃ b got fd', addTurn alloc r.buffer r.fd (.read n) = some (none, b, fd') ∧ got ≠ [] ∧ r.fd = got ++ fd'

theorem Keeps.inside (h : Keeps stream r) {content : Bytes} (hcontent : r.buffer.bufContent = some content) :
    r.buffer.bufUsed < r.buffer.bufSize ∧ content.length = r.buffer.bufSize ∧
      (0 < r.buffer.bufUsed → content[r.buffer.bufUsed]? = some 0) := by
  obtain ⟨held, -, -, hholds⟩ := h
  have hused := hholds.used
  obtain ⟨hnone, -, -⟩ | ⟨c, behind, hsome, hsize, hc⟩ := hholds.memory
  · rw [hnone] at hcontent
    cases hcontent
  · rw [hsome] at hcontent
    cases hcontent
    refine ⟨?_, hsize.symm, fun hpos => ?_⟩
    · rw [hsize, hused, List.length_append, List.length_cons]
      omega
    · rw [hc (List.length_pos_iff.1 (hused ▸ hpos)), hused, List.getElem?_append_right (Nat.le_refl _), Nat.sub_self]
      rfl

/-- A buffer that is nearly full of lines that are not too long has one that is complete. -/
theorem Keeps.moves (hnul : 0 ∉ stream) (h : Keeps stream r)
    (hshort : ∀ l ∈ lines newline stream, l.length < bufferMaxSize - 2 * bufferChunkSize) (hfd : r.fd ≠ [])
    (ha : alloc.Succeeds) (n : Nat) : (∃ line b, getLine alloc r.buffer = some (some line, b)) ∨
      ∃ b got fd', addTurn alloc r.buffer r.fd (.read n) = some (none, b, fd') ∧ got ≠ [] ∧
        r.fd = got ++ fd' := by
  obtain ⟨held, hs, hlines, hholds, hheld⟩ := h.without_nul hnul
  rcases line_or_not held with hno | ⟨l, rest, rfl, hl⟩
  · refine .inr ?_
    rcases makeRoom_spec hholds ha with ⟨-, hfull⟩ | ⟨buf', c, behind, hroom, h', hcontent, hsize, hne⟩
    · obtain ⟨l, hl, hp⟩ := rest_begins newline (r.returned.flatMap (fun l => l ++ [newline]) ++ held) r.fd
      rw [← hs] at hl
      rw [cutLines_flatMap_append newline held hlines, cutLines_of_not_mem newline hno] at hp
      have hlt := hshort l hl
      have hle : held.length ≤ l.length := hp.length_le
      omega
    · rcases readInto_spec r.fd h' hcontent hsize hne n with ⟨hnil, -⟩ | ⟨b, got, fd', hr, hgot, hfd', -⟩
      · exact absurd hnil hfd
      · refine ⟨b, got, fd', ?_, hgot, hfd'⟩
        rw [addTurn, hroom]
        exact hr
  · obtain ⟨buf', hget, -⟩ := getLine_line hholds hheld hl ha
    exact .inl ⟨l, buf', hget⟩

/-- Memory full of sevens. -/
def sevens : Alloc := fun n => some (List.replicate n 7)

/-- A line, an empty one, and the beginning of a third. -/
def twoLines : Bytes := ascii ['a', 'b', '\n', '\n', 'c']

/-- Two reads, cut inside the first line and behind the second. -/
def pieces : List Call :=
  [.add [(sevens, .read 0)], .getLine sevens, .add [(sevens, .read 2), (sevens, .notReady)], .getLine sevens,
    .getLine sevens, .getLine sevens]

end LineBuffer
end Utility
end Flp
