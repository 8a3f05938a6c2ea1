import FlpPrototype.Message.Protocol
import FlpPrototype.Lib.Lines
/-!
# Encode — `infoLog_msg_encode`

A message is printed as one record, or as one for each line of a string field.  The field is printed to its end and
then cut off at the end of the line; the special characters are replaced in the buffer (`infoLoggerMessage.c`).  What
the buffer shows is the string in it; `none` is an `int` that overflowed.
-/
namespace Flp
namespace Message

variable {D : Type} (dt : DoubleText D)

/-! ## The buffer -/

structure Mysprintf where
  bufferSize : Nat
  buffer : Bytes
  strLength : Nat
  isError : Bool
  deriving DecidableEq, Repr

def mysprintfInit (size : Nat) : Mysprintf := ⟨size, [], 0, false⟩

/-- `mysprintf`, `out` being what the format makes: `vsnprintf` keeps what there is room for, and gives its full
length, or an error when that is no `int`. -/
def mysprintf (s : Mysprintf) (out : Bytes) : Option Mysprintf :=
  if s.isError then some s
  else
    let buffer := s.buffer.take s.strLength ++ out.take (s.bufferSize - s.strLength - 1)
    if intMax < out.length then some { s with buffer, isError := true }
    else
      match intAdd out.length s.strLength with
      | none     => none
      | some len =>
        if s.bufferSize ≤ len then some { s with buffer, isError := true, strLength := s.bufferSize - 1 }
        else some { s with buffer, strLength := len }

/-! ## One record -/

/-- What is put for a special character. -/
def replaceSpecial (c : UInt8) : UInt8 := if c = star ∨ c = hash ∨ c = newline then 63 else c

def replaceFrom (s : Mysprintf) (ix : Nat) : Mysprintf :=
  { s with buffer := s.buffer.take ix ++ (s.buffer.drop ix).map replaceSpecial }

/-- The buffer cut off at the end of the line; the difference of the pointers goes through an `int`. -/
def cutAtLine (s : Mysprintf) (ix eol : Nat) : Mysprintf :=
  let newl := toSigned 32 (ix + eol)
  if 0 ≤ newl ∧ newl < s.bufferSize then
    { s with buffer := s.buffer.take newl.toNat, strLength := newl.toNat, isError := false }
  else s

/-- `eol`: where the line under way ends, if a newline ends it. -/
def eolOf (sol : Option CString) : Option Nat := sol.bind (fun s => strchr s.1 newline)

/-- The value of field `i`: the index where a string began, and the buffer. -/
def encodeField (split : Int) (sol : Option CString) (i : Nat) (s : Mysprintf) :
    FieldValue D → Option (Option Nat × Mysprintf)
  | .string (some v) =>
    let ix := s.strLength
    match if (i : Int) = split then sol else some v.vString with
    | none     => some (some ix, s)
    | some str => (mysprintf s str.1).map (fun s =>
        (some ix, replaceFrom (match if (i : Int) = split then eolOf sol else none with
          | some eol => cutAtLine s ix eol
          | none     => s) ix))
  | .int (some n)    => (mysprintf s (printInt n.toInt)).map (fun s => (none, s))
  | .double (some d) => (mysprintf s (dt.print d)).map (fun s => (none, s))
  | .string none     => some (none, s)
  | .int none        => some (none, s)
  | .double none     => some (none, s)

/-- The loop over the fields: where it stopped, the index of the last string, and the buffer. -/
def encodeFields (split : Int) (sol : Option CString) :
    Nat → Option Nat → Mysprintf → List (FieldValue D) → Option (Nat × Option Nat × Mysprintf)
  | i, ix, s, []      => some (i, ix, s)
  | i, _, s, v :: vs => do
    let s ← mysprintf s [hash]
    let (ix, s) ← encodeField dt split sol i s v
    if s.isError then some (i, ix, s) else encodeFields split sol (i + 1) ix s vs

/-- What ends a record that was cut off, and its `sizeof`. -/
def truncateMsg : Bytes := ascii [' ', '[', '.', '.', '.', ']', '\n']
def sizeofTruncateMsg : Nat := 8

/-- Where that text goes: in the last field, else over the end of the last good record; negative when nowhere. -/
def ixTruncateMsg (numberOfFields bufferSize i : Nat) (ix ixLastGoodRecord : Option Nat) : Int :=
  let ixLast : Int := match ix with
    | some ix =>
      if numberOfFields ≤ i + 1 ∧ (ix : Int) ≤ (bufferSize : Int) - sizeofTruncateMsg then
        (bufferSize : Int) - sizeofTruncateMsg
      else -1
    | none    => -1
  match ixLastGoodRecord with
  | some good => if ixLast < 0 then (good : Int) - 1 else ixLast
  | none      => ixLast

/-- One turn of the loop over the lines: the buffer, `isError` and `truncated`. -/
def encodeRecord (msg : Msg D) (split : Int) (sol : Option CString) (ixLastGoodRecord : Option Nat) (s : Mysprintf) :
    Option (Mysprintf × Nat × Bool) := do
  let s ← mysprintf s (star :: msg.protocol.version)
  let (i, ix, s) ← encodeFields dt split sol 0 none s msg.values
  let s ← mysprintf s [newline]
  if s.isError = true ∨
    ((eolOf sol).isSome = true ∧ (s.bufferSize : Int) < toSigned 32 (s.strLength + sizeofTruncateMsg)) then
    let ixT := ixTruncateMsg msg.protocol.fields.length s.bufferSize i ix ixLastGoodRecord
    if ixT < 0 ∨ (s.bufferSize : Int) < toSigned 32 (ixT.toNat + sizeofTruncateMsg) then
      some (s, if s.isError then 296 else 287, false)
    else do
      let s ← mysprintf { s with isError := false, strLength := ixT.toNat } truncateMsg
      some (s, if s.isError then 296 else 0, true)
  else some (s, 0, false)

/-! ## All records -/

/-- The loop over the lines, whatever the buffer is: a turn of it, what is printed so far and what is in the buffer are
given.  The result and what is in the buffer then. -/
def lineLoop {B : Type} (strLength : B → Nat) (content : B → Bytes)
    (record : Option CString → Option Nat → B → Option (B × Nat × Bool)) (ixLastGoodRecord : Option Nat) (s : B)
    (sol : Option CString) : Option (Int × Bytes) :=
  match record sol ixLastGoodRecord s with
  | none                       => none
  | some (s, isError, truncated) =>
    if truncated then some (-1, content s)
    else if isError ≠ 0 then some (isError, content s)
    else
      match sol with
      | none     => some (0, content s)
      | some sol =>
        match h : strchr sol.1 newline with
        | none     => some (0, content s)
        | some eol => lineLoop strLength content record (some (strLength s)) s (some (sol.drop (eol + 1)))
  termination_by (sol.elim 0 (fun s => s.1.length))
  decreasing_by exact CString.length_drop_lt h

/-- The loop over the lines: the result and what the buffer shows. -/
def encodeLoop (msg : Msg D) (split : Int) (ixLastGoodRecord : Option Nat) (s : Mysprintf) (sol : Option CString) :
    Option (Int × Bytes) :=
  lineLoop Mysprintf.strLength Mysprintf.buffer (encodeRecord dt msg split) ixLastGoodRecord s sol

/-- `infoLog_msg_encode` into a buffer that shows `buffer`: the result and what it shows then. -/
def infoLogMsgEncode (msg : Msg D) (buffer : Bytes) (bufferSize split : Int) : Option (Int × Bytes) :=
  if bufferSize ≤ 0 then some (192, buffer)
  else if split < -1 then some (193, buffer)
  else if split = -1 then encodeLoop dt msg split none (mysprintfInit bufferSize.toNat) none
  else if (msg.protocol.fields.length : Int) ≤ split then some (195, buffer)
  else
    match msg.values[split.toNat]? with
    | some (.string v) => encodeLoop dt msg split none (mysprintfInit bufferSize.toNat) (v.map StringValue.vString)
    | _                => some (196, buffer)

end Message
end Flp
