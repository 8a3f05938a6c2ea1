import FlpPrototype.Lib.CInt
import FlpPrototype.Lib.Run
import FlpPrototype.Transport.Files
/-!
# Server — the reception of files

`TR_server_connection_read` of `transport_server.c`, called when there is something to read from a connection.  Lines
are read to a buffer, where left-over bytes wait for the rest of their line; the data of a file is taken from there, and
then read directly to its place.  A file is given to the output queue behind the line that ends it, and counted at each
try.
-/
namespace Flp
namespace Transport

def TR_SERVER_BUFFER_SIZE : Nat := 5000

/-- `current_file`; `value` is what was received of its data. -/
structure Incoming where
  handle : Nat
  id : TrFileId
  size : Int
  value : Bytes
  size_pos : 0 < size
  deriving DecidableEq

def Incoming.file (f : Incoming) : TrFile := ⟨f.handle, f.id, [f.value], f.size⟩

/-- The state of the reception, with the file under way; a closed connection has none. -/
inductive Receiving where
  | init
  | waitingFileBegin
  | receivingFile (f : Incoming)
  | waitingFileEnd (f : Incoming)
  | closed
  deriving DecidableEq

/-- `struct _TR_data_connection`; the buffer up to `buffer_start`. -/
structure TrDataConnection where
  state : Receiving
  buffer : Bytes
  cxId : Nat
  /-- The handle the next file gets. -/
  allocated : Nat
  /-- The files written to the output queue. -/
  outputQueue : List TrFile
  deriving DecidableEq

/-- What the server counts of all its connections: `stat_bytes_received` and `stat_files_received`. -/
structure TrStatistics where
  bytesReceived : Nat
  filesReceived : Nat
  deriving DecidableEq

/-- What the calls made meanwhile return: the number of bytes sent of the `READY` line, and `ptFIFO_write` at each
try. -/
structure ServerEnv where
  ready : Int
  queueWrite : TrFile → Nat → Int

/-- The line is sent, and the queue takes each file at one of so many tries. -/
def ServerEnv.Accepts (e : ServerEnv) (tries : Nat) : Prop := e.ready = 6 ∧ ∀ f, ∃ i < tries, e.queueWrite f i = 0

/-! ## Files for the queue -/

namespace TrStatistics

/-- A file is counted. -/
def count (stat : TrStatistics) (f : TrFile) : Option TrStatistics :=
  (intAdd stat.bytesReceived f.size.toNat).bind fun bytesReceived =>
    (intAdd stat.filesReceived 1).map fun filesReceived => ⟨bytesReceived, filesReceived⟩

/-- A file was counted so many times. -/
def counted (stat : TrStatistics) (f : TrFile) (n : Nat) : TrStatistics :=
  ⟨stat.bytesReceived + n * f.size.toNat, stat.filesReceived + n⟩

/-- A file can be counted so many times. -/
def Takes (stat : TrStatistics) (f : TrFile) (n : Nat) : Prop :=
  stat.bytesReceived + n * f.size.toNat ≤ intMax ∧ stat.filesReceived + n ≤ intMax

variable {stat stat' : TrStatistics} {f : TrFile} {n : Nat}

theorem count_eq_some (h : stat.count f = some stat') : stat' = stat.counted f 1 ∧ stat.Takes f 1 := by
  obtain ⟨bytes, hbytes, h⟩ := Option.bind_eq_some_iff.1 h
  obtain ⟨files, hfiles, rfl⟩ := Option.map_eq_some_iff.1 h
  obtain ⟨rfl, hlebytes⟩ := intAdd_eq_some hbytes
  obtain ⟨rfl, hlefiles⟩ := intAdd_eq_some hfiles
  unfold counted Takes
  rw [Nat.one_mul]
  exact ⟨rfl, hlebytes, hlefiles⟩

theorem count_of_takes (h : stat.Takes f 1) : stat.count f = some (stat.counted f 1) := by
  unfold Takes at h
  unfold count counted
  rw [Nat.one_mul] at h ⊢
  rw [intAdd_of_le h.1, Option.bind_some, intAdd_of_le h.2, Option.map_some]

theorem counted_add (stat : TrStatistics) (f : TrFile) (m n : Nat) :
    (stat.counted f m).counted f n = stat.counted f (m + n) := by
  unfold counted
  rw [Nat.add_mul, Nat.add_assoc, Nat.add_assoc]

theorem takes_add {m : Nat} : stat.Takes f (m + n) ↔ (stat.counted f m).Takes f n := by
  unfold Takes counted
  rw [Nat.add_mul, Nat.add_assoc, Nat.add_assoc]

theorem Takes.mono {m : Nat} (h : stat.Takes f n) (hle : m ≤ n) : stat.Takes f m := by
  have hmul := Nat.mul_le_mul_right f.size.toNat hle
  obtain ⟨hbytes, hfiles⟩ := h
  exact ⟨by omega, by omega⟩

end TrStatistics

/-- The tries to give a file to the output queue: so many from a first one on.  It is counted at each, and taken or
not. -/
def writeFile (e : ServerEnv) (f : TrFile) : Nat → Nat → TrStatistics → Option (Bool × TrStatistics)
  | 0, _, stat     => some (false, stat)
  | n + 1, i, stat =>
    (stat.count f).bind fun stat => if e.queueWrite f i = 0 then some (true, stat) else writeFile e f n (i + 1) stat

/-- The number of tries made. -/
def ServerEnv.tries (e : ServerEnv) (f : TrFile) : Nat → Nat → Nat
  | 0, _     => 0
  | n + 1, i => if e.queueWrite f i = 0 then 1 else e.tries f n (i + 1) + 1

/-- **The tries come to an end** if they can be counted. -/
theorem writeFile_of_takes {e : ServerEnv} {f : TrFile} : ∀ {n i : Nat} {stat : TrStatistics},
    stat.Takes f (e.tries f n i) → ∃ taken, writeFile e f n i stat = some (taken, stat.counted f (e.tries f n i))
  | 0, i, stat, _ =>
      ⟨false, by simp only [writeFile, ServerEnv.tries, TrStatistics.counted, Nat.zero_mul, Nat.add_zero]⟩
  | n + 1, i, stat, h => by
    rw [ServerEnv.tries] at h ⊢
    rw [writeFile]
    by_cases hwrite : e.queueWrite f i = 0
    · rw [if_pos hwrite] at h ⊢
      rw [TrStatistics.count_of_takes h, Option.bind_some, if_pos hwrite]
      exact ⟨true, rfl⟩
    · rw [if_neg hwrite, Nat.add_comm (e.tries f n (i + 1))] at h ⊢
      rw [TrStatistics.count_of_takes (h.mono (Nat.le_add_right 1 _)), Option.bind_some, if_neg hwrite,
        ← TrStatistics.counted_add]
      exact writeFile_of_takes (TrStatistics.takes_add.1 h)

/-- What the tries counted. -/
theorem writeFile_eq_some {e : ServerEnv} {f : TrFile} : ∀ {n i : Nat} {stat stat' : TrStatistics} {taken : Bool},
    writeFile e f n i stat = some (taken, stat') → stat' = stat.counted f (e.tries f n i) ∧
      (0 < n → stat.Takes f (e.tries f n i)) ∧ (taken = true ↔ ∃ j < n, e.queueWrite f (i + j) = 0)
  | 0, i, stat, stat', taken, h => by
    cases h
    refine ⟨by simp only [ServerEnv.tries, TrStatistics.counted, Nat.zero_mul, Nat.add_zero],
      fun hn => absurd hn (Nat.lt_irrefl 0), fun (ht : false = true) => absurd ht Bool.false_ne_true, ?_⟩
    rintro ⟨j, hj, -⟩
    exact absurd hj (Nat.not_lt_zero j)
  | n + 1, i, stat, stat', taken, h => by
    rw [writeFile] at h
    rw [ServerEnv.tries]
    obtain ⟨stat₁, hcount, h⟩ := Option.bind_eq_some_iff.1 h
    obtain ⟨rfl, htakes⟩ := TrStatistics.count_eq_some hcount
    by_cases hwrite : e.queueWrite f i = 0
    · rw [if_pos hwrite] at h ⊢
      cases h
      exact ⟨rfl, fun _ => htakes, fun _ => ⟨0, Nat.succ_pos n, hwrite⟩, fun _ => rfl⟩
    · rw [if_neg hwrite] at h
      rw [if_neg hwrite, Nat.add_comm _ 1]
      obtain ⟨rfl, hroom, htaken⟩ := writeFile_eq_some h
      refine ⟨TrStatistics.counted_add .., fun _ => TrStatistics.takes_add.2 ?_, htaken.trans ⟨?_, ?_⟩⟩
      · cases n with
        | zero =>
          rw [ServerEnv.tries]
          exact TrStatistics.takes_add.1 htakes
        | succ n => exact hroom (Nat.succ_pos n)
      · rintro ⟨j, hj, hj'⟩
        exact ⟨j + 1, by omega, by rw [← hj']; congr 1; omega⟩
      · rintro ⟨j, hj, hj'⟩
        cases j with
        | zero => exact absurd hj' hwrite
        | succ j => exact ⟨j, by omega, by rw [← hj']; congr 1; omega⟩

/-- A file taken at a try needs no more of them. -/
theorem ServerEnv.tries_le {e : ServerEnv} {f : TrFile} : ∀ {n i j : Nat}, e.queueWrite f (i + j) = 0 →
    e.tries f n i ≤ j + 1
  | 0, _, j, _ => Nat.zero_le (j + 1)
  | n + 1, i, j, h => by
    rw [ServerEnv.tries]
    split
    · omega
    · rename_i hwrite
      cases j with
      | zero => exact absurd h hwrite
      | succ j => exact Nat.succ_le_succ (tries_le (by rw [← h]; congr 1; omega))

/-! ## Lines -/

/-- The line at the beginning of the text, and what stands behind it; `strchr` looks up to a NUL. -/
def firstLine (text : Bytes) : Option (Bytes × Bytes) :=
  (strchr (cStr text) newline).map fun e => (text.take e, text.drop (e + 1))

/-- What `sscanf` reads with `File %s %d %d %d`. -/
def scanHeader (line : Bytes) : Option (Bytes × Int × Int × Int) :=
  if (ascii "File".toList).isPrefixOf line then
    (scanWord (line.drop 4)).bind fun source =>
      (scanInt source.2).bind fun minId =>
        (scanInt minId.2).bind fun majId =>
          (scanInt majId.2).map fun size =>
            (source.1, (intOf minId.1).toInt, (intOf majId.1).toInt, (intOf size.1).toInt)
  else none

namespace TrDataConnection

/-- A connection just opened. -/
def start (cxId : Nat) : TrDataConnection := ⟨.init, [], cxId, 0, []⟩

/-- `TR_server_connection_close`. -/
def connectionClose (cx : TrDataConnection) : TrDataConnection := { cx with state := .closed }

/-- The header of a file was read: its data is taken from the buffer as far as it is there.  The room for it and a NUL
is `size + 1`. -/
def beginFile (cx : TrDataConnection) (source : Bytes) (minId majId size : Int) (hsize : 0 < size) (rest : Bytes) :
    Option (TrDataConnection × Bytes) :=
  (intPlus size 1).map fun _ =>
    let f : Incoming :=
      ⟨cx.allocated, ⟨some (CString.at source), majId, minId, cx.cxId⟩, size, rest.take size.toNat, hsize⟩
    ({ cx with
        state := if size ≤ rest.length then .waitingFileEnd f else .receivingFile f
        allocated := cx.allocated + 1 },
      rest.drop size.toNat)

/-- A line of the buffer; also what the function returns if it does so at once, and what is left to parse. -/
def processLine (e : ServerEnv) (stat : TrStatistics) (cx : TrDataConnection) (line rest : Bytes) :
    Option (Int × TrStatistics × TrDataConnection × Bytes) :=
  match cx.state with
  | .waitingFileBegin =>
    match scanHeader line with
    | none => some (0, stat, cx.connectionClose, rest)
    | some (source, minId, majId, size) =>
      if h : size ≤ 0 then some (0, stat, cx.connectionClose, rest)
      else (cx.beginFile source minId majId size (Int.not_le.1 h) rest).map fun r => (0, stat, r)
  | .waitingFileEnd f =>
    if (ascii "END".toList).isPrefixOf line then
      (writeFile e f.file 11 0 stat).map fun
        | (true, stat)  =>
          (0, stat, { cx with state := .waitingFileBegin, outputQueue := cx.outputQueue ++ [f.file] }, rest)
        | (false, stat) => (-1, stat, cx.connectionClose, rest)
    else some (0, stat, cx.connectionClose, rest)
  | .init =>
    some (0, stat, if e.ready = 6 then { cx with state := .waitingFileBegin } else cx.connectionClose, rest)
  | .receivingFile _ => some (0, stat, cx, rest)
  | .closed          => some (0, stat, cx, rest)

/-- **The loop over the lines** in the buffer: what is left to parse, and whether that is behind its beginning.  Every
turn takes at least a newline of it. -/
def parseBuffer (e : ServerEnv) : Nat → TrStatistics → TrDataConnection → Bytes → Bool →
    Option (Int × TrStatistics × TrDataConnection)
  | 0, _, _, _, _                    => none
  | fuel + 1, stat, cx, text, behind =>
    if cx.state = .closed then some (0, stat, cx)
    else
      match firstLine text with
      | none =>
        if behind then some (0, stat, { cx with buffer := text })
        else if TR_SERVER_BUFFER_SIZE - 1 ≤ cx.buffer.length then some (0, stat, cx.connectionClose)
        else some (0, stat, cx)
      | some (line, rest) =>
        match processLine e stat cx line rest with
        | none                     => none
        | some (r, stat, cx, rest) => if r ≠ 0 then some (r, stat, cx) else parseBuffer e fuel stat cx rest true

/-- The length given to `read`. -/
def asked (cx : TrDataConnection) : Nat :=
  match cx.state with
  | .receivingFile f => f.size.toNat - f.value.length
  | _                => TR_SERVER_BUFFER_SIZE - cx.buffer.length - 1

/-- `TR_server_connection_read`, `data` being what `read` gives; no byte at the end or on an error.  It is not called
for a closed connection. -/
def connectionRead (e : ServerEnv) (stat : TrStatistics) (cx : TrDataConnection) (data : Bytes) :
    Option (Int × TrStatistics × TrDataConnection) :=
  if cx.state = .closed then none
  else if data = [] then some (0, stat, cx.connectionClose)
  else
    match cx.state with
    | .receivingFile f =>
      let f := { f with value := f.value ++ data }
      some (0, stat,
        { cx with state := if (f.value.length : Int) = f.size then .waitingFileEnd f else .receivingFile f })
    | _ =>
      let cx := { cx with buffer := cx.buffer ++ data }
      parseBuffer e (cx.buffer.length + 1) stat cx cx.buffer false

end TrDataConnection

/-! ## Runs -/

/-- A connection, and what its server counts. -/
structure Reception where
  stat : TrStatistics
  cx : TrDataConnection
  deriving DecidableEq

namespace Reception

/-- What happens between two calls and in the next one: whether the statistics are printed, which then count from 0
again, what the calls made return, and what `read` gives. -/
structure Call where
  printed : Bool
  env : ServerEnv
  data : Bytes

/-- `TR_server_print_stats`, when there is a file for the statistics and their time has come. -/
def printStats (printed : Bool) (stat : TrStatistics) : TrStatistics := if printed then ⟨0, 0⟩ else stat

/-- A call. -/
def step (s : Reception) (a : Call) : Option Reception :=
  (TrDataConnection.connectionRead a.env (printStats a.printed s.stat) s.cx a.data).map fun (_, stat, cx) => ⟨stat, cx⟩

/-- The output queue takes a file at one of so many tries; `read` gives something, and no more than it was asked for. -/
def Reads (tries : Nat) (s : Reception) (a : Call) : Prop :=
  a.env.Accepts tries ∧ a.data ≠ [] ∧ (s.cx.state ≠ .closed → a.data.length ≤ s.cx.asked)

end Reception
end Transport
end Flp
