import FlpPrototype.Lib.ByteMemory
/-!
# FileRecorder — `ConsumerFileRecorder` and the file it writes

A block is a header with a data pointer behind it; the payload may follow the pointer or be anywhere else.  `pushData`
writes the header and then `dataSize` bytes from `&b->getData()->data`, that is from the place of the pointer itself.
What `fwrite` takes is held by the stream until it goes into the file, and may be lost when a later call fails.  The
file is the sequence of the blocks exactly if the bytes written are the payload all the same, and those of the blocks
pushed successfully get into the file (`recorded_iff`).
-/
namespace Flp
namespace Readout

/-- `sizeof(DataBlockHeaderBase)` -/
def headerBaseSize : Nat := 24

/-- The memory at a push: its bytes, and where it may be read. -/
structure Memory where
  bytes : ByteMemory
  readable : Nat → Bool

def Memory.canRead (m : Memory) (a n : Nat) : Bool := (List.range n).all fun k => m.readable (a + k)

/-- What becomes of a call of `fwrite`: all bytes of the item are taken, or the call fails after some; and how many of
the bytes that the stream then holds go into the file. -/
structure WriteCall where
  taken : Option Nat
  flushed : Nat

/-- A push of the block at an address, what becomes of its two calls of `fwrite`, and how many of the bytes that the
stream holds `fclose` gets into the file if the push fails. -/
structure Push where
  memory : Memory
  block : Nat
  headerWrite : WriteCall
  dataWrite : WriteCall
  closeFlushed : Nat

namespace Push

def headerSize (p : Push) : Nat := leNat (p.memory.bytes.load (p.block + 4) 4)
def dataSize (p : Push) : Nat := leNat (p.memory.bytes.load (p.block + 8) 4)

def data (p : Push) : Nat := leNat (p.memory.bytes.load (p.block + 24) 8)

/-- `&b->getData()->data`: the place of the pointer. -/
def dataMember (p : Push) : Nat := p.block + 24

end Push

/-- An open stream: the bytes it was given that are not in the file yet. -/
structure Stream where
  buffer : Bytes
  deriving DecidableEq, Repr

/-- `counterBytesTotal`, the stream `fp` if it is not `NULL`, and the file. -/
structure FileRecorder where
  counterBytesTotal : UInt64
  fp : Option Stream
  file : Bytes
  deriving DecidableEq, Repr

/-- `fwrite` of one item: the items written, the stream and the file.  Reading where it may not has no result; a call
that fails has not taken all bytes. -/
def fwrite (m : Memory) (ptr size : Nat) (call : WriteCall) (fp : Stream) (file : Bytes) :
    Option (Nat × Stream × Bytes) :=
  if m.canRead ptr size then
    let item := m.bytes.load ptr size
    let (n, taken) := match call.taken with
      | none   => (1, item)
      | some k => (0, item.take (min k (size - 1)))
    let buffer := fp.buffer ++ taken
    some (n, ⟨buffer.drop call.flushed⟩, file ++ buffer.take call.flushed)
  else none

/-- `fclose`, and how many bytes it still gets into the file: what else the stream holds is lost. -/
def fclose (fp : Stream) (flushed : Nat) (file : Bytes) : Bytes := file ++ fp.buffer.take flushed

namespace FileRecorder

def closeRecordingFile (s : FileRecorder) (flushed : Nat) : FileRecorder :=
  match s.fp with
  | none    => s
  | some fp => { s with fp := none, file := fclose fp flushed s.file }

def count (s : FileRecorder) (size : Nat) : FileRecorder :=
  { s with counterBytesTotal := s.counterBytesTotal + UInt64.ofNat size }

/-- What follows the header. -/
def pushPayload (p : Push) (s : FileRecorder) (fp : Stream) : Option (Int × FileRecorder) :=
  let ptr := p.dataMember
  let size := p.dataSize
  if size > 0 ∧ ptr ≠ 0 then
    (fwrite p.memory ptr size p.dataWrite fp s.file).map fun (n, fp, file) =>
      let s := { s with fp := some fp, file := file }
      if n ≠ 1 then (-1, s.closeRecordingFile p.closeFlushed) else (0, s.count size)
  else some (0, s.count size)

def pushData (s : FileRecorder) (p : Push) : Option (Int × FileRecorder) :=
  match s.fp with
  | some fp =>
    let size := p.headerSize
    (fwrite p.memory p.block size p.headerWrite fp s.file).bind fun (n, fp, file) =>
      let s := { s with fp := some fp, file := file }
      if n ≠ 1 then some (-1, s.closeRecordingFile p.closeFlushed) else pushPayload p (s.count size) fp
  | none    => some (0, s)

/-- The pushes in turn, and the destructor: what each push returns, and the recorder at the end. -/
def pushAll (atEnd : Nat) : FileRecorder → List Push → Option (List Int × FileRecorder)
  | s, []      => some ([], s.closeRecordingFile atEnd)
  | s, p :: ps => (s.pushData p).bind fun (code, s) => (pushAll atEnd s ps).map fun (codes, s) => (code :: codes, s)

/-- A recorder whose file was just created. -/
def start : FileRecorder := ⟨0, some ⟨[]⟩, []⟩

end FileRecorder

/-! ## What the file is to be -/

namespace Push

def header (p : Push) : Bytes := p.memory.bytes.load p.block headerBaseSize
def payload (p : Push) : Bytes := p.memory.bytes.load p.data p.dataSize
def record (p : Push) : Bytes := p.header ++ p.payload

/-- A header as the equipments fill it, in memory that may be read. -/
structure Ok (p : Push) : Prop where
  headerSize : p.headerSize = headerBaseSize
  readable : p.memory.canRead p.block headerBaseSize = true

end Push

/-- The file of pushes that returned these codes: the records of those that returned 0, in order, up to the first that
failed; of its record a part. -/
inductive FileHolds : List Push → List Int → Bytes → Prop where
  | nil : FileHolds [] [] []
  | recorded {p : Push} {ps : List Push} {codes : List Int} {rest : Bytes} (h : FileHolds ps codes rest) :
      FileHolds (p :: ps) (0 :: codes) (p.record ++ rest)
  | failed {p : Push} {ps : List Push} {codes : List Int} {file : Bytes} (hbegins : file <+: p.record)
      (hne : file ≠ p.record) : FileHolds (p :: ps) (-1 :: codes) file

/-- The blocks recorded: those pushed before the first failure. -/
def recordedBlocks (ps : List Push) (codes : List Int) : List (Bytes × Bytes) :=
  ((ps.zip codes).takeWhile fun r => r.2 = 0).map fun r => (r.1.header, r.1.payload)

/-- A header is read, its `dataSize` bytes are taken, and so on, at most `n` times. -/
def readUpTo : Nat → Bytes → List (Bytes × Bytes)
  | 0, _ => []
  | n + 1, file =>
    let header := file.take headerBaseSize
    let rest := file.drop headerBaseSize
    let dataSize := leNat ((header.drop 8).take 4)
    if headerBaseSize ≤ file.length ∧ dataSize ≤ rest.length then
      (header, rest.take dataSize) :: readUpTo n (rest.drop dataSize)
    else []

def readBlocks (file : Bytes) : List (Bytes × Bytes) := readUpTo (file.length + 1) file

/-- The pushes have a result, the file is in the end the sequence of the recorded blocks, and reading it gives them
back; `atEnd` is how many bytes the destructor still gets into the file. -/
def Recorded (ps : List Push) (atEnd : Nat) : Prop :=
  ∃ codes s, FileRecorder.start.pushAll atEnd ps = some (codes, s) ∧ FileHolds ps codes s.file ∧
    readBlocks s.file = recordedBlocks ps codes

/-- How many bytes of an item a call takes. -/
def WriteCall.takes (call : WriteCall) (size : Nat) : Nat :=
  match call.taken with
  | none   => size
  | some k => min k (size - 1)

/-- How many bytes the stream holds behind a call, when it held so many in front of it. -/
def WriteCall.holds (call : WriteCall) (size held : Nat) : Nat := held + call.takes size - call.flushed

/-- The bytes from the place of the pointer on, as many as a push writes. -/
def Push.atMember (p : Push) : Bytes := p.memory.bytes.load p.dataMember p.dataSize

/-- The stream holds so many bytes, all of blocks that were pushed successfully.  None of these is lost, neither when a
push fails and closes the file nor in the end; every block has its payload, if any, from the place of its pointer on,
where it may be read; and so has the block that fails, as far as it gets into the file. -/
def PayloadsKept (atEnd : Nat) : Nat → List Push → Prop
  | held, []      => held ≤ atEnd
  | held, p :: ps =>
    let held₁ := p.headerWrite.holds headerBaseSize held
    match p.headerWrite.taken with
    | some _ => held₁ - p.closeFlushed ≤ p.headerWrite.takes headerBaseSize
    | none   =>
      if p.dataSize = 0 then PayloadsKept atEnd held₁ ps
      else p.memory.canRead p.dataMember p.dataSize = true ∧
        let held₂ := p.dataWrite.holds p.dataSize held₁
        match p.dataWrite.taken with
        | none   => p.atMember = p.payload ∧ PayloadsKept atEnd held₂ ps
        | some _ =>
          let lost := held₂ - p.closeFlushed
          lost ≤ headerBaseSize + p.dataWrite.takes p.dataSize ∧
            p.atMember.take (p.dataWrite.takes p.dataSize - lost) =
              p.payload.take (p.dataWrite.takes p.dataSize - lost)

/-! ## A push -/

namespace Push

variable {p : Push}

@[simp] theorem length_header : p.header.length = headerBaseSize := ByteMemory.length_load
@[simp] theorem length_payload : p.payload.length = p.dataSize := ByteMemory.length_load
theorem length_record : p.record.length = headerBaseSize + p.dataSize := by simp [record]

theorem record_of_empty (h : p.dataSize = 0) : p.record = p.header := by
  rw [record, payload, h, ByteMemory.load_zero, List.append_nil]

theorem dataSize_header : leNat ((p.header.drop 8).take 4) = p.dataSize := by
  have hsplit : p.header = p.memory.bytes.load p.block 8 ++
      (p.memory.bytes.load (p.block + 8) 4 ++ p.memory.bytes.load (p.block + 8 + 4) 12) := by
    rw [header, ← ByteMemory.load_add, ← ByteMemory.load_add]
    rfl
  rw [hsplit, List.drop_left' ByteMemory.length_load, List.take_left' ByteMemory.length_load]
  rfl

end Push

namespace FileRecorder

variable {p : Push} {s s' : FileRecorder} {ps : List Push} {codes : List Int} {atEnd : Nat} {fp : Stream}

/-- All bytes that were taken: those in the file, and those the stream holds. -/
def given (s : FileRecorder) : Bytes := s.file ++ (s.fp.elim [] Stream.buffer)

theorem given_open (h : s.fp = some fp) : s.given = s.file ++ fp.buffer := by rw [given, h]; rfl

theorem given_closed (h : s.fp = none) : s.given = s.file := by rw [given, h]; exact List.append_nil _

/-- Closing the file loses the last bytes of those that were taken. -/
theorem closeRecordingFile_file (h : s.fp = some fp) (flushed : Nat) : (s.closeRecordingFile flushed).file =
    s.given.take (s.given.length - (fp.buffer.length - flushed)) := by
  rw [given_open h, closeRecordingFile, h]
  show s.file ++ fp.buffer.take flushed = _
  rw [List.length_append]
  rcases Nat.le_total fp.buffer.length flushed with hle | hle
  · rw [List.take_of_length_le hle, Nat.sub_eq_zero_of_le hle, Nat.sub_zero, List.take_of_length_le]
    rw [List.length_append]
  · rw [show s.file.length + fp.buffer.length - (fp.buffer.length - flushed) = s.file.length + flushed by omega,
      List.take_length_add_append]

theorem closeRecordingFile_fp (flushed : Nat) : (s.closeRecordingFile flushed).fp = none := by
  unfold closeRecordingFile
  split
  · assumption
  · rfl

theorem closeRecordingFile_closed (h : s.fp = none) (flushed : Nat) : s.closeRecordingFile flushed = s := by
  rw [closeRecordingFile, h]

/-- **A call of `fwrite`** moves bytes from the stream to the file, and loses none. -/
theorem fwrite_spec {m : Memory} {ptr size : Nat} (hread : m.canRead ptr size = true) (call : WriteCall) (fp : Stream)
    (file : Bytes) : ∃ fp' file', fwrite m ptr size call fp file =
        some ((match call.taken with | none => 1 | some _ => 0), fp', file') ∧
      file' ++ fp'.buffer = file ++ fp.buffer ++ (m.bytes.load ptr size).take (call.takes size) ∧
      fp'.buffer.length = call.holds size fp.buffer.length := by
  have hlength : (m.bytes.load ptr size).length = size := ByteMemory.length_load
  cases htaken : call.taken with
  | none =>
    refine ⟨⟨(fp.buffer ++ m.bytes.load ptr size).drop call.flushed⟩,
      file ++ (fp.buffer ++ m.bytes.load ptr size).take call.flushed, ?_, ?_, ?_⟩
    · simp only [fwrite, hread, htaken, if_true]
    · rw [WriteCall.takes, htaken, List.append_assoc, List.take_append_drop,
        List.take_of_length_le (Nat.le_of_eq hlength), List.append_assoc]
    · simp only [WriteCall.holds, WriteCall.takes, htaken, List.length_drop, List.length_append, hlength]
  | some k =>
    refine ⟨⟨(fp.buffer ++ (m.bytes.load ptr size).take (min k (size - 1))).drop call.flushed⟩,
      file ++ (fp.buffer ++ (m.bytes.load ptr size).take (min k (size - 1))).take call.flushed, ?_, ?_, ?_⟩
    · simp only [fwrite, hread, htaken, if_true]
    · rw [WriteCall.takes, htaken, List.append_assoc, List.take_append_drop, List.append_assoc]
    · simp only [WriteCall.holds, WriteCall.takes, htaken, List.length_drop, List.length_append, List.length_take,
        hlength]
      omega

theorem pushAll_closed (h : s.fp = none) : ∀ ps, s.pushAll atEnd ps = some (ps.map fun _ => 0, s)
  | []      => by rw [pushAll, closeRecordingFile_closed h]; rfl
  | p :: ps => by simp [pushAll, pushData, h, pushAll_closed h ps]

/-- A push that fails has closed the file: of the bytes taken, these among them, so many are lost. -/
structure Failed (s s' : FileRecorder) (written : Bytes) (lost : Nat) : Prop where
  fp : s'.fp = none
  lost_le : lost ≤ (s.given ++ written).length
  file : s'.file = (s.given ++ written).take ((s.given ++ written).length - lost)

/-- A push that returns 0, and leaves the stream with so many bytes. -/
structure Took (s s' : FileRecorder) (written : Bytes) (held : Nat) : Prop where
  fp : ∃ fp, s'.fp = some fp ∧ fp.buffer.length = held
  given : s'.given = s.given ++ written

theorem failed_of_close {written : Bytes} {c : UInt64} {fp' : Stream} {file : Bytes} (h : s.fp = some fp)
    (hgiven : file ++ fp'.buffer = s.file ++ fp.buffer ++ written) (flushed : Nat) :
    Failed s ((⟨c, some fp', file⟩ : FileRecorder).closeRecordingFile flushed) written
      (fp'.buffer.length - flushed) := by
  refine ⟨closeRecordingFile_fp flushed, ?_, ?_⟩
  · rw [given_open h, ← hgiven, List.length_append]
    omega
  · rw [closeRecordingFile_file rfl, given_open h, given_open rfl, hgiven]

theorem pushData_header_fails (hp : p.Ok) (h : s.fp = some fp) {k : Nat} (hwrite : p.headerWrite.taken = some k) :
    ∃ s', s.pushData p = some (-1, s') ∧ Failed s s' (p.header.take (p.headerWrite.takes headerBaseSize))
      (p.headerWrite.holds headerBaseSize fp.buffer.length - p.closeFlushed) := by
  obtain ⟨fp', file, hcall, hgiven, hheld⟩ := fwrite_spec hp.readable p.headerWrite fp s.file
  rw [hwrite] at hcall
  refine ⟨_, ?_, hheld ▸ failed_of_close (c := s.counterBytesTotal) h hgiven p.closeFlushed⟩
  rw [pushData, h]
  simp [hp.headerSize, hcall]

/-- Behind a header that was taken the payload decides. -/
theorem pushData_header (hp : p.Ok) (h : s.fp = some fp) (hwrite : p.headerWrite.taken = none) : ∃ s₁ fp₁,
    s₁.fp = some fp₁ ∧ fp₁.buffer.length = p.headerWrite.holds headerBaseSize fp.buffer.length ∧
    s₁.given = s.given ++ p.header ∧ s.pushData p = pushPayload p s₁ fp₁ := by
  obtain ⟨fp', file, hcall, hgiven, hheld⟩ := fwrite_spec hp.readable p.headerWrite fp s.file
  rw [hwrite] at hcall
  refine ⟨({ s with fp := some fp', file } : FileRecorder).count headerBaseSize, fp', rfl, hheld, ?_, ?_⟩
  · rw [given_open h, @given_open _ fp' rfl, List.append_assoc, ← List.append_assoc s.file]
    refine hgiven.trans ?_
    rw [WriteCall.takes, hwrite]
    exact congrArg _ (List.take_of_length_le (Nat.le_of_eq ByteMemory.length_load))
  · rw [pushData, h]
    simp [hp.headerSize, hcall]

theorem pushPayload_empty (h : p.dataSize = 0) : pushPayload p s fp = some (0, s.count 0) := by
  simp [pushPayload, h]

theorem pushPayload_unreadable (h : 0 < p.dataSize) (hread : p.memory.canRead p.dataMember p.dataSize = false) :
    pushPayload p s fp = none := by
  have hne : p.dataMember ≠ 0 := Nat.succ_ne_zero _
  simp [pushPayload, h, hne, fwrite, hread]

theorem pushPayload_written (h : 0 < p.dataSize) (hread : p.memory.canRead p.dataMember p.dataSize = true)
    (hfp : s.fp = some fp) (hwrite : p.dataWrite.taken = none) : ∃ s₁, pushPayload p s fp = some (0, s₁) ∧
      Took s s₁ p.atMember (p.dataWrite.holds p.dataSize fp.buffer.length) := by
  obtain ⟨fp', file, hcall, hgiven, hheld⟩ := fwrite_spec hread p.dataWrite fp s.file
  rw [hwrite] at hcall
  refine ⟨({ s with fp := some fp', file } : FileRecorder).count p.dataSize, ?_, ⟨fp', rfl, hheld⟩, ?_⟩
  · have hne : p.dataMember ≠ 0 := Nat.succ_ne_zero _
    simp [pushPayload, h, hne, hcall]
  · rw [given_open hfp, @given_open _ fp' rfl]
    refine hgiven.trans ?_
    rw [WriteCall.takes, hwrite]
    exact congrArg _ (List.take_of_length_le (Nat.le_of_eq ByteMemory.length_load))

theorem pushPayload_fails (h : 0 < p.dataSize) (hread : p.memory.canRead p.dataMember p.dataSize = true)
    (hfp : s.fp = some fp) {k : Nat} (hwrite : p.dataWrite.taken = some k) : ∃ s', pushPayload p s fp = some (-1, s') ∧
      Failed s s' (p.atMember.take (p.dataWrite.takes p.dataSize))
        (p.dataWrite.holds p.dataSize fp.buffer.length - p.closeFlushed) := by
  obtain ⟨fp', file, hcall, hgiven, hheld⟩ := fwrite_spec hread p.dataWrite fp s.file
  rw [hwrite] at hcall
  refine ⟨_, ?_, hheld ▸ failed_of_close (c := s.counterBytesTotal) hfp hgiven p.closeFlushed⟩
  have hne : p.dataMember ≠ 0 := Nat.succ_ne_zero _
  simp [pushPayload, h, hne, hcall]

theorem Failed.behind {s₁ : FileRecorder} {before written : Bytes} {lost : Nat} (h : Failed s₁ s' written lost)
    (hgiven : s₁.given = s.given ++ before) : Failed s s' (before ++ written) lost := by
  have hlost := h.lost_le
  have hfile := h.file
  rw [hgiven, List.append_assoc] at hlost hfile
  exact ⟨h.fp, hlost, hfile⟩

theorem Took.behind {s₁ : FileRecorder} {before written : Bytes} {held : Nat} (h : Took s₁ s' written held)
    (hgiven : s₁.given = s.given ++ before) : Took s s' (before ++ written) held :=
  ⟨h.fp, by rw [h.given, hgiven, List.append_assoc]⟩

theorem fwrite_given {m : Memory} {ptr size n : Nat} {call : WriteCall} {fp' : Stream} {file file' : Bytes}
    (h : fwrite m ptr size call fp file = some (n, fp', file')) :
    ∃ more, file' ++ fp'.buffer = file ++ fp.buffer ++ more := by
  cases hread : m.canRead ptr size with
  | true =>
    obtain ⟨fp₁, file₁, hcall, hgiven, -⟩ := fwrite_spec hread call fp file
    rw [hcall] at h
    obtain ⟨-, rfl, rfl⟩ := Prod.mk.injEq .. ▸ Option.some.inj h
    exact ⟨_, hgiven⟩
  | false =>
    rw [fwrite, hread] at h
    cases h

/-- A push adds to what was taken, or closes the file, which then holds a beginning of that. -/
theorem pushData_given {code : Int} (h : s.pushData p = some (code, s')) :
    (∃ more, s'.given = s.given ++ more) ∨ (s'.fp = none ∧ ∃ more, s'.file <+: s.given ++ more) := by
  have hclosed : ∀ {c : UInt64} {fp' : Stream} {file : Bytes} (flushed : Nat),
      (∃ more, file ++ fp'.buffer = s.given ++ more) →
      ((⟨c, some fp', file⟩ : FileRecorder).closeRecordingFile flushed).fp = none ∧
        ∃ more, ((⟨c, some fp', file⟩ : FileRecorder).closeRecordingFile flushed).file <+: s.given ++ more := by
    rintro c fp' file flushed ⟨more, hmore⟩
    refine ⟨closeRecordingFile_fp flushed, more, ?_⟩
    rw [closeRecordingFile_file rfl, given_open rfl, hmore]
    exact List.take_prefix _ _
  unfold pushData at h
  split at h
  · rename_i fp hfp
    obtain ⟨⟨n, fp₁, file₁⟩, hwrite, h⟩ := Option.bind_eq_some_iff.1 h
    obtain ⟨more, hmore⟩ := fwrite_given hwrite
    rw [← given_open hfp] at hmore
    dsimp only at h
    split at h
    · obtain rfl := congrArg Prod.snd (Option.some.inj h)
      exact .inr (hclosed p.closeFlushed ⟨more, hmore⟩)
    unfold pushPayload at h
    dsimp only at h
    split at h
    · obtain ⟨⟨n', fp₂, file₂⟩, hwrite', h⟩ := Option.map_eq_some_iff.1 h
      obtain ⟨more', hmore'⟩ := fwrite_given hwrite'
      have hboth : file₂ ++ fp₂.buffer = s.given ++ (more ++ more') := by
        rw [hmore', ← List.append_assoc, ← hmore]
        rfl
      dsimp only at h
      split at h
      · obtain rfl := congrArg Prod.snd h
        exact .inr (hclosed p.closeFlushed ⟨_, hboth⟩)
      · obtain rfl := congrArg Prod.snd h
        exact .inl ⟨more ++ more', hboth⟩
    · obtain rfl := congrArg Prod.snd (Option.some.inj h)
      exact .inl ⟨more, hmore⟩
  · obtain rfl := congrArg Prod.snd (Option.some.inj h)
    exact .inl ⟨[], (List.append_nil _).symm⟩

/-! ## Runs -/

theorem pushAll_cons {code : Int} (h : s.pushData p = some (code, s')) (ps : List Push) :
    s.pushAll atEnd (p :: ps) = (s'.pushAll atEnd ps).map fun (codes, s) => (code :: codes, s) := by
  rw [pushAll, h]
  rfl

theorem pushAll_cons_none (h : s.pushData p = none) (ps : List Push) : s.pushAll atEnd (p :: ps) = none := by
  rw [pushAll, h]
  rfl

/-- The file is in the end a beginning of what was taken. -/
theorem pushAll_given : ∀ {ps : List Push} {s s' : FileRecorder} {codes : List Int},
    s.pushAll atEnd ps = some (codes, s') → ∃ more, s'.file <+: s.given ++ more
  | [], s, s', codes, h => by
    obtain rfl := congrArg Prod.snd (Option.some.inj h)
    refine ⟨[], ?_⟩
    rw [List.append_nil]
    cases hfp : s.fp with
    | none =>
      have hfile : (s.closeRecordingFile atEnd).file = s.given := by
        rw [closeRecordingFile_closed hfp, given_closed hfp]
      exact hfile ▸ List.prefix_rfl
    | some fp =>
      rw [closeRecordingFile_file hfp]
      exact List.take_prefix _ _
  | p :: ps, s, s', codes, h => by
    obtain ⟨⟨code, s₁⟩, hpush, h⟩ := Option.bind_eq_some_iff.1 h
    obtain ⟨⟨codes', s₂⟩, hrest, h⟩ := Option.map_eq_some_iff.1 h
    obtain rfl := congrArg Prod.snd h
    rcases pushData_given hpush with ⟨more, hmore⟩ | ⟨hclosed, more, hfile⟩
    · obtain ⟨more', hmore'⟩ := pushAll_given hrest
      exact ⟨more ++ more', by rw [← List.append_assoc, ← hmore]; exact hmore'⟩
    · rw [pushAll_closed hclosed] at hrest
      obtain rfl := congrArg Prod.snd (Option.some.inj hrest)
      exact ⟨more, hfile⟩

/-- The file is in the end as it should be, behind what was taken before. -/
def Writes (s : FileRecorder) (ps : List Push) (atEnd : Nat) : Prop :=
  ∃ codes s' bytes, s.pushAll atEnd ps = some (codes, s') ∧ s'.file = s.given ++ bytes ∧ FileHolds ps codes bytes

/-- **A failing push** is the last one in the file: what is in the file of it is a part of its record, and all of those
before it is. -/
theorem writes_of_failed {written : Bytes} {lost : Nat} (h : s.pushData p = some (-1, s'))
    (hf : Failed s s' written lost) :
    Writes s (p :: ps) atEnd ↔ lost ≤ written.length ∧
      (written.take (written.length - lost) <+: p.record ∧ written.take (written.length - lost) ≠ p.record) := by
  have hall : s.pushAll atEnd (p :: ps) = some (-1 :: ps.map (fun _ => 0), s') := by
    rw [pushAll_cons h, pushAll_closed hf.fp]
    rfl
  have hlost := hf.lost_le
  have hfile := hf.file
  rw [List.length_append] at hlost hfile
  have hkept (hle : lost ≤ written.length) : s'.file = s.given ++ written.take (written.length - lost) := by
    rw [hfile, Nat.add_sub_assoc hle, List.take_length_add_append]
  constructor
  · rintro ⟨codes, s'', bytes, hpush, hbytes, hholds⟩
    rw [hall] at hpush
    obtain ⟨rfl, rfl⟩ := Prod.mk.inj (Option.some.inj hpush)
    have hle : lost ≤ written.length := by
      have hlength := congrArg List.length (hfile.symm.trans hbytes)
      rw [List.length_take, List.length_append, List.length_append] at hlength
      omega
    rw [hkept hle] at hbytes
    obtain rfl := List.append_cancel_left hbytes
    cases hholds with
    | failed hbegins hne => exact ⟨hle, hbegins, hne⟩
  · rintro ⟨hle, hbegins, hne⟩
    exact ⟨_, s', _, hall, hkept hle, .failed hbegins hne⟩

/-- **A push that returns 0** is right if what it wrote is the record, and the rest is right. -/
theorem writes_of_took {written : Bytes} {held : Nat} (h : s.pushData p = some (0, s')) (ht : Took s s' written held)
    (hlength : written.length = p.record.length) :
    Writes s (p :: ps) atEnd ↔ written = p.record ∧ Writes s' ps atEnd := by
  constructor
  · rintro ⟨codes, s'', bytes, hpush, hbytes, hholds⟩
    rw [pushAll_cons h] at hpush
    obtain ⟨⟨codes', s₂⟩, hrest, he⟩ := Option.map_eq_some_iff.1 hpush
    obtain ⟨rfl, rfl⟩ := Prod.mk.inj he
    obtain ⟨more, hmore⟩ := pushAll_given hrest
    cases hholds with
    | @recorded _ _ _ rest hrecords =>
      rw [hbytes, ht.given, List.append_assoc, List.prefix_append_right_inj] at hmore
      obtain ⟨behind, hbehind⟩ := hmore
      rw [List.append_assoc] at hbehind
      obtain ⟨rfl, -⟩ := List.append_inj hbehind hlength.symm
      exact ⟨rfl, codes', s₂, rest, hrest, by rw [hbytes, ht.given, List.append_assoc], hrecords⟩
  · rintro ⟨rfl, codes, s'', bytes, hrest, hbytes, hholds⟩
    refine ⟨0 :: codes, s'', p.record ++ bytes, by rw [pushAll_cons h, hrest]; rfl, ?_, .recorded hholds⟩
    rw [hbytes, ht.given, List.append_assoc]

/-- What a payload's failing write leaves of a record, the last bytes being lost. -/
theorem header_take_begins {w : Bytes} {n lost : Nat} (hw : w.length = p.dataSize) (hn : n < p.dataSize) :
    ((p.header ++ w.take n).take (headerBaseSize + n - lost) <+: p.record ∧
      (p.header ++ w.take n).take (headerBaseSize + n - lost) ≠ p.record) ↔
      w.take (n - lost) = p.payload.take (n - lost) := by
  rcases Nat.le_total lost n with hle | hle
  · have hkept : (p.header ++ w.take n).take (headerBaseSize + n - lost) = p.header ++ w.take (n - lost) := by
      rw [Nat.add_sub_assoc hle, ← @Push.length_header p, List.take_length_add_append, List.take_take,
        Nat.min_eq_left (Nat.sub_le n lost)]
    have hlength : (w.take (n - lost)).length = n - lost := by
      rw [List.length_take, hw]
      omega
    rw [hkept, Push.record, List.prefix_append_right_inj, List.prefix_iff_eq_take, hlength]
    refine ⟨fun h => h.1, fun h => ⟨h, fun he => ?_⟩⟩
    have hsame := congrArg List.length (List.append_cancel_left he)
    rw [hlength, Push.length_payload] at hsame
    omega
  · -- nothing of the payload is left
    rw [Nat.sub_eq_zero_of_le hle, List.take_zero, List.take_zero,
      List.take_append_of_le_length (by rw [Push.length_header]; omega)]
    refine iff_of_true ⟨(List.take_prefix _ _).trans (List.prefix_append _ _), fun he => ?_⟩ rfl
    have hlength := congrArg List.length he
    rw [List.length_take, Push.length_record, Push.length_header] at hlength
    omega

/-- At the end the file is right if the bytes that are still in the buffer go through. -/
theorem writes_nil (hfp : s.fp = some fp) : Writes s [] atEnd ↔ fp.buffer.length ≤ atEnd := by
  have hend : s.pushAll atEnd [] = some ([], s.closeRecordingFile atEnd) := rfl
  have hfile : (s.closeRecordingFile atEnd).file = s.file ++ fp.buffer.take atEnd := by
    rw [closeRecordingFile, hfp]
    rfl
  constructor
  · rintro ⟨codes, s', bytes, hpush, hbytes, hholds⟩
    obtain ⟨rfl, rfl⟩ := Prod.mk.inj (Option.some.inj (hend.symm.trans hpush))
    cases hholds
    have hlength := congrArg List.length (hfile.symm.trans hbytes)
    rw [given_open hfp, List.append_nil, List.length_append, List.length_append, List.length_take] at hlength
    omega
  · intro hle
    refine ⟨[], _, [], hend, ?_, .nil⟩
    rw [hfile, List.take_of_length_le hle, given_open hfp, List.append_nil]

/-- A header that fails leaves a part of itself, if none of the records before it is lost. -/
theorem writes_of_header_fails (hp : p.Ok) (hfp : s.fp = some fp) {k : Nat} (hheader : p.headerWrite.taken = some k) :
    Writes s (p :: ps) atEnd ↔ p.headerWrite.holds headerBaseSize fp.buffer.length - p.closeFlushed ≤
      p.headerWrite.takes headerBaseSize := by
  obtain ⟨s', hpush, hfailed⟩ := pushData_header_fails hp hfp hheader
  have htakes : p.headerWrite.takes headerBaseSize ≤ 23 := by
    rw [WriteCall.takes, hheader]
    exact Nat.min_le_right _ _
  have hlength : (p.header.take (p.headerWrite.takes headerBaseSize)).length = p.headerWrite.takes headerBaseSize := by
    rw [List.length_take, Push.length_header]
    exact Nat.min_eq_left (htakes.trans (by decide))
  rw [writes_of_failed hpush hfailed, hlength]
  refine and_iff_left ⟨?_, fun he => ?_⟩
  · exact (List.take_prefix _ _).trans ((List.take_prefix _ _).trans (List.prefix_append _ _))
  · have hsame := congrArg List.length he
    rw [List.length_take, hlength, Push.length_record] at hsame
    have hlarge : 24 ≤ headerBaseSize + p.dataSize := Nat.le_add_right 24 _
    omega

/-- A member that may not be read ends the process. -/
theorem not_writes_of_none (h : s.pushData p = none) : ¬ Writes s (p :: ps) atEnd := by
  rintro ⟨codes, s', bytes, hall, -⟩
  rw [pushAll_cons_none h] at hall
  cases hall

/-- A payload that fails leaves its header and a part of the bytes at the member, if none of the records before it is
lost. -/
theorem writes_of_payload_fails {s₁ : FileRecorder} {lost k : Nat} (hpush : s.pushData p = some (-1, s'))
    (hgiven : s₁.given = s.given ++ p.header) (hwrite : p.dataWrite.taken = some k) (hpos : 0 < p.dataSize)
    (hfailed : Failed s₁ s' (p.atMember.take (p.dataWrite.takes p.dataSize)) lost) :
    Writes s (p :: ps) atEnd ↔ lost ≤ headerBaseSize + p.dataWrite.takes p.dataSize ∧
      p.atMember.take (p.dataWrite.takes p.dataSize - lost) =
        p.payload.take (p.dataWrite.takes p.dataSize - lost) := by
  have hlength : p.atMember.length = p.dataSize := ByteMemory.length_load
  have htakes : p.dataWrite.takes p.dataSize < p.dataSize := by
    rw [WriteCall.takes, hwrite]
    show min k (p.dataSize - 1) < _
    omega
  have hwritten : (p.header ++ p.atMember.take (p.dataWrite.takes p.dataSize)).length =
      headerBaseSize + p.dataWrite.takes p.dataSize := by
    rw [List.length_append, Push.length_header, List.length_take, hlength, Nat.min_eq_left (Nat.le_of_lt htakes)]
  rw [writes_of_failed hpush (hfailed.behind hgiven), hwritten, header_take_begins hlength htakes]

/-- **The pushes write what they should exactly if the payloads are at the members and no byte of a block that was
pushed is lost.** -/
theorem writes_iff : ∀ {ps : List Push} {s : FileRecorder} {fp : Stream}, s.fp = some fp → (∀ p ∈ ps, p.Ok) →
    (Writes s ps atEnd ↔ PayloadsKept atEnd fp.buffer.length ps)
  | [], s, fp, hfp, _ => writes_nil hfp
  | p :: ps, s, fp, hfp, hok => by
    have hp := hok p List.mem_cons_self
    have ih := fun {s' : FileRecorder} {fp'} hfp' => @writes_iff ps s' fp' hfp' fun q hq =>
      hok q (List.mem_cons_of_mem _ hq)
    rw [PayloadsKept]
    cases hheader : p.headerWrite.taken with
    | some k => exact writes_of_header_fails hp hfp hheader
    | none =>
      obtain ⟨s₁, fp₁, hfp₁, hheld₁, hgiven₁, hpush⟩ := pushData_header hp hfp hheader
      rw [← hheld₁]
      by_cases hempty : p.dataSize = 0
      · rw [pushPayload_empty hempty] at hpush
        have htook : Took s (s₁.count 0) p.header fp₁.buffer.length := ⟨⟨fp₁, hfp₁, rfl⟩, hgiven₁⟩
        have hopen : (s₁.count 0).fp = some fp₁ := hfp₁
        rw [writes_of_took hpush htook (by rw [Push.record_of_empty hempty]), ih hopen]
        simp [Push.record_of_empty hempty, hempty]
      simp only [if_neg hempty]
      have hpos := Nat.pos_of_ne_zero hempty
      cases hread : p.memory.canRead p.dataMember p.dataSize with
      | false =>
        rw [pushPayload_unreadable hpos hread] at hpush
        exact iff_of_false (not_writes_of_none hpush) fun h => absurd h.1 (by decide)
      | true =>
        rw [and_iff_right rfl]
        cases hwrite : p.dataWrite.taken with
        | none =>
          obtain ⟨s₂, hpayload, htook⟩ := pushPayload_written hpos hread hfp₁ hwrite
          rw [hpayload] at hpush
          obtain ⟨fp₂, hfp₂, hheld₂⟩ := htook.fp
          have hlength : p.atMember.length = p.dataSize := ByteMemory.length_load
          rw [writes_of_took hpush (htook.behind hgiven₁) (by simp [Push.record, hlength]), ih hfp₂, hheld₂,
            Push.record, List.append_cancel_left_eq]
        | some k =>
          obtain ⟨s₂, hpayload, hfailed⟩ := pushPayload_fails hpos hread hfp₁ hwrite
          rw [hpayload] at hpush
          exact writes_of_payload_fails hpush hgiven₁ hwrite hpos hfailed

end FileRecorder

/-! ## Reading the file -/

section Reading

variable {p : Push} {ps : List Push} {codes : List Int} {file : Bytes}

theorem readUpTo_record (n : Nat) (rest : Bytes) :
    readUpTo (n + 1) (p.record ++ rest) = (p.header, p.payload) :: readUpTo n rest := by
  have hheader : (p.record ++ rest).take headerBaseSize = p.header := by
    rw [Push.record, List.append_assoc, List.take_left' Push.length_header]
  have hrest : (p.record ++ rest).drop headerBaseSize = p.payload ++ rest := by
    rw [Push.record, List.append_assoc, List.drop_left' Push.length_header]
  have hin : headerBaseSize ≤ (p.record ++ rest).length ∧ p.dataSize ≤ (p.payload ++ rest).length := by
    rw [List.length_append, List.length_append, Push.length_record, Push.length_payload]
    omega
  rw [readUpTo]
  simp only [hheader, hrest, Push.dataSize_header]
  rw [if_pos hin, List.take_left' Push.length_payload, List.drop_left' Push.length_payload]

theorem readUpTo_part (n : Nat) (hbegins : file <+: p.record) (hne : file ≠ p.record) : readUpTo n file = [] := by
  cases n with
  | zero => rfl
  | succ n =>
    have hlength : file.length < p.record.length :=
      Nat.lt_of_le_of_ne hbegins.length_le fun he => hne (hbegins.eq_of_length he)
    rw [Push.length_record] at hlength
    rw [readUpTo]
    refine if_neg fun ⟨hle, hdata⟩ => ?_
    obtain ⟨more, hmore⟩ := hbegins
    have htake : (file ++ more).take headerBaseSize = file.take headerBaseSize := List.take_append_of_le_length hle
    rw [hmore, Push.record, List.take_left' Push.length_header] at htake
    rw [← htake, Push.dataSize_header, List.length_drop] at hdata
    omega

/-- **Reading the file gives the recorded blocks back.** -/
theorem readUpTo_recorded : ∀ {ps : List Push} {codes : List Int} {file : Bytes} {n : Nat}, FileHolds ps codes file →
    file.length < n → readUpTo n file = recordedBlocks ps codes
  | _, _, _, 0, _, h => absurd h (Nat.not_lt_zero _)
  | _, _, _, n + 1, .nil, _ => by simp [readUpTo, recordedBlocks, headerBaseSize]
  | _, _, _, n + 1, @FileHolds.recorded p ps codes rest h, hlt => by
    rw [List.length_append, Push.length_record] at hlt
    unfold headerBaseSize at hlt
    rw [readUpTo_record, readUpTo_recorded h (by omega)]
    simp [recordedBlocks]
  | _, _, _, n + 1, .failed hbegins hne, _ => by
    rw [readUpTo_part _ hbegins hne]
    simp [recordedBlocks]

end Reading

/-- **The file is the sequence of the blocks exactly if the payloads are where the pointers are and no byte of a block
that was pushed is lost.** -/
theorem recorded_iff {ps : List Push} (hok : ∀ p ∈ ps, p.Ok) (atEnd : Nat) :
    Recorded ps atEnd ↔ PayloadsKept atEnd 0 ps := by
  have hwrites : FileRecorder.start.Writes ps atEnd ↔ PayloadsKept atEnd 0 ps :=
    @FileRecorder.writes_iff atEnd ps FileRecorder.start ⟨[]⟩ rfl hok
  rw [← hwrites]
  constructor
  · rintro ⟨codes, s, hpush, hholds, -⟩
    exact ⟨codes, s, s.file, hpush, rfl, hholds⟩
  · rintro ⟨codes, s, bytes, hpush, hfile, hholds⟩
    obtain rfl : s.file = bytes := hfile
    exact ⟨codes, s, hpush, hholds, readUpTo_recorded hholds (Nat.lt_succ_self _)⟩

/-! ## A block as the dummy equipment makes it -/

/-- A block of 2 bytes at 4096, its payload behind the pointer: the header, the pointer's bytes and the payload. -/
def contiguousBytes : ByteMemory := ByteMemory.store (fun _ => 0) 4096
  (leBytes 4 0xBB ++ leBytes 4 24 ++ leBytes 4 2 ++ leBytes 4 0 ++ leBytes 8 1 ++ leBytes 8 4128 ++ [7, 9])

/-- No call fails, and the stream writes through. -/
def contiguous : Push := ⟨⟨contiguousBytes, fun _ => true⟩, 4096, ⟨none, 24⟩, ⟨none, 2⟩, 0⟩

theorem contiguous_ok : ∀ p ∈ [contiguous], p.Ok := fun p hp => by
  rw [List.mem_singleton.1 hp]
  exact ⟨by decide, by decide⟩

theorem recorded_iff_contiguous : Recorded [contiguous] 0 ↔ PayloadsKept 0 0 [contiguous] :=
  recorded_iff contiguous_ok 0

/-- Of the contiguous block the first bytes of the pointer are recorded in place of the payload. -/
theorem contiguous_not_recorded : ¬ Recorded [contiguous] 0 := by
  rintro ⟨codes, s, hpush, hholds, -⟩
  have hwrites : FileRecorder.start.Writes [contiguous] 0 := ⟨codes, s, s.file, hpush, rfl, hholds⟩
  have hkept := (FileRecorder.writes_iff rfl contiguous_ok).1 hwrites
  exact absurd hkept.2.1 (by decide)

end Readout
end Flp
