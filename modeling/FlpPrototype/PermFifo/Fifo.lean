import FlpPrototype.PermFifo.Clean
/-!
# Fifo — the permanent FIFO of `permanentFIFO.c`

`struct permFIFO` and its operations, each run under its mutex.  An item may lie in the client table, in the disk table
and in the file at once; six counters decide where the next one is taken from.  The operations take what the system
decides in an `Env`: the time, the result of each allocation, the result of the seek before a save.  Reads and writes
of the file itself move all their bytes.  `none` is a run without a defined result: an index sum that overflows, an
access outside an object, a loop that does not end.
-/
namespace Flp
namespace Perm

open CircularTable

/-- What the system answers during one call. -/
structure Env where
  now : Int
  alloc : Nat → Bool
  seekEnd : Bool

/-- File input and output and allocation succeed. -/
def Env.Succeeds (e : Env) : Prop := (∀ i, e.alloc i = true) ∧ e.seekEnd = true

/-- `struct permFIFO`.  `file` is the content behind `fd`, `none` for -1; a NULL client table is one of size 0, which
no operation can fill or empty. -/
structure PermFifo where
  tableClient : CircularTable
  tableDisk : Option CircularTable
  file : Option Bytes
  currentId : Nat
  lastIdOut : Nat
  lastOutOffset : Nat
  nextIdInClientTable : Nat
  lastIdOnDisk : Nat
  ackOnDisk : Bool
  lastFlush : Int
  deriving DecidableEq, Repr

def nullTable : CircularTable := ⟨0, 0, 0, []⟩

/-- The slot of the last item: `index_first + n_items - 1`, then one subtraction. -/
def CircularTable.lastIndex (t : CircularTable) : Option Nat :=
  (intAdd t.indexFirst t.nItems).map fun s => Ring.wrap t.size (s - 1)

/-! ## Saving and loading -/

/-- The writes of one item: its sub header, then its data. -/
def itemChunks (item : FifoItem) : List Bytes :=
  match item.data with
  | none => []
  | some d => if item.size = 0 then [] else [SubHeader.bytes ⟨fifoFileTag, item.size, item.id⟩, d.take item.size]

/-- The loop of `ct_save`: items are read from the table until it is empty. -/
def ctSaveLoop : Nat → CircularTable → CircularTable × List Bytes
  | 0, t => (t, [])
  | n + 1, t =>
    match ctRead t with
    | none => (t, [])
    | some (item, t') => ((ctSaveLoop n t').1, itemChunks item ++ (ctSaveLoop n t').2)

/-- `ct_save` behind the end of the file: the table left and the writes, in order. -/
def ctSave (t : CircularTable) : CircularTable × List Bytes := ctSaveLoop t.nItems t

/-- What `ct_load` left behind: its return code, the descriptor and the table. -/
structure Loaded where
  code : Int
  fd : Fd
  table : CircularTable

/-- `ct_load`; `nRead` counts the allocations made. -/
def ctLoad (alloc : Nat → Bool) : Nat → Fd → CircularTable → Nat → Nat → Option Loaded
  | 0, _, _, _, _ => none
  | n + 1, fd, t, id, nRead =>
    if t.nItems = t.size then some ⟨-3, fd, t⟩
    else
      let r := fd.read headerSize
      if r.1.length = 0 then some ⟨0, r.2, t⟩
      else if r.1.length ≠ headerSize then some ⟨4, r.2, t⟩
      else
        let hs := SubHeader.parse r.1
        if hs.tag ≠ fifoFileTag then some ⟨5, r.2, t⟩
        else if id ≠ 0 ∧ hs.id < id then
          match r.2.lseekCur (toSigned 64 hs.size) with
          | none => some ⟨7, r.2, t⟩
          | some fd' => ctLoad alloc n fd' t id nRead
        else if alloc nRead = false then some ⟨-2, r.2, t⟩
        else
          let s := r.2.read hs.size
          if s.1.length % 2 ^ 32 ≠ hs.size then some ⟨6, s.2, t⟩
          else match ctWrite t ⟨hs.size, some s.1, hs.id⟩ with
            | none => none
            | some (.error, _) => some ⟨0, s.2, t⟩
            | some (.ok, t') => ctLoad alloc n s.2 t' id (nRead + 1)

def permFifoSaveTabledisk (e : Env) (f : PermFifo) : Option (Ret × PermFifo) :=
  match f.tableDisk with
  | none => none
  | some t =>
    if t.nItems = 0 then some (.ok, { f with lastFlush := e.now })
    else match t.lastIndex with
      | none => none
      | some index =>
        let lastIdOnDisk := (t.items.getD index emptyFifoItem).id
        match f.file with
        | none => some (.error, { f with lastIdOnDisk := lastIdOnDisk })
        | some c =>
          if e.seekEnd = false then some (.error, { f with lastIdOnDisk := lastIdOnDisk })
          else some (.ok, { f with
            lastIdOnDisk := lastIdOnDisk
            tableDisk := some (ctSave t).1
            file := some (c ++ (ctSave t).2.flatten)
            ackOnDisk := true
            lastFlush := e.now })

/-! ## `permFIFO_new` and `permFIFO_destroy` -/

/-- `permFIFO_new` on a path, the directory being `d` when it is called; `none` also for a NULL result. -/
def permFifoNew (e : Env) (d : Dir FileName) (size : Int) : Option PermFifo :=
  match permFifoFileClean d with
  | none => none
  | some (code, ops) =>
    if code ≠ 0 then none
    else match d.applyAll ops .current with
      | none => none
      | some c =>
        let r := (Fd.mk c 0).read headerSize
        let hm := MainHeader.parse r.1
        if r.1.length ≠ headerSize then none
        else if hm.tag ≠ fifoFileTag then none
        else some {
          tableClient := (ctNew size).getD nullTable
          tableDisk := ctNew size
          file := some c
          currentId := hm.currentId
          lastIdOut := 0
          lastOutOffset := headerSize
          nextIdInClientTable := 1
          lastIdOnDisk := hm.currentId
          ackOnDisk := decide (hm.currentId ≠ 0)
          lastFlush := e.now }

/-- `permFIFO_new` without a path. -/
def permFifoNewNoPath (e : Env) (size : Int) : PermFifo where
  tableClient := (ctNew size).getD nullTable
  tableDisk := none
  file := none
  currentId := 0
  lastIdOut := 0
  lastOutOffset := headerSize
  nextIdInClientTable := 1
  lastIdOnDisk := 0
  ackOnDisk := false
  lastFlush := e.now

/-- `permFIFO_destroy`: the content the file is left with. -/
def permFifoDestroy (e : Env) (f : PermFifo) : Option (Option Bytes) :=
  match f.file with
  | none => some none
  | some _ => (permFifoSaveTabledisk e f).map fun r => r.2.file

/-! ## `permFIFO_read` -/

/-- The state of the loop over the disk table. -/
structure Scan where
  client : CircularTable
  item : FifoItem
  k : Nat
  nextIdInClientTable : Nat
  nextid : Nat
  retcode : Int

/-- The loop over the disk table, `is` being the values of `i` left. -/
def diskScan (alloc : Nat → Bool) (t : CircularTable) : List Nat → Scan → Option Scan
  | [], s => some s
  | i :: is, s =>
    match t.index i with
    | none => none
    | some j =>
      let x := t.items.getD j emptyFifoItem
      if x.id < s.nextid then diskScan alloc t is s
      else if x.id ≠ s.nextid then some s
      else if alloc s.k = false then some { s with retcode := 1 }
      else if s.k = 0 then
        diskScan alloc t is { s with
          item := x, k := s.k + 1, nextIdInClientTable := x.id + 1, nextid := (s.nextid + 1) % 2 ^ 32 }
      else match ctWrite s.client x with
        | none => none
        | some (.error, _) => some s
        | some (.ok, c) =>
          diskScan alloc t is { s with
            client := c, k := s.k + 1, nextIdInClientTable := x.id + 1, nextid := (s.nextid + 1) % 2 ^ 32 }

/-- The part of `permFIFO_read` that loads the client table from the file. -/
def readFromFile (e : Env) (f : PermFifo) : Option (Int × FifoItem × PermFifo) :=
  match f.file with
  | none => some (-1, emptyFifoItem, f)
  | some c =>
    match ctLoad e.alloc (c.length + 1) ⟨c, f.lastOutOffset⟩ f.tableClient (f.lastIdOut + 1) 0 with
    | none => none
    | some l =>
      let offset := if l.code = 0 then l.fd.pos else f.lastOutOffset
      match ctRead l.table with
      | none => some (-1, emptyFifoItem, { f with tableClient := l.table, lastOutOffset := offset })
      | some (item, c') =>
        match l.table.lastIndex with
        | none => none
        | some i => some (0, item, { f with
            tableClient := c'
            lastOutOffset := offset
            nextIdInClientTable := (l.table.items.getD i emptyFifoItem).id + 1
            lastIdOut := item.id })

/-- The loop condition of the wait: nothing in the FIFO that was not read. -/
def mustWait (f : PermFifo) : Bool := decide (f.currentId ≤ f.lastIdOut)

/-- `permFIFO_read` with timeout 0: return code, item, FIFO. -/
def permFifoRead (e : Env) (f : PermFifo) : Option (Int × FifoItem × PermFifo) :=
  if mustWait f then some (1, emptyFifoItem, f)
  else match ctRead f.tableClient with
    | some (item, c) => some (0, item, { f with tableClient := c, lastIdOut := item.id })
    | none =>
      match f.tableDisk with
      | none => some (1, emptyFifoItem, f)
      | some t =>
        match diskScan e.alloc t (List.range t.nItems)
            ⟨f.tableClient, emptyFifoItem, 0, f.nextIdInClientTable, (f.lastIdOut + 1) % 2 ^ 32, 0⟩ with
        | none => none
        | some s =>
          let f' := { f with tableClient := s.client, nextIdInClientTable := s.nextIdInClientTable }
          if s.k = 0 ∧ s.retcode = 0 then readFromFile e f'
          else if s.retcode = 0 then some (0, s.item, { f' with lastIdOut := s.item.id })
          else some (s.retcode, s.item, f')

/-! ## `permFIFO_write` -/

/-- A C string: the bytes before the first NUL; reading on without one is outside the object. -/
def cString (b : Bytes) : Option Bytes := if 0 ∈ b then some (b.takeWhile (fun c => decide (c ≠ 0))) else none

/-- The bytes of the item `permFIFO_write` makes from its arguments: a copy of the string for size 0. -/
def payload (data : Bytes) (size : Nat) : Option Bytes :=
  if size = 0 then (cString data).map (fun s => s ++ [0])
  else if size ≤ data.length then some (data.take size) else none

/-- The part of `permFIFO_write` that tries the client table: whether the item was put there. -/
def insertClient (e : Env) (f : PermFifo) (item : FifoItem) : Option (Bool × PermFifo) :=
  if item.id ≠ f.nextIdInClientTable then some (false, f)
  else match ctWrite f.tableClient item with
    | none => none
    | some (.error, _) =>
      (permFifoSaveTabledisk e { f with nextIdInClientTable := 0 }).map fun r => (false, r.2)
    | some (.ok, c) =>
      some (true, { f with tableClient := c, nextIdInClientTable := f.nextIdInClientTable + 1 })

/-- The part of `permFIFO_write` that puts the item in the disk table, after a save when it is full. -/
def insertDisk (e : Env) (f : PermFifo) (doCopy : Bool) (item : FifoItem) : Option (Ret × PermFifo) :=
  match f.tableDisk with
  | none => none
  | some t =>
    match ctWrite t item with
    | none => none
    | some (.ok, t') => some (.ok, { f with tableDisk := some t' })
    | some (.error, _) =>
      match permFifoSaveTabledisk e f with
      | none => none
      | some (_, f') =>
        match f'.tableDisk with
        | none => none
        | some t =>
          match ctWrite t item with
          | none => none
          | some (.ok, t') => some (.ok, { f' with tableDisk := some t' })
          | some (.error, t') =>
            if doCopy then
              some (.error, { f' with
                tableDisk := some t'
                tableClient := { f'.tableClient with nItems := f'.tableClient.nItems - 1 } })
            else some (.error, { f' with tableDisk := some t' })

/-- The critical section of `permFIFO_write`, for an item of the given bytes. -/
def writeItem (e : Env) (f : PermFifo) (b : Bytes) : Option (Ret × PermFifo) :=
  let item := Record.item ⟨f.currentId + 1, b⟩
  let f := { f with currentId := f.currentId + 1 }
  match f.tableDisk with
  | none =>
    match ctWrite f.tableClient item with
    | none => none
    | some (r, c) => some (r, { f with tableClient := c })
  | some _ =>
    match insertClient e f item with
    | none => none
    | some (doCopy, f') =>
      insertDisk e f' doCopy (if doCopy && !e.alloc 1 then { item with data := none } else item)

/-- `permFIFO_write`; `data` is `none` for NULL. -/
def permFifoWrite (e : Env) (f : PermFifo) (data : Option Bytes) (size : Int) : Option (Ret × PermFifo) :=
  match data with
  | none => some (.error, f)
  | some b =>
    if size < 0 then some (.error, f)
    else if size = 0 ∧ e.alloc 0 = false then some (.error, f)
    else match payload b size.toNat with
      | none => none
      | some p => writeItem e f p

/-! ## `permFIFO_ack` and `permFIFO_flush` -/

/-- The loop of `permFIFO_ack`: acknowledged items leave the disk table. -/
def ackLoop : Nat → CircularTable → Nat → CircularTable
  | 0, t, _ => t
  | n + 1, t, id =>
    if t.nItems = 0 then t
    else if id < (t.items.getD t.indexFirst emptyFifoItem).id then t
    else ackLoop n { t with
      items := t.items.set t.indexFirst emptyFifoItem
      indexFirst := Ring.wrap t.size (t.indexFirst + 1)
      nItems := t.nItems - 1 } id

/-- The part of `permFIFO_ack` that works on the file: drop it when everything saved is acknowledged, then write the
header. -/
def ackFile (f : PermFifo) (c : Bytes) (id : Nat) : PermFifo :=
  let f := if f.lastIdOnDisk ≤ id then { f with lastOutOffset := headerSize, ackOnDisk := false } else f
  let c := if f.lastIdOnDisk ≤ id then c.take headerSize else c
  { f with file := some (Fd.overwrite c 0 (MainHeader.bytes ⟨fifoFileTag, id, f.lastIdOnDisk⟩)) }

def permFifoAck (f : PermFifo) (id : Nat) : Int × PermFifo :=
  match f.tableDisk with
  | none => (-1, f)
  | some t =>
    let f := { f with tableDisk := some (ackLoop t.nItems t id) }
    if f.ackOnDisk = false then (0, f)
    else match f.file with
      | none => (1, f)
      | some c => (0, ackFile f c id)

def permFifoFlush (e : Env) (f : PermFifo) (timeout : Int) : Option (Ret × PermFifo) :=
  if f.lastFlush + timeout ≤ e.now then permFifoSaveTabledisk e f else some (.ok, f)

end Perm
end Flp
