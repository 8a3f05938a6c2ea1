import FlpPrototype.Lib.CString
import FlpPrototype.Lib.Decimal
/-!
# Files — what the transport sends, and the queues it keeps them in

A file is a succession of blobs under an id of two numbers (`transport_files.h`).  Files wait in bounded queues of
pointers (`struct FIFO` of `utility.c`), here with the list of their items for the array; `handle` is the pointer.
-/
namespace Flp
namespace Transport

/-! ## Ids -/

structure TrFileId where
  source : Option CString
  majId : Int
  minId : Int
  sender : Nat
  deriving DecidableEq

/-- `TR_file_id_compare`: whether the first id is the greater one. -/
def trFileIdCompare (f1 f2 : TrFileId) : Bool :=
  if f1.majId < f2.majId then false
  else if f1.majId > f2.majId then true
  else if f1.minId ≤ f2.minId then false
  else true

theorem trFileIdCompare_iff {f1 f2 : TrFileId} : trFileIdCompare f1 f2 = true ↔
    f2.majId < f1.majId ∨ f2.majId = f1.majId ∧ f2.minId < f1.minId := by
  unfold trFileIdCompare
  split_ifs
  · simp only [false_iff]
    omega
  · simp only [true_iff]
    omega
  · simp only [false_iff]
    omega
  · simp only [true_iff]
    omega

theorem trFileIdCompare_eq_false {f1 f2 : TrFileId} : trFileIdCompare f1 f2 = false ↔
    f1.majId < f2.majId ∨ f1.majId = f2.majId ∧ f1.minId ≤ f2.minId := by
  rw [← Bool.not_eq_true, trFileIdCompare_iff]
  omega

@[simp] theorem trFileIdCompare_self (f : TrFileId) : trFileIdCompare f f = false :=
  trFileIdCompare_eq_false.2 (by omega)

theorem trFileIdCompare_false_trans {f1 f2 f3 : TrFileId} (h : trFileIdCompare f1 f2 = false)
    (h' : trFileIdCompare f2 f3 = false) : trFileIdCompare f1 f3 = false := by
  rw [trFileIdCompare_eq_false] at *
  omega

theorem trFileIdCompare_asymm {f1 f2 : TrFileId} (h : trFileIdCompare f1 f2 = true) :
    trFileIdCompare f2 f1 = false := by
  rw [trFileIdCompare_iff] at h
  rw [trFileIdCompare_eq_false]
  omega

/-! ## Files -/

/-- `TR_file`, of blobs in memory. -/
structure TrFile where
  handle : Nat
  id : TrFileId
  blobs : List Bytes
  size : Int
  deriving DecidableEq

/-- What a file is sent under when it has no source. -/
def unknown : CString := ⟨ascii "Unknown".toList, by decide⟩

/-- The size of the buffer a header line is printed into. -/
def TR_BUFFER_SIZE : Nat := 2500

/-- The header line of a file, as `snprintf` leaves it in the buffer. -/
def TrFile.header (f : TrFile) : Bytes :=
  (ascii "File ".toList ++ (f.id.source.getD unknown).1 ++ ascii [' '] ++ printInt f.id.minId ++ ascii [' '] ++
    printInt f.id.majId ++ ascii [' '] ++ printInt f.size ++ [newline]).take (TR_BUFFER_SIZE - 1)

/-- The line behind the data of a file. -/
def trailer : Bytes := ascii "END\n".toList

/-- A file as it is sent. -/
def TrFile.encode (f : TrFile) : Bytes := f.header ++ (f.blobs.flatten ++ trailer)

/-! ## Queues -/

/-- `struct FIFO`: at most `size` items, oldest first. -/
structure Fifo where
  size : Nat
  items : List TrFile

namespace Fifo

def new (size : Nat) : Fifo := ⟨size, []⟩

def isFull (q : Fifo) : Bool := decide (q.size ≤ q.items.length)

/-- `FIFO_write`; nothing is written to a full queue. -/
def write (q : Fifo) (f : TrFile) : Fifo := if q.isFull then q else { q with items := q.items ++ [f] }

/-- `FIFO_read`. -/
def read (q : Fifo) : Option TrFile × Fifo := (q.items.head?, { q with items := q.items.tail })

/-- `FIFO_read_index`: the item at an index, oldest first. -/
def readIndex (q : Fifo) (index : Int) : Option TrFile := if index < 0 then none else q.items[index.toNat]?

end Fifo

end Transport
end Flp
