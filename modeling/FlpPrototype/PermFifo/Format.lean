import FlpPrototype.PermFifo.Table
/-!
# Format — the FIFO file: a main header, then a sub header and its data for each record

Both headers are C structures of 24 bytes written as they lie in memory: a 32-bit tag, four bytes of padding that are
never read, two 64-bit numbers.
-/
namespace Flp
namespace Perm

def fifoFileTag : Nat := 1234

/-- `sizeof` of both header structures. -/
def headerSize : Nat := 24

/-- The most bytes one `read` or `write` of Linux moves. -/
def ioMax : Nat := 0x7ffff000

structure MainHeader where
  tag : Nat
  lastAckId : Nat
  currentId : Nat
  deriving DecidableEq, Repr

def defaultMainHeader : MainHeader := ⟨fifoFileTag, 0, 0⟩

structure SubHeader where
  tag : Nat
  size : Nat
  id : Nat
  deriving DecidableEq, Repr

/-- A 32-bit number, padding, two 64-bit numbers. -/
def headerBytes (a b c : Nat) : Bytes := leBytes 4 a ++ leBytes 4 0 ++ (leBytes 8 b ++ leBytes 8 c)

def headerFields (x : Bytes) : Nat × Nat × Nat :=
  (leNat (x.take 4), leNat ((x.drop 8).take 8), leNat ((x.drop 16).take 8))

def MainHeader.bytes (h : MainHeader) : Bytes := headerBytes h.tag h.lastAckId h.currentId

def MainHeader.parse (x : Bytes) : MainHeader :=
  ⟨(headerFields x).1, (headerFields x).2.1, (headerFields x).2.2⟩

def SubHeader.bytes (h : SubHeader) : Bytes := headerBytes h.tag h.size h.id

def SubHeader.parse (x : Bytes) : SubHeader :=
  ⟨(headerFields x).1, (headerFields x).2.1, (headerFields x).2.2⟩

@[simp] theorem length_headerBytes (a b c : Nat) : (headerBytes a b c).length = headerSize := by
  simp [headerBytes, headerSize]

@[simp] theorem MainHeader.length_bytes (h : MainHeader) : h.bytes.length = headerSize := length_headerBytes _ _ _

@[simp] theorem SubHeader.length_bytes (h : SubHeader) : h.bytes.length = headerSize := length_headerBytes _ _ _

theorem headerFields_headerBytes {a b c : Nat} (ha : a < 2 ^ 32) (hb : b < 2 ^ 64) (hc : c < 2 ^ 64) :
    headerFields (headerBytes a b c) = (a, b, c) := by
  have h4 : (headerBytes a b c).take 4 = leBytes 4 a := by
    unfold headerBytes
    rw [List.append_assoc, List.take_append_of_le_length (by simp), List.take_of_length_le (by simp)]
  have h8 : (headerBytes a b c).drop 8 = leBytes 8 b ++ leBytes 8 c := by
    unfold headerBytes
    exact List.drop_left' (by simp)
  have h16 : (headerBytes a b c).drop 16 = leBytes 8 c := by
    have : (headerBytes a b c).drop 16 = ((headerBytes a b c).drop 8).drop 8 := by rw [List.drop_drop]
    rw [this, h8]
    exact List.drop_left' (by simp)
  unfold headerFields
  rw [h4, h8, h16, List.take_append_of_le_length (by simp), List.take_of_length_le (by simp),
    List.take_of_length_le (by simp), leNat_leBytes_of_lt (by omega), leNat_leBytes_of_lt (by omega),
    leNat_leBytes_of_lt (by omega)]

theorem MainHeader.parse_bytes {h : MainHeader} (ht : h.tag = fifoFileTag) (ha : h.lastAckId < 2 ^ 64)
    (hc : h.currentId < 2 ^ 64) : MainHeader.parse h.bytes = h := by
  unfold MainHeader.parse MainHeader.bytes
  rw [headerFields_headerBytes (by rw [ht]; decide) ha hc]

theorem SubHeader.parse_bytes {h : SubHeader} (ht : h.tag = fifoFileTag) (hs : h.size < 2 ^ 64)
    (hi : h.id < 2 ^ 64) : SubHeader.parse h.bytes = h := by
  unfold SubHeader.parse SubHeader.bytes
  rw [headerFields_headerBytes (by rw [ht]; decide) hs hi]

/-! ## Records -/

/-- A stored item: its id and its payload. -/
structure Record where
  id : Nat
  data : Bytes
  deriving DecidableEq, Repr

namespace Record

def header (r : Record) : SubHeader := ⟨fifoFileTag, r.data.length, r.id⟩

def bytes (r : Record) : Bytes := r.header.bytes ++ r.data

/-- The item as it lies in a table. -/
def item (r : Record) : FifoItem := ⟨r.data.length, some r.data, r.id⟩

/-- A record the file can hold: ids start at 1, and one `read` or `write` moves the payload. -/
structure Ok (r : Record) : Prop where
  id_pos : 0 < r.id
  id_lt : r.id < 2 ^ 64
  size_le : r.data.length ≤ ioMax

@[simp] theorem item_data_ne_none (r : Record) : r.item.data ≠ none := by simp [item]

@[simp] theorem item_id (r : Record) : r.item.id = r.id := rfl

theorem ok_iff {r : Record} : r.Ok ↔ 0 < r.id ∧ r.id < 2 ^ 64 ∧ r.data.length ≤ ioMax :=
  ⟨fun h => ⟨h.1, h.2, h.3⟩, fun h => ⟨h.1, h.2.1, h.2.2⟩⟩

theorem Ok.parse {r : Record} (h : r.Ok) : SubHeader.parse r.header.bytes = r.header :=
  SubHeader.parse_bytes rfl (Nat.lt_of_le_of_lt h.size_le (by decide)) h.id_lt

theorem Ok.size_toSigned {r : Record} (h : r.Ok) : toSigned 64 r.data.length = r.data.length :=
  toSigned_of_lt (Nat.lt_of_le_of_lt h.size_le (by decide))

theorem Ok.size_mod {r : Record} (h : r.Ok) : r.data.length % 2 ^ 32 = r.data.length :=
  Nat.mod_eq_of_lt (Nat.lt_of_le_of_lt h.size_le (by decide))

end Record

/-- The records of a file, one behind the other. -/
def encode (rs : List Record) : Bytes := rs.flatMap Record.bytes

@[simp] theorem encode_nil : encode [] = [] := rfl

@[simp] theorem encode_cons (r : Record) (rs : List Record) : encode (r :: rs) = r.bytes ++ encode rs := rfl

@[simp] theorem encode_append (xs ys : List Record) : encode (xs ++ ys) = encode xs ++ encode ys :=
  List.flatMap_append

theorem length_encode_le (rs : List Record) : rs.length ≤ (encode rs).length := by
  induction rs with
  | nil => exact Nat.le_refl _
  | cons r rs ih =>
    simp only [encode_cons, Record.bytes, List.length_cons, List.length_append, SubHeader.length_bytes, headerSize]
    omega

/-- The complete records at the start of `b`, read with a bound on their number. -/
def decodeUpTo : Nat → Bytes → List Record
  | 0, _ => []
  | n + 1, b =>
    let hs := SubHeader.parse (b.take headerSize)
    let rest := b.drop headerSize
    if b.length < headerSize ∨ hs.tag ≠ fifoFileTag ∨ rest.length < hs.size then []
    else ⟨hs.id, rest.take hs.size⟩ :: decodeUpTo n (rest.drop hs.size)

/-- The complete records behind the main header of a file. -/
def decode (content : Bytes) : List Record := decodeUpTo content.length (content.drop headerSize)

theorem decodeUpTo_encode (tail : Bytes) : ∀ (rs : List Record) (n : Nat), (∀ r ∈ rs, r.Ok) →
    decodeUpTo (n + rs.length) (encode rs ++ tail) = rs ++ decodeUpTo n tail
  | [], n, _ => rfl
  | r :: rs, n, h => by
    have hr := h r List.mem_cons_self
    have ih := decodeUpTo_encode tail rs n (fun x hx => h x (List.mem_cons_of_mem _ hx))
    have hb : encode (r :: rs) ++ tail = r.header.bytes ++ (r.data ++ (encode rs ++ tail)) := by
      simp [encode_cons, Record.bytes]
    have htake : (encode (r :: rs) ++ tail).take headerSize = r.header.bytes := by
      rw [hb, List.take_append_of_le_length (by simp), List.take_of_length_le (by simp)]
    have hdrop : (encode (r :: rs) ++ tail).drop headerSize = r.data ++ (encode rs ++ tail) := by
      rw [hb, List.drop_left' (by simp)]
    have hsize : r.header.size = r.data.length := rfl
    rw [List.length_cons, ← Nat.add_assoc, decodeUpTo]
    simp only [htake, hdrop, hr.parse, hsize]
    rw [if_neg]
    · rw [List.take_left' rfl, List.drop_left' rfl, ih]
      rfl
    · rw [hb]
      simp [Record.header]

/-- Ids go up along a list of records. -/
def Increasing (rs : List Record) : Prop := rs.Pairwise (fun a b => a.id < b.id)

/-- The id of the last record, 0 when there is none. -/
def lastId (rs : List Record) : Nat := (rs.getLast?.map Record.id).getD 0

@[simp] theorem lastId_nil : lastId [] = 0 := rfl

@[simp] theorem lastId_append_singleton (rs : List Record) (r : Record) : lastId (rs ++ [r]) = r.id := by
  simp [lastId]

theorem lastId_append (xs ys : List Record) : lastId (xs ++ ys) = if ys = [] then lastId xs else lastId ys := by
  cases ys using List.reverseRecOn with
  | nil => simp
  | append_singleton ys y => simp [lastId]

theorem Increasing.id_le_lastId {rs : List Record} (h : Increasing rs) : ∀ r ∈ rs, r.id ≤ lastId rs := by
  cases rs using List.reverseRecOn with
  | nil => simp
  | append_singleton rs r =>
    intro x hx
    rw [lastId_append_singleton]
    rcases List.mem_append.1 hx with hx | hx
    · exact Nat.le_of_lt ((List.pairwise_append.1 h).2.2 x hx r (by simp))
    · rw [List.mem_singleton.1 hx]

theorem lastId_mem {rs : List Record} (h : rs ≠ []) : ∃ r ∈ rs, r.id = lastId rs := by
  cases rs using List.reverseRecOn with
  | nil => exact absurd rfl h
  | append_singleton rs r => exact ⟨r, by simp, by simp⟩

/-- **A FIFO file**: what its header says and the complete records behind it. -/
@[ext] structure FifoFile where
  lastAckId : Nat
  currentId : Nat
  records : List Record
  ack_lt : lastAckId < 2 ^ 64
  current_lt : currentId < 2 ^ 64
  ok : ∀ r ∈ records, r.Ok
  increasing : Increasing records

namespace FifoFile

def header (F : FifoFile) : MainHeader := ⟨fifoFileTag, F.lastAckId, F.currentId⟩

def bytes (F : FifoFile) : Bytes := F.header.bytes ++ encode F.records

/-- The records whose id is above the last acknowledged one. -/
def unacked (F : FifoFile) : List Record := F.records.filter (fun r => F.lastAckId < r.id)

/-- Its current id is one that was used: a file without a record and without an acknowledgement has used none. -/
def Counted (F : FifoFile) : Prop := F.records = [] → F.lastAckId = 0 → F.currentId = 0

def empty : FifoFile := ⟨0, 0, [], by decide, by decide, by simp, List.Pairwise.nil⟩

theorem empty_counted : empty.Counted := fun _ _ => rfl

theorem parse_header (F : FifoFile) : MainHeader.parse F.header.bytes = F.header :=
  MainHeader.parse_bytes rfl F.ack_lt F.current_lt

/-- **Every record of a file is found in it.** -/
theorem decode_bytes (F : FifoFile) : decode F.bytes = F.records := by
  have hlen : F.records.length ≤ F.bytes.length := by
    have := length_encode_le F.records
    simp only [bytes, List.length_append]
    omega
  have := decodeUpTo_encode [] F.records (F.bytes.length - F.records.length) F.ok
  rw [Nat.sub_add_cancel hlen, List.append_nil] at this
  have hnil : ∀ n, decodeUpTo n [] = [] := fun n => by cases n <;> simp [decodeUpTo, headerSize]
  rw [decode, show F.bytes.drop headerSize = encode F.records from List.drop_left' (by simp), this, hnil,
    List.append_nil]

end FifoFile

end Perm
end Flp
