import FlpPrototype.PermFifo.Format
/-!
# Clean — `permFIFO_file_clean`

Cleaning keeps the unacknowledged records of the FIFO file and numbers them from 1.  It is a sequence of operations on
three file names, computed here from the directory it starts in, so that a stop after any of them is a prefix of the
list.  Its loops read headers until the end of the file; a loop that does not come to an end, which a seek back over a
size of `2 ^ 63` or more allows, has no result (`none`).
-/
namespace Flp
namespace Perm

/-- The names `permFIFO_getFileName` makes: `<path>.fifo`, `<path>.fifo.old`, `<path>.fifo.new`. -/
inductive FileName where
  | current
  | old
  | new
  deriving DecidableEq, Repr

/-- Look for the last id in the file; the error codes are the ones the source returns. -/
def lastIdLoop : Nat → Fd → Nat → Option (Except Nat Nat)
  | 0, _, _ => none
  | n + 1, fd, currentId =>
    let r := fd.read headerSize
    if r.1.length = 0 then some (.ok currentId)
    else if r.1.length ≠ headerSize then some (.error 31)
    else
      let hs := SubHeader.parse r.1
      if hs.tag ≠ fifoFileTag then some (.error 32)
      else match r.2.lseekCur (toSigned 64 hs.size) with
        | none => some (.error 34)
        | some fd' => lastIdLoop n fd' hs.id

/-- Skip the acknowledged records: the descriptor in front of the first one that is not, or at the end. -/
def skipAckedLoop : Nat → Fd → Nat → Option (Except Nat Fd)
  | 0, _, _ => none
  | n + 1, fd, lastAckId =>
    let r := fd.read headerSize
    if r.1.length = 0 then some (.ok r.2)
    else if r.1.length ≠ headerSize then some (.error 50)
    else
      let hs := SubHeader.parse r.1
      if hs.tag ≠ fifoFileTag then some (.error 51)
      else if lastAckId < hs.id then
        match r.2.lseekCur (-(headerSize : Int)) with
        | none => some (.error 52)
        | some fd' => some (.ok fd')
      else match r.2.lseekCur (toSigned 64 hs.size) with
        | none => some (.error 53)
        | some fd' => skipAckedLoop n fd' lastAckId

/-- What the copy from file to file wrote: the return code so far, the last id given, the chunks in order. -/
structure Copied where
  code : Nat
  currentId : Nat
  chunks : List Bytes

/-- Copy the records left, with new ids. -/
def copyLoop : Nat → Fd → Nat → Option Copied
  | 0, _, _ => none
  | n + 1, fd, currentId =>
    let r := fd.read headerSize
    if r.1.length = 0 then some ⟨0, currentId, []⟩
    else if r.1.length ≠ headerSize then some ⟨10, currentId, []⟩
    else
      let hs := SubHeader.parse r.1
      if hs.tag ≠ fifoFileTag then some ⟨11, currentId, []⟩
      -- `buffer_size` is an unsigned int: the buffer would be too small for the read
      else if 2 ^ 32 ≤ hs.size then none
      else
        let s := r.2.read hs.size
        if s.1.length % 2 ^ 32 ≠ hs.size then some ⟨12, currentId, []⟩
        else (copyLoop n s.2 (currentId + 1)).map fun c =>
          { c with chunks := SubHeader.bytes { hs with id := currentId + 1 } :: s.1 :: c.chunks }

/-- No acknowledged data in the file: at most the main header is written again, with the last id. -/
def cleanNothingAcked (n : Nat) (fd : Fd) (hm : MainHeader) : Option (Nat × List (FsOp FileName)) :=
  match lastIdLoop n fd 0 with
  | none => none
  | some (.error e) => some (e, [])
  | some (.ok cur) =>
    some (0, if cur = 0 then [] else [.write .current 0 (MainHeader.bytes { hm with currentId := cur })])

/-- Create a clean copy of the unacknowledged data and rename it into place. -/
def cleanAcked (n : Nat) (fd : Fd) (hm : MainHeader) : Option (Nat × List (FsOp FileName)) :=
  match skipAckedLoop n fd hm.lastAckId with
  | none => none
  | some (.error e) => some (e, [])
  | some (.ok fd') =>
    (copyLoop n fd' 0).map fun cp =>
      let ops := .creat .new :: (defaultMainHeader.bytes :: cp.chunks).map (.append .new)
      if cp.code ≠ 0 then (cp.code, ops)
      else (0, ops
        ++ (if cp.currentId = 0 then []
            else [.write .new 0 (MainHeader.bytes { defaultMainHeader with currentId := cp.currentId })])
        ++ [.rename .current .old, .rename .new .current, .unlink .old])

/-- The branch for a file that exists, from its content: return code and operations. -/
def cleanFile (c : Bytes) : Option (Nat × List (FsOp FileName)) :=
  let r := (Fd.mk c 0).read headerSize
  if r.1.length ≠ headerSize then some (5, [])
  else
    let hm := MainHeader.parse r.1
    if hm.tag ≠ fifoFileTag then some (6, [])
    else if hm.lastAckId = 0 then cleanNothingAcked (c.length + 1) r.2 hm
    else cleanAcked (c.length + 1) r.2 hm

/-- One turn of the outer loop, then the next one after a rename. -/
def cleanLoop : Nat → Dir FileName → Option (Nat × List (FsOp FileName))
  | 0, _ => none
  | n + 1, d =>
    match d .current with
    | none =>
      match d .old with
      | none => some (0, [.creat .current, .append .current defaultMainHeader.bytes])
      | some _ => (cleanLoop n (d.apply (.rename .old .current))).map fun r => (r.1, .rename .old .current :: r.2)
    | some c => (cleanFile c).map fun r => (r.1, .unlink .old :: .unlink .new :: r.2)

/-- `permFIFO_file_clean`: the return code and the operations on the directory, in order. -/
def permFifoFileClean (d : Dir FileName) : Option (Nat × List (FsOp FileName)) := cleanLoop 2 d

/-! ## The loops over complete records -/

theorem read_header_nil (before : Bytes) : (Fd.between before []).read headerSize = ([], Fd.between before []) := by
  have := Fd.read_between_short (b := []) (n := headerSize) before (Nat.zero_le _)
  simpa using this

theorem read_record_header (r : Record) (before after : Bytes) :
    (Fd.between before (r.bytes ++ after)).read headerSize =
      (r.header.bytes, Fd.between (before ++ r.header.bytes) (r.data ++ after)) := by
  rw [Record.bytes, List.append_assoc]
  exact Fd.read_between before _ (by simp)

theorem seek_record_data (r : Record) (before after : Bytes) (h : r.Ok) :
    (Fd.between (before ++ r.header.bytes) (r.data ++ after)).lseekCur (toSigned 64 r.header.size) =
      some (Fd.between (before ++ r.bytes) after) := by
  have hs : toSigned 64 r.header.size = r.data.length := h.size_toSigned
  rw [hs, Fd.lseekCur_forward, Record.bytes, List.append_assoc]

theorem lastIdLoop_nil (n : Nat) (before : Bytes) (cur : Nat) :
    lastIdLoop (n + 1) (Fd.between before []) cur = some (.ok cur) := by
  simp [lastIdLoop, read_header_nil]

/-- The last id the loop has seen behind `rs`. -/
def seenId (cur : Nat) (rs : List Record) : Nat := if rs = [] then cur else lastId rs

theorem seenId_cons (cur : Nat) (r : Record) (rs : List Record) : seenId cur (r :: rs) = seenId r.id rs := by
  cases rs with
  | nil => rfl
  | cons x xs => simp [seenId, lastId]

theorem lastIdLoop_records : ∀ (rs : List Record) (n : Nat) (before after : Bytes) (cur : Nat), (∀ r ∈ rs, r.Ok) →
    lastIdLoop (n + rs.length) (Fd.between before (encode rs ++ after)) cur =
      lastIdLoop n (Fd.between (before ++ encode rs) after) (seenId cur rs)
  | [], n, before, after, cur, _ => by simp [seenId]
  | r :: rs, n, before, after, cur, h => by
    have hr := h r List.mem_cons_self
    have ih := lastIdLoop_records rs n (before ++ r.bytes) after r.id (fun x hx => h x (List.mem_cons_of_mem _ hx))
    rw [List.length_cons, ← Nat.add_assoc, lastIdLoop, encode_cons, List.append_assoc, read_record_header]
    simp only [SubHeader.length_bytes, hr.parse, seek_record_data r before _ hr]
    rw [seenId_cons, ← List.append_assoc before, ← ih]
    rfl

theorem skipAckedLoop_nil (n : Nat) (before : Bytes) (lastAckId : Nat) :
    skipAckedLoop (n + 1) (Fd.between before []) lastAckId = some (.ok (Fd.between before [])) := by
  simp [skipAckedLoop, read_header_nil]

theorem skipAckedLoop_acked : ∀ (rs : List Record) (n : Nat) (before after : Bytes) (lastAckId : Nat),
    (∀ r ∈ rs, r.Ok ∧ r.id ≤ lastAckId) →
    skipAckedLoop (n + rs.length) (Fd.between before (encode rs ++ after)) lastAckId =
      skipAckedLoop n (Fd.between (before ++ encode rs) after) lastAckId
  | [], n, before, after, _, _ => by simp
  | r :: rs, n, before, after, lastAckId, h => by
    obtain ⟨hr, hid⟩ := h r List.mem_cons_self
    have ih := skipAckedLoop_acked rs n (before ++ r.bytes) after lastAckId
      (fun x hx => h x (List.mem_cons_of_mem _ hx))
    have hlt : ¬ lastAckId < r.header.id := Nat.not_lt.2 hid
    rw [List.length_cons, ← Nat.add_assoc, skipAckedLoop, encode_cons, List.append_assoc, read_record_header]
    simp only [SubHeader.length_bytes, hr.parse, seek_record_data r before _ hr, if_neg hlt]
    rw [← List.append_assoc before, ← ih]
    rfl

/-- The header of the first unacknowledged record stops the search, in front of it. -/
theorem skipAckedLoop_header (n : Nat) (r : Record) (before after : Bytes) (lastAckId : Nat) (hr : r.Ok)
    (h : lastAckId < r.id) :
    skipAckedLoop (n + 1) (Fd.between before (r.header.bytes ++ after)) lastAckId =
      some (.ok (Fd.between before (r.header.bytes ++ after))) := by
  have hlt : lastAckId < r.header.id := h
  have hb := Fd.lseekCur_back before r.header.bytes after
  rw [SubHeader.length_bytes] at hb
  rw [skipAckedLoop, Fd.read_between (n := headerSize) before after (by simp)]
  simp only [SubHeader.length_bytes, hr.parse, if_pos hlt, hb]
  rfl

/-- The records numbered from `n + 1` on. -/
def renumber : Nat → List Record → List Record
  | _, []      => []
  | n, r :: rs => ⟨n + 1, r.data⟩ :: renumber (n + 1) rs

/-- The writes that store records one by one. -/
def recordChunks (rs : List Record) : List Bytes := rs.flatMap (fun r => [r.header.bytes, r.data])

theorem flatten_recordChunks : ∀ (rs : List Record), (recordChunks rs).flatten = encode rs
  | [] => rfl
  | r :: rs => by
    have ih := flatten_recordChunks rs
    simp only [recordChunks, List.flatMap_cons, List.flatten_append] at ih ⊢
    rw [ih]
    simp [Record.bytes]

theorem copyLoop_records : ∀ (rs : List Record) (n : Nat) (before : Bytes) (cur : Nat), (∀ r ∈ rs, r.Ok) →
    copyLoop (n + rs.length + 1) (Fd.between before (encode rs)) cur =
      some ⟨0, cur + rs.length, recordChunks (renumber cur rs)⟩
  | [], n, before, cur, _ => by simp [copyLoop, read_header_nil, renumber, recordChunks]
  | r :: rs, n, before, cur, h => by
    have hr := h r List.mem_cons_self
    have ih := copyLoop_records rs n (before ++ r.bytes) (cur + 1) (fun x hx => h x (List.mem_cons_of_mem _ hx))
    have hread : (Fd.between (before ++ r.header.bytes) (r.data ++ encode rs)).read r.header.size =
        (r.data, Fd.between (before ++ r.bytes) (encode rs)) := by
      rw [Fd.read_between (n := r.header.size) _ _ rfl, Record.bytes, List.append_assoc]
    have hsize : ¬ 2 ^ 32 ≤ r.header.size := Nat.not_le.2 (Nat.lt_of_le_of_lt hr.size_le (by decide))
    have hmod : r.data.length % 2 ^ 32 = r.header.size := hr.size_mod
    rw [List.length_cons, ← Nat.add_assoc, copyLoop, encode_cons, read_record_header]
    simp only [SubHeader.length_bytes, hr.parse, hread, if_neg hsize, hmod, ne_eq, not_true_eq_false, if_false]
    rw [if_neg (by decide), if_neg (by simp [Record.header]), ih]
    simp only [Option.map_some, renumber, recordChunks, List.flatMap_cons, Nat.add_assoc, Nat.add_comm 1]
    rfl

/-! ## What cleaning does to a well-formed file -/

@[simp] theorem map_data_renumber : ∀ (n : Nat) (rs : List Record), (renumber n rs).map Record.data = rs.map Record.data
  | _, []      => rfl
  | n, r :: rs => by simp [renumber, map_data_renumber (n + 1) rs]

@[simp] theorem length_renumber (n : Nat) (rs : List Record) : (renumber n rs).length = rs.length := by
  rw [← List.length_map (f := Record.data), map_data_renumber, List.length_map]

theorem renumber_id : ∀ (n : Nat) (rs : List Record), ∀ r ∈ renumber n rs,
    n < r.id ∧ r.id ≤ n + rs.length ∧ ∃ x ∈ rs, r.data = x.data
  | _, [], r, h => by cases h
  | n, x :: rs, r, h => by
    rcases List.mem_cons.1 h with rfl | h
    · exact ⟨by simp, by simp, x, List.mem_cons_self, rfl⟩
    · obtain ⟨h1, h2, y, hy, hd⟩ := renumber_id (n + 1) rs r h
      exact ⟨by omega, by simp only [List.length_cons]; omega, y, List.mem_cons_of_mem _ hy, hd⟩

theorem increasing_renumber : ∀ (n : Nat) (rs : List Record), Increasing (renumber n rs)
  | _, []      => List.Pairwise.nil
  | n, r :: rs => by
    refine List.Pairwise.cons (fun x hx => ?_) (increasing_renumber (n + 1) rs)
    exact (renumber_id (n + 1) rs x hx).1

theorem lastId_renumber (n : Nat) (rs : List Record) (h : rs ≠ []) : lastId (renumber n rs) = n + rs.length := by
  induction rs generalizing n with
  | nil => exact absurd rfl h
  | cons r rs ih =>
    cases rs with
    | nil => rfl
    | cons x xs =>
      have := ih (n + 1) (by simp)
      simp only [renumber, List.length_cons] at this ⊢
      rw [show lastId (⟨n + 1, r.data⟩ :: ⟨n + 1 + 1, x.data⟩ :: renumber (n + 1 + 1) xs) =
        lastId (⟨n + 1 + 1, x.data⟩ :: renumber (n + 1 + 1) xs) by simp [lastId], this]
      omega

theorem Increasing.of_cons {r : Record} {rs : List Record} (h : Increasing (r :: rs)) : Increasing rs :=
  List.Pairwise.of_cons h

/-- Ids that go up from above `n` are at least as many as they are apart. -/
theorem Increasing.length_le : ∀ {rs : List Record} (n : Nat), Increasing rs → (∀ r ∈ rs, n < r.id) →
    rs ≠ [] → n + rs.length ≤ lastId rs
  | [], _, _, _, hne => absurd rfl hne
  | [r], n, _, h, _ => h r List.mem_cons_self
  | r :: x :: rs, n, hinc, h, _ => by
    have h1 : n < r.id := h r List.mem_cons_self
    have hx : ∀ y ∈ x :: rs, n + 1 < y.id := fun y hy =>
      Nat.lt_of_le_of_lt h1 (List.rel_of_pairwise_cons hinc hy)
    have := Increasing.length_le (n + 1) hinc.of_cons hx (by simp)
    have hl : lastId (r :: x :: rs) = lastId (x :: rs) := by simp [lastId]
    rw [hl, List.length_cons]
    omega

/-- **Increasing records split at an acknowledged id.** -/
theorem Increasing.split (a : Nat) : ∀ {rs : List Record}, Increasing rs →
    rs = rs.filter (fun r => decide (r.id ≤ a)) ++ rs.filter (fun r => decide (a < r.id))
  | [], _ => rfl
  | r :: rs, h => by
    have ih := h.of_cons.split a
    by_cases hr : r.id ≤ a
    · rw [List.filter_cons_of_pos (by simpa using hr), List.filter_cons_of_neg (by simpa using hr), List.cons_append,
        ← ih]
    · have hall : ∀ x ∈ rs, a < x.id := fun x hx =>
        Nat.lt_trans (Nat.not_le.1 hr) (List.rel_of_pairwise_cons h hx)
      have h1 : rs.filter (fun r => decide (r.id ≤ a)) = [] :=
        List.filter_eq_nil_iff.2 (fun x hx => by simpa using hall x hx)
      have h2 : rs.filter (fun r => decide (a < r.id)) = rs :=
        List.filter_eq_self.2 (fun x hx => by simpa using hall x hx)
      rw [List.filter_cons_of_neg (by simpa using hr), List.filter_cons_of_pos (by simpa using hr), h1, h2]
      rfl

namespace FifoFile

theorem unacked_ok (F : FifoFile) : ∀ r ∈ F.unacked, r.Ok := fun r hr => F.ok r (List.mem_filter.1 hr).1

theorem unacked_increasing (F : FifoFile) : Increasing F.unacked := List.Pairwise.filter _ F.increasing

theorem length_unacked_lt (F : FifoFile) : F.unacked.length < 2 ^ 64 := by
  by_cases h : F.unacked = []
  · simp [h]
  · have := F.unacked_increasing.length_le 0 (fun r hr => (F.unacked_ok r hr).id_pos) h
    obtain ⟨r, hr, hid⟩ := lastId_mem h
    have := (F.unacked_ok r hr).id_lt
    omega

/-- What cleaning leaves in a file: every record when nothing is acknowledged, else the unacknowledged ones
renumbered. -/
def kept (F : FifoFile) : List Record := if F.lastAckId = 0 then F.records else renumber 0 F.unacked

theorem kept_ok (F : FifoFile) : ∀ r ∈ F.kept, r.Ok := by
  unfold kept
  split
  · exact F.ok
  · intro r hr
    obtain ⟨h1, h2, x, hx, hd⟩ := renumber_id 0 F.unacked r hr
    have := F.length_unacked_lt
    exact ⟨h1, by omega, by rw [hd]; exact (F.unacked_ok x hx).size_le⟩

theorem kept_increasing (F : FifoFile) : Increasing F.kept := by
  unfold kept
  split
  · exact F.increasing
  · exact increasing_renumber 0 _

theorem lastId_kept_pos (F : FifoFile) (h : F.kept ≠ []) : lastId F.kept ≠ 0 := by
  obtain ⟨r, hr, hid⟩ := lastId_mem h
  have := (F.kept_ok r hr).id_pos
  omega

theorem lastId_kept_lt (F : FifoFile) : lastId F.kept < 2 ^ 64 := by
  by_cases h : F.kept = []
  · rw [h]; decide
  · obtain ⟨r, hr, hid⟩ := lastId_mem h
    have := (F.kept_ok r hr).id_lt
    omega

theorem noId_lt : 0 < 2 ^ 64 := by decide

theorem clean_current_lt (F : FifoFile) :
    (if F.kept ≠ [] then lastId F.kept else if F.lastAckId = 0 then F.currentId else 0) < 2 ^ 64 := by
  split
  · exact F.lastId_kept_lt
  · split
    · exact F.current_lt
    · exact noId_lt

/-- **The file cleaning leaves.** -/
def clean (F : FifoFile) : FifoFile where
  lastAckId := 0
  currentId := if F.kept ≠ [] then lastId F.kept else if F.lastAckId = 0 then F.currentId else 0
  records := F.kept
  ack_lt := noId_lt
  current_lt := F.clean_current_lt
  ok := F.kept_ok
  increasing := F.kept_increasing

theorem unacked_of_zero (F : FifoFile) (h : F.lastAckId = 0) : F.unacked = F.records :=
  List.filter_eq_self.2 (fun r hr => by rw [h]; simpa using (F.ok r hr).id_pos)

theorem map_data_kept (F : FifoFile) : F.kept.map Record.data = F.unacked.map Record.data := by
  unfold kept
  split
  · rename_i h
    rw [F.unacked_of_zero h]
  · exact map_data_renumber 0 _

/-- **Cleaning is idempotent.** -/
theorem clean_clean (F : FifoFile) : F.clean.clean = F.clean := by
  have hk : F.clean.kept = F.kept := if_pos rfl
  refine FifoFile.ext rfl ?_ hk
  show (if F.clean.kept ≠ [] then lastId F.clean.kept else F.clean.currentId) = F.clean.currentId
  rw [hk]
  by_cases h : F.kept = []
  · rw [if_neg (by simpa using h)]
  · rw [if_pos h]
    exact (if_pos h).symm

end FifoFile

theorem bytes_eq_between (F : FifoFile) : Fd.mk F.bytes 0 = Fd.between [] (F.header.bytes ++ encode F.records) := rfl

theorem length_bytes (F : FifoFile) : F.bytes.length = headerSize + (encode F.records).length := by
  simp [FifoFile.bytes]

/-- The header of a FIFO file sends cleaning to one of its two branches. -/
theorem cleanFile_bytes (F : FifoFile) : cleanFile F.bytes =
    if F.lastAckId = 0 then
      cleanNothingAcked (F.bytes.length + 1) (Fd.between F.header.bytes (encode F.records)) F.header
    else cleanAcked (F.bytes.length + 1) (Fd.between F.header.bytes (encode F.records)) F.header := by
  have hread : (Fd.mk F.bytes 0).read headerSize =
      (F.header.bytes, Fd.between F.header.bytes (encode F.records)) := by
    rw [bytes_eq_between, Fd.read_between (n := headerSize) _ _ (MainHeader.length_bytes _), List.nil_append]
  unfold cleanFile
  simp only [hread, MainHeader.length_bytes, F.parse_header, ne_eq, not_true_eq_false, if_false]
  rfl

theorem cleanFile_of_zero (F : FifoFile) (h : F.lastAckId = 0) :
    cleanFile F.bytes = some (0, if F.records = [] then [] else [.write .current 0 F.clean.header.bytes]) := by
  have hlen := length_encode_le F.records
  obtain ⟨n, hn⟩ : ∃ n, F.bytes.length + 1 = n + 1 + F.records.length :=
    ⟨F.bytes.length - F.records.length, by rw [length_bytes]; omega⟩
  have hloop : lastIdLoop (F.bytes.length + 1) (Fd.between F.header.bytes (encode F.records)) 0 =
      some (.ok (seenId 0 F.records)) := by
    have := lastIdLoop_records F.records (n + 1) F.header.bytes [] 0 F.ok
    rw [List.append_nil] at this
    rw [hn, this, lastIdLoop_nil]
  have hk : F.kept = F.records := if_pos h
  rw [cleanFile_bytes, if_pos h, cleanNothingAcked, hloop]
  by_cases hr : F.records = []
  · simp [seenId, hr]
  · have hseen : seenId 0 F.records = lastId F.kept := by rw [seenId, if_neg hr, hk]
    have hpos := F.lastId_kept_pos (by rw [hk]; exact hr)
    rw [hk] at hseen hpos
    simp [hseen, hpos, hr, FifoFile.header, FifoFile.clean, hk, h]

/-- The operations that fill `<path>.fifo.new`. -/
def fillNew (F : FifoFile) : List (FsOp FileName) :=
  .creat .new :: (defaultMainHeader.bytes :: recordChunks F.kept).map (.append .new)
    ++ (if F.kept = [] then [] else [.write .new 0 F.clean.header.bytes])

/-- The records are those acknowledged, and behind them those that are not. -/
theorem acked_append_unacked (F : FifoFile) : ∃ acked, F.records = acked ++ F.unacked ∧
    F.records.length = acked.length + F.unacked.length ∧ ∀ r ∈ acked, r.Ok ∧ r.id ≤ F.lastAckId := by
  have hsplit := F.increasing.split F.lastAckId
  refine ⟨_, hsplit, ?_, fun r hr => ?_⟩
  · conv => lhs; rw [hsplit]
    exact List.length_append
  · exact ⟨F.ok r (List.mem_filter.1 hr).1, by simpa using (List.mem_filter.1 hr).2⟩

/-- The search for unacknowledged data stops in front of it. -/
theorem skipAckedLoop_bytes (F : FifoFile) : ∃ before,
    skipAckedLoop (F.bytes.length + 1) (Fd.between F.header.bytes (encode F.records)) F.lastAckId =
      some (.ok (Fd.between before (encode F.unacked))) := by
  have hlen := length_encode_le F.records
  obtain ⟨acked, hsplit, hl, hacked⟩ := acked_append_unacked F
  have henc : encode F.records = encode acked ++ encode F.unacked := by
    conv => lhs; rw [hsplit]
    exact encode_append _ _
  obtain ⟨n, hn⟩ : ∃ n, F.bytes.length + 1 = n + 1 + acked.length :=
    ⟨F.bytes.length - acked.length, by rw [length_bytes]; omega⟩
  refine ⟨F.header.bytes ++ encode acked, ?_⟩
  rw [hn, henc, skipAckedLoop_acked acked _ _ _ _ hacked]
  cases hu : F.unacked with
  | nil => exact skipAckedLoop_nil _ _ _
  | cons r rs =>
    have hr : r ∈ F.unacked := by rw [hu]; exact List.mem_cons_self
    have hlt : F.lastAckId < r.id := by simpa using (List.mem_filter.1 hr).2
    have := skipAckedLoop_header n r (F.header.bytes ++ encode acked) (r.data ++ encode rs) F.lastAckId
      (F.unacked_ok r hr) hlt
    simpa [encode_cons, Record.bytes] using this

/-- The operations for a file with an acknowledged id: a clean copy, put in place by two renames. -/
theorem cleanFile_of_pos (F : FifoFile) (h : F.lastAckId ≠ 0) :
    cleanFile F.bytes =
      some (0, fillNew F ++ [.rename .current .old, .rename .new .current, .unlink .old]) := by
  have hk : F.kept = renumber 0 F.unacked := if_neg h
  have hle : F.unacked.length ≤ F.bytes.length := by
    have := length_encode_le F.records
    have := List.length_filter_le (fun r => decide (F.lastAckId < r.id)) F.records
    rw [length_bytes]
    unfold FifoFile.unacked
    omega
  obtain ⟨before, hskip⟩ := skipAckedLoop_bytes F
  have hcopy : copyLoop (F.bytes.length + 1) (Fd.between before (encode F.unacked)) 0 =
      some ⟨0, F.unacked.length, recordChunks F.kept⟩ := by
    have := copyLoop_records F.unacked (F.bytes.length - F.unacked.length) before 0 F.unacked_ok
    rw [Nat.sub_add_cancel hle, Nat.zero_add, ← hk] at this
    exact this
  have hnil : F.unacked.length = 0 ↔ F.kept = [] := by
    rw [hk, ← List.length_eq_zero_iff, length_renumber]
  have hid : F.header.lastAckId = F.lastAckId := rfl
  rw [cleanFile_bytes, if_neg h, cleanAcked, hid, hskip]
  simp only [hcopy, Option.map_some, ne_eq, not_true_eq_false, if_false, hnil, fillNew]
  by_cases hne : F.kept = []
  · simp [hne]
  · have hlast : lastId F.kept = F.unacked.length := by
      rw [hk, lastId_renumber 0 _ (fun hu => hne (by rw [hk, hu]; rfl)), Nat.zero_add]
    simp [hne, FifoFile.header, FifoFile.clean, hlast, defaultMainHeader]

end Perm
end Flp
