import FlpPrototype.PermFifo.Session
/-!
# Torn — a file that ends in a sub header without its data

What each loop does when it comes to such a tail: the search for the last id seeks past the end and takes the id in
the header for one of a record; the copy of unacknowledged data fails with code 12; a load stops with code 6 and leaves
`lastOutOffset` where it was.  So cleaning refuses the file, or gives out the id, and no read gets behind the tail.
-/
namespace Flp
namespace Perm

open CircularTable

/-- The content: complete records, then the sub header of `u`. -/
def tornBytes (F : FifoFile) (u : Record) : Bytes := F.bytes ++ u.header.bytes

theorem lastIdLoop_torn (n : Nat) (before : Bytes) (cur : Nat) (u : Record) (hu : u.Ok) :
    lastIdLoop (n + 2) (Fd.between before u.header.bytes) cur = some (.ok u.id) := by
  have hread : (Fd.between before u.header.bytes).read headerSize =
      (u.header.bytes, Fd.between (before ++ u.header.bytes) []) := by
    have := Fd.read_between (n := headerSize) (b := u.header.bytes) before [] (by simp)
    rwa [List.append_nil] at this
  have hseek : (Fd.between (before ++ u.header.bytes) []).lseekCur (toSigned 64 u.header.size) =
      some ⟨before ++ u.header.bytes, (before ++ u.header.bytes).length + u.data.length⟩ := by
    have hs : toSigned 64 u.header.size = u.data.length := hu.size_toSigned
    unfold Fd.lseekCur Fd.between
    rw [hs, if_pos (by simp only; omega), List.append_nil]
    rfl
  have hend :
      (Fd.read ⟨before ++ u.header.bytes, (before ++ u.header.bytes).length + u.data.length⟩ headerSize).1 = [] := by
    simp [Fd.read, List.drop_of_length_le]
  rw [lastIdLoop, hread]
  simp only [SubHeader.length_bytes, hu.parse, hseek]
  rw [if_neg (by decide), if_neg (by simp), if_neg (by simp [Record.header]), lastIdLoop]
  simp only [hend, List.length_nil, if_true]
  rfl

theorem copyLoop_torn (u : Record) (hu : u.Ok) (hd : u.data ≠ []) : ∀ (rs : List Record) (n : Nat) (before : Bytes)
    (cur : Nat), (∀ r ∈ rs, r.Ok) →
    ∃ c, copyLoop (n + rs.length + 1) (Fd.between before (encode rs ++ u.header.bytes)) cur = some c ∧ c.code = 12
  | [], n, before, cur, _ => by
    have hread := Fd.read_between (n := headerSize) (b := u.header.bytes) before [] (by simp)
    have hdata : (Fd.between (before ++ u.header.bytes) []).read u.header.size =
        ([], Fd.between (before ++ u.header.bytes) []) := by
      have := Fd.read_between_short (b := []) (n := u.header.size) (before ++ u.header.bytes) (Nat.zero_le _)
      simpa using this
    have hsize : ¬ 2 ^ 32 ≤ u.header.size := Nat.not_le.2 (Nat.lt_of_le_of_lt hu.size_le (by decide))
    have hne : u.header.size ≠ 0 := by simpa [Record.header] using hd
    rw [List.append_nil] at hread
    refine ⟨⟨12, cur, []⟩, ?_, rfl⟩
    rw [List.length_nil, Nat.add_zero, copyLoop, encode_nil, List.nil_append, hread]
    simp only [SubHeader.length_bytes, hu.parse, hdata]
    rw [if_neg (by decide), if_neg (by simp), if_neg (by simp [Record.header]), if_neg hsize, if_pos]
    simpa using Ne.symm hne
  | r :: rs, n, before, cur, h => by
    have hr := h r List.mem_cons_self
    obtain ⟨c, hc, hcode⟩ := copyLoop_torn u hu hd rs n (before ++ r.bytes) (cur + 1)
      (fun x hx => h x (List.mem_cons_of_mem _ hx))
    have hread : (Fd.between (before ++ r.header.bytes) (r.data ++ (encode rs ++ u.header.bytes))).read r.header.size =
        (r.data, Fd.between (before ++ r.bytes) (encode rs ++ u.header.bytes)) := by
      rw [Fd.read_between (n := r.header.size) _ _ rfl, Record.bytes, List.append_assoc]
    have hsize : ¬ 2 ^ 32 ≤ r.header.size := Nat.not_le.2 (Nat.lt_of_le_of_lt hr.size_le (by decide))
    have hmod : r.data.length % 2 ^ 32 = r.header.size := hr.size_mod
    rw [List.length_cons, ← Nat.add_assoc, copyLoop, encode_cons, List.append_assoc, read_record_header]
    simp only [SubHeader.length_bytes, hr.parse, hread, if_neg hsize, hmod, ne_eq, not_true_eq_false, if_false]
    rw [if_neg (by decide), if_neg (by simp [Record.header]), hc]
    exact ⟨_, rfl, hcode⟩

theorem ctLoad_torn {alloc : Nat → Bool} {id : Nat} (ha : ∀ i, alloc i = true) (n k : Nat) (before : Bytes)
    (t : CircularTable) (u : Record) (hu : u.Ok) (hd : u.data ≠ []) (hid : id ≤ u.id) :
    ∃ l, ctLoad alloc (n + 1) (Fd.between before u.header.bytes) t id k = some l ∧ l.code ≠ 0 ∧ l.table = t := by
  have hread := Fd.read_between (n := headerSize) (b := u.header.bytes) before [] (by simp)
  have hdata : (Fd.between (before ++ u.header.bytes) []).read u.header.size =
      ([], Fd.between (before ++ u.header.bytes) []) := by
    have := Fd.read_between_short (b := []) (n := u.header.size) (before ++ u.header.bytes) (Nat.zero_le _)
    simpa using this
  have hne : u.header.size ≠ 0 := by simpa [Record.header] using hd
  rw [List.append_nil] at hread
  rw [ctLoad]
  by_cases hfull : t.nItems = t.size
  · rw [if_pos hfull]
    exact ⟨_, rfl, by simp, rfl⟩
  · rw [if_neg hfull, hread]
    simp only [SubHeader.length_bytes, hu.parse, hdata]
    rw [if_neg (by decide), if_neg (by simp), if_neg (by simp [Record.header]),
      if_neg (fun h => Nat.not_lt.2 hid h.2), if_neg (by simp [ha]), if_pos (by simpa using Ne.symm hne)]
    exact ⟨_, rfl, by simp, rfl⟩

/-! ## Cleaning a torn file -/

variable {F : FifoFile} {u : Record}

theorem decode_torn (F : FifoFile) (hu : u.Ok) (hd : u.data ≠ []) : decode (tornBytes F u) = F.records := by
  have hlen : F.records.length + 1 ≤ (tornBytes F u).length := by
    have := length_encode_le F.records
    rw [tornBytes, List.length_append, length_bytes, SubHeader.length_bytes, headerSize]
    omega
  have hdrop : (tornBytes F u).drop headerSize = encode F.records ++ u.header.bytes := by
    rw [tornBytes, FifoFile.bytes, List.append_assoc]
    exact List.drop_left' (by simp)
  obtain ⟨n, hn⟩ : ∃ n, (tornBytes F u).length = n + 1 + F.records.length :=
    ⟨(tornBytes F u).length - 1 - F.records.length, by omega⟩
  have htail : decodeUpTo (n + 1) u.header.bytes = [] := by
    have hpos : 0 < u.header.size := Nat.pos_of_ne_zero (by simpa [Record.header] using hd)
    have htake : u.header.bytes.take headerSize = u.header.bytes := List.take_of_length_le (by simp)
    have hrest : u.header.bytes.drop headerSize = [] := List.drop_of_length_le (by simp)
    rw [decodeUpTo]
    simp only [htake, hu.parse, hrest]
    rw [if_pos (.inr (.inr hpos))]
  rw [decode, hn, hdrop, decodeUpTo_encode _ _ _ F.ok, htail, List.append_nil]

theorem read_torn_header (F : FifoFile) (u : Record) : (Fd.mk (tornBytes F u) 0).read headerSize =
    (F.header.bytes, Fd.between F.header.bytes (encode F.records ++ u.header.bytes)) := by
  have : Fd.mk (tornBytes F u) 0 = Fd.between [] (F.header.bytes ++ (encode F.records ++ u.header.bytes)) := by
    simp [Fd.between, tornBytes, FifoFile.bytes]
  rw [this, Fd.read_between (n := headerSize) _ _ (MainHeader.length_bytes _), List.nil_append]

theorem cleanFile_torn_bytes (F : FifoFile) (u : Record) : cleanFile (tornBytes F u) =
    if F.lastAckId = 0 then
      cleanNothingAcked ((tornBytes F u).length + 1) (Fd.between F.header.bytes (encode F.records ++ u.header.bytes))
        F.header
    else cleanAcked ((tornBytes F u).length + 1) (Fd.between F.header.bytes (encode F.records ++ u.header.bytes))
      F.header := by
  unfold cleanFile
  simp only [read_torn_header, MainHeader.length_bytes, F.parse_header, ne_eq, not_true_eq_false, if_false]
  rfl

theorem torn_length (F : FifoFile) (u : Record) : F.records.length + 2 ≤ (tornBytes F u).length := by
  have := length_encode_le F.records
  rw [tornBytes, List.length_append, length_bytes, SubHeader.length_bytes, headerSize]
  omega

/-- **With nothing acknowledged** cleaning takes the torn record's id for the last one. -/
theorem cleanFile_torn_of_zero (h : F.lastAckId = 0) (hu : u.Ok) :
    cleanFile (tornBytes F u) =
      some (0, [.write .current 0 (MainHeader.bytes { F.header with currentId := u.id })]) := by
  have hlen := torn_length F u
  obtain ⟨n, hn⟩ : ∃ n, (tornBytes F u).length + 1 = n + 2 + F.records.length :=
    ⟨(tornBytes F u).length - 1 - F.records.length, by omega⟩
  have hpos := hu.id_pos
  rw [cleanFile_torn_bytes, if_pos h, cleanNothingAcked, hn, lastIdLoop_records _ _ _ _ _ F.ok,
    lastIdLoop_torn _ _ _ _ hu]
  simp only
  rw [if_neg (by omega)]

/-- **With an acknowledged id below the torn record's** cleaning fails. -/
theorem cleanFile_torn_of_pos (h : F.lastAckId ≠ 0) (hu : u.Ok) (hd : u.data ≠ []) (hid : F.lastAckId < u.id) :
    ∃ ops, cleanFile (tornBytes F u) = some (12, ops) := by
  have hlen := torn_length F u
  obtain ⟨acked, hsplit, hl, hacked⟩ := acked_append_unacked F
  have henc : encode F.records ++ u.header.bytes = encode acked ++ (encode F.unacked ++ u.header.bytes) := by
    rw [← List.append_assoc, ← encode_append]
    congr 2
  obtain ⟨n, hn⟩ : ∃ n, (tornBytes F u).length + 1 = n + 1 + acked.length :=
    ⟨(tornBytes F u).length - acked.length, by omega⟩
  have hskip : skipAckedLoop ((tornBytes F u).length + 1)
      (Fd.between F.header.bytes (encode F.records ++ u.header.bytes)) F.lastAckId =
        some (.ok (Fd.between (F.header.bytes ++ encode acked) (encode F.unacked ++ u.header.bytes))) := by
    rw [hn, henc, skipAckedLoop_acked acked _ _ _ _ hacked]
    cases hun : F.unacked with
    | nil =>
      have := skipAckedLoop_header n u (F.header.bytes ++ encode acked) [] F.lastAckId hu hid
      simpa using this
    | cons r rs =>
      have hr : r ∈ F.unacked := by rw [hun]; exact List.mem_cons_self
      have hlt : F.lastAckId < r.id := by simpa using (List.mem_filter.1 hr).2
      have := skipAckedLoop_header n r (F.header.bytes ++ encode acked) (r.data ++ (encode rs ++ u.header.bytes))
        F.lastAckId (F.unacked_ok r hr) hlt
      simpa [encode_cons, Record.bytes] using this
  have hcopy := copyLoop_torn u hu hd F.unacked ((tornBytes F u).length - F.unacked.length)
    (F.header.bytes ++ encode acked) 0 F.unacked_ok
  rw [Nat.sub_add_cancel (by omega)] at hcopy
  obtain ⟨c, hc, hcode⟩ := hcopy
  have hack : F.header.lastAckId = F.lastAckId := rfl
  rw [cleanFile_torn_bytes, if_neg h, cleanAcked, hack, hskip]
  simp only [hc, Option.map_some, hcode]
  rw [if_pos (by decide)]
  exact ⟨_, rfl⟩

end Perm
end Flp
