import FlpPrototype.PermFifo.Fifo
/-!
# Loops — what the loops of the permanent FIFO do to lists of records

One law for each loop: saving a table, acknowledging in it, scanning it for the next id, loading records from the
file.  Each says what happens to the records the tables and the file hold, so the operations built on the loops are
proved without an index or a byte.
-/
namespace Flp
namespace Perm

open CircularTable

/-- The table holds exactly these records. -/
structure CircularTable.Holds (t : CircularTable) (rs : List Record) : Prop where
  wf : t.Wf
  list : t.toList = rs.map Record.item

namespace CircularTable.Holds

variable {t t' : CircularTable} {rs : List Record}

theorem nItems (h : t.Holds rs) : t.nItems = rs.length := by
  rw [← h.wf.length_toList, h.list, List.length_map]

theorem length_le (h : t.Holds rs) : rs.length ≤ t.size := by
  rw [← h.nItems]
  exact h.wf.count

theorem nil_iff (h : t.Holds rs) : t.nItems = 0 ↔ rs = [] := by
  rw [h.nItems, List.length_eq_zero_iff]

theorem write {r : Record} {c : Ret} (h : t.Holds rs) (hw : ctWrite t r.item = some (c, t')) :
    (c = .error ∧ rs.length = t.size ∧ t' = t) ∨
    (c = .ok ∧ rs.length < t.size ∧ t'.Holds (rs ++ [r]) ∧ t'.size = t.size) := by
  rcases ctWrite_spec h.wf r.item_data_ne_none hw with ⟨hc, hn, ht⟩ | ⟨hc, hn, hwf, hs, -, hl⟩
  · exact .inl ⟨hc, by rw [← h.nItems, hn], ht⟩
  · exact .inr ⟨hc, by rw [← h.nItems]; exact hn, ⟨hwf, by rw [hl, h.list, List.map_append]; rfl⟩, hs⟩

theorem write_none {r : Record} (h : t.Holds rs) (hw : ctWrite t r.item = none) : ¬ t.Fits := fun hf => by
  have := ctWrite_isSome r.item h.wf hf
  rw [hw] at this
  cases this

theorem read {x : FifoItem} (h : t.Holds rs) (hr : ctRead t = some (x, t')) :
    ∃ r rest, rs = r :: rest ∧ x = r.item ∧ t'.Holds rest ∧ t'.size = t.size := by
  obtain ⟨hwf, hs, -, hl⟩ := ctRead_spec h.wf hr
  cases rs with
  | nil => rw [h.list] at hl; cases hl
  | cons r rest =>
    rw [h.list, List.map_cons, List.cons.injEq] at hl
    exact ⟨r, rest, rfl, hl.1.symm, ⟨hwf, hl.2.symm⟩, hs⟩

theorem read_none (h : t.Holds rs) : ctRead t = none ↔ rs = [] := by
  rw [ctRead_eq_none h.wf, h.list, List.map_eq_nil_iff]

theorem getD_index {i j : Nat} {r : Record} (h : t.Holds rs) (hj : t.index i = some j) (hi : rs[i]? = some r) :
    t.items.getD j emptyFifoItem = r.item := by
  have hlt : i < rs.length := (List.getElem?_eq_some_iff.1 hi).1
  have := h.wf.getElem?_index (by rw [h.nItems]; exact hlt) hj
  rw [h.list, List.getElem?_map, hi] at this
  simp [List.getD_eq_getElem?_getD, this]

theorem getD_lastIndex {j : Nat} {r : Record} (h : t.Holds (rs ++ [r])) (hj : t.lastIndex = some j) :
    t.items.getD j emptyFifoItem = r.item := by
  obtain ⟨s, hs, rfl⟩ := Option.map_eq_some_iff.1 hj
  obtain ⟨rfl, hle⟩ := intAdd_eq_some hs
  have hn : t.nItems = rs.length + 1 := by rw [h.nItems]; simp
  have hidx : t.index rs.length = some (Ring.wrap t.size (t.indexFirst + t.nItems - 1)) := by
    unfold CircularTable.index
    rw [intAdd_of_le (by omega), hn]
    rfl
  exact h.getD_index hidx (by simp)

theorem lastIndex_isSome (h : t.Holds rs) (hf : t.Fits) : t.lastIndex.isSome = true := by
  have := h.wf.index_isSome hf h.wf.count
  unfold CircularTable.index at this
  unfold CircularTable.lastIndex
  simpa using this

end CircularTable.Holds

/-! ## `ct_save` -/

theorem itemChunks_item {r : Record} (h : r.data ≠ []) : itemChunks r.item = [r.header.bytes, r.data] := by
  have : r.data.length ≠ 0 := by simpa using h
  simp [itemChunks, Record.item, this, Record.header]

theorem CircularTable.Holds.read_cons {t : CircularTable} {r : Record} {rs : List Record} (h : t.Holds (r :: rs)) :
    ∃ t', ctRead t = some (r.item, t') ∧ t'.Holds rs ∧ t'.size = t.size := by
  have hsome : ctRead t ≠ none := fun hn => by cases h.read_none.1 hn
  obtain ⟨⟨x, t'⟩, hr⟩ := Option.ne_none_iff_exists'.1 hsome
  obtain ⟨r', rest, heq, hx, ht, hs⟩ := h.read hr
  obtain ⟨rfl, rfl⟩ := List.cons.inj heq
  exact ⟨t', by rw [hr, hx], ht, hs⟩

theorem ctSaveLoop_spec : ∀ (rs : List Record) (t : CircularTable), t.Holds rs → (∀ r ∈ rs, r.data ≠ []) →
    (ctSaveLoop rs.length t).1.Holds [] ∧ (ctSaveLoop rs.length t).1.size = t.size ∧
      (ctSaveLoop rs.length t).2 = recordChunks rs
  | [], t, h, _ => ⟨h, rfl, rfl⟩
  | r :: rs, t, h, hne => by
    obtain ⟨t', hr, ht, hs⟩ := h.read_cons
    obtain ⟨h1, h2, h3⟩ := ctSaveLoop_spec rs t' ht (fun y hy => hne y (List.mem_cons_of_mem _ hy))
    rw [List.length_cons, ctSaveLoop, hr]
    refine ⟨h1, h2.trans hs, ?_⟩
    simp only [h3, itemChunks_item (hne r List.mem_cons_self)]
    rfl

/-- **Saving a table empties it and writes its records.** -/
theorem ctSave_spec {t : CircularTable} {rs : List Record} (h : t.Holds rs) (hne : ∀ r ∈ rs, r.data ≠ []) :
    (ctSave t).1.Holds [] ∧ (ctSave t).1.size = t.size ∧ (ctSave t).2 = recordChunks rs := by
  unfold ctSave
  rw [h.nItems]
  exact ctSaveLoop_spec rs t h hne

/-! ## The loop of `permFIFO_ack` -/

theorem ackLoop_step {t t' : CircularTable} {x : FifoItem} (n id : Nat) (hr : ctRead t = some (x, t'))
    (hid : x.id ≤ id) : ackLoop (n + 1) t id = ackLoop n t' id := by
  unfold ctRead at hr
  split at hr
  · cases hr
  · rename_i hne
    simp only [Option.some.injEq, Prod.mk.injEq] at hr
    obtain ⟨rfl, rfl⟩ := hr
    rw [ackLoop, if_neg hne, if_neg (Nat.not_lt.2 hid)]

/-- **Acknowledging drops the records up to the id.** -/
theorem ackLoop_spec (id : Nat) : ∀ (rs : List Record) (t : CircularTable), t.Holds rs →
    (ackLoop rs.length t id).Holds (rs.dropWhile (fun r => decide (r.id ≤ id))) ∧
      (ackLoop rs.length t id).size = t.size
  | [], t, h => ⟨h, rfl⟩
  | r :: rs, t, h => by
    obtain ⟨t', hr, ht, hs⟩ := h.read_cons
    by_cases hid : r.id ≤ id
    · obtain ⟨h1, h2⟩ := ackLoop_spec id rs t' ht
      rw [List.length_cons, ackLoop_step rs.length id hr hid,
        List.dropWhile_cons_of_pos (by simpa using hid)]
      exact ⟨h1, h2.trans hs⟩
    · have hfirst : t.items.getD t.indexFirst emptyFifoItem = r.item := by
        unfold ctRead at hr
        split at hr
        · cases hr
        · simp only [Option.some.injEq, Prod.mk.injEq] at hr
          rw [hr.1]
      have hn : t.nItems ≠ 0 := by rw [h.nItems]; simp
      rw [List.length_cons, ackLoop, if_neg hn, hfirst, if_pos (by simpa using hid),
        List.dropWhile_cons_of_neg (by simpa using hid)]
      exact ⟨h, rfl⟩

/-! ## The scan of the disk table -/

/-- Ids that go up by one, from `n + 1` on. -/
def Consecutive : Nat → List Record → Prop
  | _, []      => True
  | n, r :: rs => r.id = n + 1 ∧ Consecutive r.id rs

theorem Consecutive.append : ∀ {n : Nat} {xs ys : List Record}, Consecutive n (xs ++ ys) ↔
    Consecutive n xs ∧ Consecutive (seenId n xs) ys
  | n, [], ys => by simp [Consecutive, seenId]
  | n, x :: xs, ys => by
    rw [List.cons_append, Consecutive, Consecutive, Consecutive.append, seenId_cons, and_assoc]

/-- The scan of the disk table, on the records it holds. -/
def scanRecords : List Record → Scan → Option Scan
  | [], s => some s
  | x :: xs, s =>
    if x.id < s.nextid then scanRecords xs s
    else if x.id ≠ s.nextid then some s
    else if s.k = 0 then
      scanRecords xs { s with
        item := x.item, k := s.k + 1, nextIdInClientTable := x.id + 1, nextid := (s.nextid + 1) % 2 ^ 32 }
    else match ctWrite s.client x.item with
      | none => none
      | some (.error, _) => some s
      | some (.ok, c) =>
        scanRecords xs { s with
          client := c, k := s.k + 1, nextIdInClientTable := x.id + 1, nextid := (s.nextid + 1) % 2 ^ 32 }

/-- The loop over slots is the scan of the records in them, once its sums fit. -/
theorem diskScan_range' {alloc : Nat → Bool} {t : CircularTable} {rs : List Record} (ha : ∀ i, alloc i = true)
    (h : t.Holds rs) : ∀ (m i : Nat) (s s' : Scan), i + m = rs.length →
      diskScan alloc t (List.range' i m) s = some s' → scanRecords (rs.drop i) s = some s'
  | 0, i, s, s', hi, hs => by
    rw [List.drop_of_length_le (by omega)]
    exact hs
  | m + 1, i, s, s', hi, hs => by
    have hlt : i < rs.length := by omega
    rw [List.range'_succ, diskScan] at hs
    cases hj : t.index i with
    | none => rw [hj] at hs; cases hs
    | some j =>
      have hx := h.getD_index hj (List.getElem?_eq_getElem hlt)
      have ih := fun s0 => diskScan_range' ha h m (i + 1) s0 s' (by omega)
      rw [hj] at hs
      simp only [hx, ha, Bool.true_eq_false, if_false, Record.item_id] at hs
      rw [List.drop_eq_getElem_cons hlt, scanRecords]
      split
      · rename_i hc
        rw [if_pos hc] at hs
        exact ih _ hs
      · rename_i hc
        rw [if_neg hc] at hs
        split
        · rename_i hc'
          rw [if_pos hc'] at hs
          exact hs
        · rename_i hc'
          rw [if_neg hc'] at hs
          split
          · rename_i hk
            rw [if_pos hk] at hs
            exact ih _ hs
          · rename_i hk
            rw [if_neg hk] at hs
            cases hw : ctWrite s.client rs[i].item with
            | none => rw [hw] at hs; cases hs
            | some p =>
              obtain ⟨c, c'⟩ := p
              rw [hw] at hs
              cases c with
              | error => exact hs
              | ok => exact ih _ hs

theorem diskScan_spec {alloc : Nat → Bool} {t : CircularTable} {rs : List Record} {s s' : Scan}
    (ha : ∀ i, alloc i = true) (h : t.Holds rs) (hs : diskScan alloc t (List.range t.nItems) s = some s') :
    scanRecords rs s = some s' := by
  rw [List.range_eq_range', h.nItems] at hs
  exact diskScan_range' ha h rs.length 0 s s' (by omega) hs

theorem diskScan_isSome {alloc : Nat → Bool} {t : CircularTable} (ht : t.Wf) (hf : t.Fits) :
    ∀ (is : List Nat) (s : Scan), (∀ i ∈ is, i ≤ t.size) → s.client.Wf → s.client.Fits →
      (∀ i ∈ is, ∀ j, t.index i = some j → (t.items.getD j emptyFifoItem).data ≠ none) →
      (diskScan alloc t is s).isSome = true
  | [], _, _, _, _, _ => rfl
  | i :: is, s, hi, hc, hcf, hd => by
    obtain ⟨j, hj⟩ := Option.isSome_iff_exists.1 (ht.index_isSome hf (hi i List.mem_cons_self))
    have ih := fun s' => @diskScan_isSome alloc t ht hf is s' (fun x hx => hi x (List.mem_cons_of_mem _ hx))
    have hd' : ∀ i ∈ is, ∀ j, t.index i = some j → (t.items.getD j emptyFifoItem).data ≠ none :=
      fun x hx => hd x (List.mem_cons_of_mem _ hx)
    rw [diskScan, hj]
    simp only
    split
    · exact ih s hc hcf hd'
    · split
      · rfl
      · split
        · rfl
        · split
          · exact ih _ hc hcf hd'
          · obtain ⟨⟨c, c'⟩, hw⟩ := Option.isSome_iff_exists.1 (ctWrite_isSome (t.items.getD j emptyFifoItem) hc hcf)
            rw [hw]
            cases c with
            | error => rfl
            | ok =>
              rcases ctWrite_spec hc (hd i List.mem_cons_self j hj) hw with ⟨h, -⟩ | ⟨-, -, hwf, hs, -⟩
              · cases h
              · exact ih _ hwf (by unfold CircularTable.Fits; rw [hs]; exact hcf) hd'

theorem scanRecords_skip {s : Scan} (ys : List Record) : ∀ (xs : List Record), (∀ x ∈ xs, x.id < s.nextid) →
    scanRecords (xs ++ ys) s = scanRecords ys s
  | [], _ => rfl
  | x :: xs, h => by
    rw [List.cons_append, scanRecords, if_pos (h x List.mem_cons_self)]
    exact scanRecords_skip ys xs (fun y hy => h y (List.mem_cons_of_mem _ hy))

/-- **Behind the first item found**, the scan copies consecutive records to the client table while there is room. -/
theorem scanRecords_copy : ∀ (xs : List Record) (s s' : Scan) (cs : List Record) (n : Nat), s.client.Holds cs →
    s.k ≠ 0 → Consecutive n xs → s.nextid = (n + 1) % 2 ^ 32 → (∀ x ∈ xs, x.id < 2 ^ 32) →
    s.nextIdInClientTable = n + 1 → scanRecords xs s = some s' →
    ∃ ys zs, xs = ys ++ zs ∧ s'.client.Holds (cs ++ ys) ∧ s'.client.size = s.client.size ∧ s'.item = s.item ∧
      s'.k ≠ 0 ∧ s'.retcode = s.retcode ∧ s'.nextIdInClientTable = seenId n ys + 1
  | [], s, s', cs, n, hc, hk, _, _, _, hnx, hs => by
    obtain rfl := Option.some.inj hs
    exact ⟨[], [], rfl, by simpa using hc, rfl, rfl, hk, rfl, hnx⟩
  | x :: xs, s, s', cs, n, hc, hk, hcon, hnext, hlt, hnx, hs => by
    obtain ⟨hid, hcon⟩ := hcon
    have hxlt := hlt x List.mem_cons_self
    have hnid : s.nextid = x.id := by rw [hnext, ← hid, Nat.mod_eq_of_lt hxlt]
    rw [scanRecords, if_neg (by omega), if_neg (by omega), if_neg hk] at hs
    cases hw : ctWrite s.client x.item with
    | none => rw [hw] at hs; cases hs
    | some p =>
      obtain ⟨c, c'⟩ := p
      rw [hw] at hs
      rcases hc.write hw with ⟨rfl, -, -⟩ | ⟨rfl, -, hc', hsize⟩
      · obtain rfl := Option.some.inj hs
        exact ⟨[], x :: xs, rfl, by simpa using hc, rfl, rfl, hk, rfl, hnx⟩
      · obtain ⟨ys, zs, rfl, h1, h2, h3, h4, h5, h6⟩ := scanRecords_copy xs _ s' (cs ++ [x]) x.id hc'
          (Nat.succ_ne_zero _) hcon (by simp [hnid]) (fun y hy => hlt y (List.mem_cons_of_mem _ hy)) rfl hs
        exact ⟨x :: ys, zs, rfl, by simpa using h1, h2.trans hsize, h3, h4, h5, by rw [h6, seenId_cons]⟩

/-! ## `ct_load` -/

/-- The records `ct_load` takes: those not below the id, all of them for id 0. -/
def wanted (id : Nat) (rs : List Record) : List Record := rs.filter (fun r => decide (id ≤ r.id))

/-- **Loading complete records**: the table takes the wanted ones and either fills up, or the loop goes on behind
them; only an index sum that does not fit is in the way. -/
theorem ctLoad_records {alloc : Nat → Bool} {id : Nat} (ha : ∀ i, alloc i = true) (hid : id ≠ 0) :
    ∀ (rs : List Record) (n k : Nat) (before after : Bytes) (t : CircularTable) (cs : List Record),
      t.Holds cs → (∀ r ∈ rs, r.Ok) →
      (¬ t.Fits ∧ ctLoad alloc (n + rs.length) (Fd.between before (encode rs ++ after)) t id k = none) ∨
      (∃ l xs ys, ctLoad alloc (n + rs.length) (Fd.between before (encode rs ++ after)) t id k = some l ∧
        rs = xs ++ ys ∧ l.code = -3 ∧ l.table.Holds (cs ++ wanted id xs) ∧ l.table.size = t.size ∧
        (cs ++ wanted id xs).length = t.size) ∨
      (∃ t' k', t'.Holds (cs ++ wanted id rs) ∧ t'.size = t.size ∧
        ctLoad alloc (n + rs.length) (Fd.between before (encode rs ++ after)) t id k =
          ctLoad alloc n (Fd.between (before ++ encode rs) after) t' id k')
  | [], n, k, before, after, t, cs, hc, _ => by
    exact .inr (.inr ⟨t, k, by simpa [wanted] using hc, rfl, by simp⟩)
  | r :: rs, n, k, before, after, t, cs, hc, hok => by
    have hr := hok r List.mem_cons_self
    have ih := fun k t' cs' ht => ctLoad_records ha hid rs n k (before ++ r.bytes) after t' cs' ht
      (fun x hx => hok x (List.mem_cons_of_mem _ hx))
    have henc : before ++ encode (r :: rs) = before ++ r.bytes ++ encode rs := by
      rw [encode_cons, List.append_assoc]
    have hsize : r.header.size = r.data.length := rfl
    rw [List.length_cons, ← Nat.add_assoc, ctLoad, henc]
    by_cases hfull : t.nItems = t.size
    · rw [if_pos hfull]
      refine .inr (.inl ⟨_, [], r :: rs, rfl, rfl, rfl, by simpa [wanted] using hc, rfl, ?_⟩)
      rw [wanted, List.filter_nil, List.append_nil, ← hfull, hc.nItems]
    · rw [if_neg hfull, encode_cons, List.append_assoc, read_record_header]
      simp only [SubHeader.length_bytes, hr.parse]
      rw [if_neg (by decide), if_neg (by simp), if_neg (by simp [Record.header])]
      by_cases hskip : r.id < id
      · rw [if_pos ⟨hid, hskip⟩, seek_record_data r before _ hr]
        have hw : ∀ l : List Record, wanted id (r :: l) = wanted id l := fun l =>
          List.filter_cons_of_neg (by simpa using hskip)
        rcases ih k t cs hc with h | ⟨l, xs, ys, h0, rfl, h1, h2, h3, h4⟩ | ⟨t', k', h1, h2, h3⟩
        · exact .inl h
        · exact .inr (.inl ⟨l, r :: xs, ys, h0, rfl, h1, by rw [hw]; exact h2, h3, by rw [hw]; exact h4⟩)
        · exact .inr (.inr ⟨t', k', by rw [hw]; exact h1, h2, h3⟩)
      · have hcons : ∀ l : List Record, wanted id (r :: l) = r :: wanted id l := fun l =>
          List.filter_cons_of_pos (by simpa using hskip)
        have hread : (Fd.between (before ++ r.header.bytes) (r.data ++ (encode rs ++ after))).read r.header.size =
            (r.data, Fd.between (before ++ r.bytes) (encode rs ++ after)) := by
          rw [Fd.read_between (n := r.header.size) _ _ rfl, Record.bytes, List.append_assoc]
        rw [if_neg (fun h => hskip h.2), if_neg (by simp [ha]), hread]
        simp only [hsize, hr.size_mod, ne_eq, not_true_eq_false, if_false]
        have hitem : (⟨r.data.length, some r.data, r.header.id⟩ : FifoItem) = r.item := rfl
        rw [hitem]
        cases hw : ctWrite t r.item with
        | none => exact .inl ⟨hc.write_none hw, rfl⟩
        | some p =>
          obtain ⟨c, t'⟩ := p
          rcases hc.write hw with ⟨-, hf, -⟩ | ⟨rfl, -, hc', hs⟩
          · rw [← hc.nItems] at hf
            exact absurd hf hfull
          · have hfits : t'.Fits ↔ t.Fits := by unfold CircularTable.Fits; rw [hs]
            rcases ih (k + 1) t' _ hc' with h | ⟨l, xs, ys, h0, rfl, h1, h2, h3, h4⟩ | ⟨t'', k', h1, h2, h3⟩
            · exact .inl ⟨fun hf => h.1 (hfits.2 hf), h.2⟩
            · refine .inr (.inl ⟨l, r :: xs, ys, h0, rfl, h1, ?_, h3.trans hs, ?_⟩)
              · rw [hcons]; simpa using h2
              · rw [hcons, ← hs]; simpa using h4
            · exact .inr (.inr ⟨t'', k', by rw [hcons]; simpa using h1, h2.trans hs, h3⟩)

theorem ctLoad_nil {alloc : Nat → Bool} {id : Nat} (n k : Nat) (before : Bytes) (t : CircularTable) :
    ctLoad alloc (n + 1) (Fd.between before []) t id k =
      some ⟨if t.nItems = t.size then -3 else 0, Fd.between before [], t⟩ := by
  rw [ctLoad, read_header_nil]
  split <;> simp

end Perm
end Flp
