import FlpPrototype.PermFifo.Operations
import Mathlib.Data.List.TakeWhile
/-!
# Consume — reading and acknowledging

When the client table is empty the next record comes from the disk table, if its first unread record is there, and from
the file otherwise (`scan_cases`); the file then holds it behind `lastOutOffset` (`load_cases`).  An acknowledgement
takes records away from the front of all there are.
-/
namespace Flp
namespace Perm

open CircularTable

variable {f f' : PermFifo} {size : Nat} {hdr : MainHeader} {p p' : Parts} {e : Env}

theorem wanted_succ (a : Nat) (rs : List Record) : wanted (a + 1) rs = rs.filter (fun r => decide (a < r.id)) := rfl

theorem mem_wanted_succ {a : Nat} {rs : List Record} {r : Record} : r ∈ wanted (a + 1) rs ↔ r ∈ rs ∧ a < r.id := by
  rw [wanted_succ, List.mem_filter, decide_eq_true_iff]

theorem wanted_append (id : Nat) (xs ys : List Record) : wanted id (xs ++ ys) = wanted id xs ++ wanted id ys :=
  List.filter_append ..

/-- Where the unread records are: nothing before `ahead` is unread unless the client table has it. -/
theorem Readable.later_eq (h : Readable f size p) (hc : p.client = []) :
    p.later = wanted (f.lastIdOut + 1) p.ahead ++ wanted (f.lastIdOut + 1) p.unsaved := by
  have hp : wanted (f.lastIdOut + 1) p.all = p.later := by
    rw [wanted_succ, h.pending, Parts.pending, hc, List.nil_append]
  have hgone : wanted (f.lastIdOut + 1) p.gone = [] :=
    List.filter_eq_nil_iff.2 (fun r hr => by have := h.gone_le r hr; simp; omega)
  have hscan : wanted (f.lastIdOut + 1) p.scanned = [] := by
    refine List.filter_eq_nil_iff.2 (fun r hr hlt => h.scanned_not r hr ?_)
    rw [← hp]
    exact List.mem_filter.2 ⟨by simp [Parts.all, Parts.saved, hr], hlt⟩
  rw [← hp, Parts.all, Parts.saved, wanted_append, wanted_append, wanted_append, hgone, hscan]
  simp

theorem Readable.read {r : Record} (h : Readable f size p) (hall : p'.all = p.all)
    (hgone : p'.gone = p.gone) (hsaved : p'.saved = p.saved) (hun : p'.unsaved = p.unsaved)
    (hp : p.pending = r :: p'.pending) (hclient : f'.tableClient.Holds p'.client) (hsize : f'.tableClient.size = size)
    (hcur : f'.currentId = f.currentId) (hout : f'.lastIdOut = r.id) (hscan : ∀ x ∈ p'.scanned, x ∉ p'.later)
    (hnext : f'.nextIdInClientTable ≤ f.currentId + 1)
    (heq : f'.nextIdInClientTable = f.currentId + 1 → p'.later = []) : Readable f' size p' := by
  have hf := h.pending
  rw [hp] at hf
  have hr : r ∈ p.all.filter (fun x => decide (f.lastIdOut < x.id)) := by rw [hf]; exact List.mem_cons_self
  obtain ⟨hrall, hrlt⟩ := List.mem_filter.1 hr
  have hrlt : f.lastIdOut < r.id := by simpa using hrlt
  refine ⟨hclient, hsize, ?_, ?_, ?_, ?_, ?_, ?_, hscan, ?_, ?_, ?_⟩
  · rw [hall]; exact h.ok
  · rw [hall]; exact h.increasing
  · rw [hcur, hall]; exact h.current
  · rw [hall, hout]; exact (h.increasing.next hf).1
  · rw [hout, hcur, h.current]; exact h.increasing.id_le_lastId r hrall
  · intro x hx
    rw [hgone] at hx
    have := h.gone_le x hx
    omega
  · rw [hgone, hsaved, hun]; exact h.consecutive
  · rw [hcur]; exact hnext
  · rw [hcur]; exact heq

/-! ## Where the next record comes from -/

theorem mustWait_iff (h : Readable f size p) : mustWait f = true ↔ p.pending = [] := by
  unfold mustWait
  rw [decide_eq_true_iff, h.current, ← filter_above_eq_nil h.increasing, h.pending]

/-- What the last id seen from `n` on says about the ids behind it. -/
theorem seenId_mem (n : Nat) (rs : List Record) : rs = [] ∧ seenId n rs = n ∨ ∃ r ∈ rs, seenId n rs = r.id := by
  by_cases h : rs = []
  · exact .inl ⟨h, by simp [seenId, h]⟩
  · obtain ⟨r, hr, hid⟩ := lastId_mem h
    exact .inr ⟨r, hr, by rw [seenId, if_neg h, hid]⟩

/-- **The scan of the disk table** finds the next record there with those behind it, or leaves everything as it is and
the next record is in the file. -/
theorem scan_cases {t : CircularTable} {s : Scan} {r : Record} {rest : List Record} (h : Inv f size hdr p)
    (he : e.Succeeds) (hid : f.currentId < 2 ^ 32) (ht : f.tableDisk = some t) (hc : p.client = [])
    (hl : p.later = r :: rest)
    (hs : diskScan e.alloc t (List.range t.nItems)
      ⟨f.tableClient, emptyFifoItem, 0, f.nextIdInClientTable, (f.lastIdOut + 1) % 2 ^ 32, 0⟩ = some s) :
    (s.k ≠ 0 ∧ s.retcode = 0 ∧ s.item = r.item ∧ ∃ ys zs, rest = ys ++ zs ∧ s.client.Holds ys ∧
      s.client.size = size ∧ s.nextIdInClientTable = seenId r.id ys + 1) ∨
    (s = ⟨f.tableClient, emptyFifoItem, 0, f.nextIdInClientTable, (f.lastIdOut + 1) % 2 ^ 32, 0⟩ ∧
      wanted (f.lastIdOut + 1) p.ahead ≠ []) := by
  have hrd := h.readable
  obtain ⟨t', ht', hold, -⟩ := h.stored.disk
  obtain rfl := Option.some.inj (ht'.symm.trans ht)
  have hscan := diskScan_spec he.1 hold hs
  have hinc : Increasing ((p.gone ++ p.saved) ++ p.unsaved) := by
    rw [List.append_assoc]
    exact hrd.increasing
  have hlater := hrd.later_eq hc
  have hrmem : r ∈ p.all := by
    have : r ∈ p.all.filter (fun x => decide (f.lastIdOut < x.id)) := by
      rw [hrd.pending, Parts.pending, hc, hl]
      exact List.mem_cons_self
    exact (List.mem_filter.1 this).1
  have hnext : (f.lastIdOut + 1) % 2 ^ 32 = f.lastIdOut + 1 := by
    have : r.id ≤ f.currentId := by rw [hrd.current]; exact hrd.increasing.id_le_lastId r hrmem
    have : f.lastIdOut < r.id := by
      have : r ∈ p.all.filter (fun x => decide (f.lastIdOut < x.id)) := by
        rw [hrd.pending, Parts.pending, hc, hl]
        exact List.mem_cons_self
      simpa using (List.mem_filter.1 this).2
    exact Nat.mod_eq_of_lt (by omega)
  by_cases hahead : wanted (f.lastIdOut + 1) p.ahead = []
  · left
    -- everything before the disk table was read, so the first unread record is the next id
    rw [hahead, List.nil_append, hl] at hlater
    have hsplit := hinc.right.split f.lastIdOut
    rw [← wanted_succ, ← hlater] at hsplit
    generalize hlow : p.unsaved.filter (fun x => decide (x.id ≤ f.lastIdOut)) = low at hsplit
    have hlowle : ∀ x ∈ low, x.id ≤ f.lastIdOut := fun x hx => by
      rw [← hlow] at hx
      simpa using (List.mem_filter.1 hx).2
    have hcon := hrd.consecutive
    rw [hsplit, Consecutive.append] at hcon
    obtain ⟨-, hrid, hrest⟩ := hcon
    have hrlt : f.lastIdOut < r.id := by
      have : r ∈ wanted (f.lastIdOut + 1) p.unsaved := by rw [← hlater]; exact List.mem_cons_self
      exact (mem_wanted_succ.1 this).2
    have hbefore : lastId (p.gone ++ p.saved) ≤ f.lastIdOut := by
      rw [← filter_above_eq_nil hinc.left, List.filter_eq_nil_iff]
      intro x hx hlt
      have hxl : x ∈ p.later := by
        have : x ∈ p.all.filter (fun y => decide (f.lastIdOut < y.id)) :=
          List.mem_filter.2 ⟨by rw [Parts.all, ← List.append_assoc]; exact List.mem_append_left _ hx, hlt⟩
        rw [hrd.pending, Parts.pending, hc] at this
        exact this
      rw [hl, hlater] at hxl
      have := hinc.lt_of_append x hx x (List.mem_of_mem_filter hxl)
      exact absurd this (Nat.lt_irrefl _)
    have hseen : seenId (lastId (p.gone ++ p.saved)) low ≤ f.lastIdOut := by
      rcases seenId_mem (lastId (p.gone ++ p.saved)) low with ⟨-, heq⟩ | ⟨x, hx, heq⟩
      · rw [heq]; exact hbefore
      · rw [heq]; exact hlowle x hx
    have hrid' : r.id = f.lastIdOut + 1 := by omega
    have hlt32 : ∀ x ∈ p.unsaved, x.id < 2 ^ 32 := fun x hx => by
      have : x.id ≤ lastId p.all := hrd.increasing.id_le_lastId x (by simp [Parts.all, hx])
      rw [← hrd.current] at this
      omega
    rw [hsplit, scanRecords_skip _ low (fun x hx => by have := hlowle x hx; simp only [hnext]; omega), scanRecords,
      if_neg (by simp only [hnext]; omega), if_neg (by simp only [hnext]; omega), if_pos rfl] at hscan
    have hempty : f.tableClient.Holds [] := by rw [← hc]; exact hrd.client
    obtain ⟨ys, zs, h1, h2, h3, h4, h5, h6, h7⟩ := scanRecords_copy rest _ s [] r.id hempty (Nat.succ_ne_zero _) hrest
      (by simp only [hnext, hrid']) (fun x hx => hlt32 x (by rw [hsplit]; simp [hx])) rfl hscan
    exact ⟨h5, h6, h4, ys, zs, h1, by simpa using h2, h3.trans hrd.size_eq, h7⟩
  · right
    refine ⟨?_, hahead⟩
    -- a record of the file is unread, so the disk table starts behind the next id
    obtain ⟨x, hx⟩ := List.exists_mem_of_ne_nil _ hahead
    obtain ⟨hxa, hxlt⟩ := mem_wanted_succ.1 hx
    cases hun : p.unsaved with
    | nil =>
      rw [hun] at hscan
      exact (Option.some.inj hscan).symm
    | cons u us =>
      have hxu : x.id < u.id :=
        hinc.lt_of_append x (by simp [Parts.saved, hxa]) u (by rw [hun]; exact List.mem_cons_self)
      rw [hun, scanRecords, if_neg (by simp only [hnext]; omega), if_pos (by simp only [hnext]; omega)] at hscan
      exact (Option.some.inj hscan).symm

/-- **The load from the file**, when a record ahead is unread: the table takes a first part of them, and
`lastOutOffset` moves behind all or stays. -/
theorem load_cases (h : Inv f size hdr p) (he : e.Succeeds) (hc : p.client = [])
    (ha : wanted (f.lastIdOut + 1) p.ahead ≠ []) :
    (¬ size ≤ 2 ^ 30 ∧ ctLoad e.alloc ((hdr.bytes ++ encode p.saved).length + 1)
      ⟨hdr.bytes ++ encode p.saved, f.lastOutOffset⟩ f.tableClient (f.lastIdOut + 1) 0 = none) ∨
    ∃ l xs ys scanned ahead, ctLoad e.alloc ((hdr.bytes ++ encode p.saved).length + 1)
      ⟨hdr.bytes ++ encode p.saved, f.lastOutOffset⟩ f.tableClient (f.lastIdOut + 1) 0 = some l ∧
      p.ahead = xs ++ ys ∧ l.table.Holds (wanted (f.lastIdOut + 1) xs) ∧ l.table.size = size ∧
      wanted (f.lastIdOut + 1) xs ≠ [] ∧ scanned ++ ahead = p.saved ∧
      (if l.code = 0 then l.fd.pos else f.lastOutOffset) = headerSize + (encode scanned).length ∧
      (∀ x ∈ scanned, x ∈ p.scanned ∨ x ∈ xs) := by
  have hrd := h.readable
  have hoff := h.stored.offset
  have hempty : f.tableClient.Holds [] := by rw [← hc]; exact hrd.client
  have hfd : (⟨hdr.bytes ++ encode p.saved, f.lastOutOffset⟩ : Fd) =
      Fd.between (hdr.bytes ++ encode p.scanned) (encode p.ahead ++ []) := by
    simp [Fd.between, Parts.saved, hoff]
  have hlen : ∃ n, (hdr.bytes ++ encode p.saved).length + 1 = n + 1 + p.ahead.length := by
    have := length_encode_le p.ahead
    refine ⟨(hdr.bytes ++ encode p.saved).length - p.ahead.length, ?_⟩
    simp only [Parts.saved, encode_append, List.length_append, MainHeader.length_bytes]
    omega
  obtain ⟨n, hn⟩ := hlen
  rw [hn, hfd]
  rcases ctLoad_records he.1 (Nat.succ_ne_zero f.lastIdOut) p.ahead (n + 1) 0 (hdr.bytes ++ encode p.scanned) []
      f.tableClient [] hempty (fun r hr => hrd.ok r (by simp [Parts.all, Parts.saved, hr])) with
    ⟨hnf, hl⟩ | ⟨l, xs, ys, hl, heq, hcode, hold, hsize, hfull⟩ | ⟨t, k, hold, hsize, hl⟩
  · refine .inl ⟨?_, hl⟩
    unfold CircularTable.Fits at hnf
    rwa [hrd.size_eq] at hnf
  · refine .inr ⟨l, xs, ys, p.scanned, p.ahead, hl, heq, by simpa using hold, hsize.trans hrd.size_eq, ?_, rfl, ?_,
      fun x hx => .inl hx⟩
    · intro hnil
      rw [hnil] at hfull
      exact absurd hfull (Nat.ne_of_lt hempty.wf.pos)
    · rw [if_neg (by rw [hcode]; decide)]
      exact hoff
  · rw [ctLoad_nil] at hl
    by_cases hfull : t.nItems = t.size
    · rw [if_pos hfull] at hl
      exact .inr
        ⟨_, p.ahead, [], p.scanned, p.ahead, hl, by simp, by simpa using hold, hsize.trans hrd.size_eq, ha, rfl,
        hoff, fun x hx => .inl hx⟩
    · rw [if_neg hfull] at hl
      refine .inr ⟨_, p.ahead, [], p.saved, [], hl, by simp, by simpa using hold, hsize.trans hrd.size_eq, ha, by simp,
        by simp [Fd.between, Parts.saved], fun x hx => by simpa [Parts.saved] using hx⟩

/-! ## `permFIFO_read` -/

/-- What a read gives: nothing when every record was read, the first unread one otherwise. -/
def ReadGives (f f' : PermFifo) (size : Nat) (hdr : MainHeader) (p : Parts) (code : Int) (item : FifoItem) : Prop :=
  (code ≠ 0 ∧ p.pending = [] ∧ f' = f) ∨
  ∃ r p', code = 0 ∧ item = r.item ∧ p.pending = r :: p'.pending ∧ Inv f' size hdr p' ∧ p'.all = p.all ∧
    p'.gone = p.gone ∧ p'.saved = p.saved ∧ p'.unsaved = p.unsaved ∧ f'.lastIdOut = r.id ∧ f'.currentId = f.currentId

theorem Stored.moved (h : Stored f size hdr p) (hsaved : p'.saved = p.saved) (hun : p'.unsaved = p.unsaved)
    (hdisk : f'.tableDisk = f.tableDisk) (hfile : f'.file = f.file) (hon : f'.lastIdOnDisk = f.lastIdOnDisk)
    (hack : f'.ackOnDisk = f.ackOnDisk) (hoff : f'.lastOutOffset = headerSize + (encode p'.scanned).length) :
    Stored f' size hdr p' where
  disk := by rw [hdisk, hun]; exact h.disk
  file := by rw [hfile, hsaved]; exact h.file
  offset := hoff
  nonempty := by rw [hun]; exact h.nonempty
  onDisk := by rw [hon, hsaved]; exact h.onDisk
  ackOnDisk := by rw [hack, hsaved]; exact h.ackOnDisk

/-- The ids that follow the last one given to the client table. -/
theorem seenId_le {r : Record} {ys zs : List Record} (h : Increasing (r :: (ys ++ zs))) :
    seenId r.id ys ≤ lastId (r :: (ys ++ zs)) ∧ (seenId r.id ys = lastId (r :: (ys ++ zs)) → zs = []) := by
  have hmem : ∃ x ∈ r :: ys, x.id = seenId r.id ys := by
    rcases seenId_mem r.id ys with ⟨-, heq⟩ | ⟨x, hx, heq⟩
    · exact ⟨r, List.mem_cons_self, heq.symm⟩
    · exact ⟨x, List.mem_cons_of_mem _ hx, heq.symm⟩
  obtain ⟨x, hx, hid⟩ := hmem
  rw [← List.cons_append] at h ⊢
  refine ⟨by rw [← hid]; exact h.id_le_lastId x (List.mem_append_left _ hx), fun heq => ?_⟩
  by_contra hne
  obtain ⟨z, hz, hzid⟩ := lastId_mem hne
  have := h.lt_of_append x hx z hz
  rw [lastId_append, if_neg hne, ← hzid, ← hid] at heq
  omega

theorem Readable.lastId_pending (h : Readable f size p) (hne : p.pending ≠ []) :
    Increasing p.pending ∧ lastId p.pending = f.currentId := by
  have hsplit := h.increasing.split f.lastIdOut
  rw [h.pending] at hsplit
  refine ⟨?_, ?_⟩
  · rw [← h.pending]
    exact List.Pairwise.filter _ h.increasing
  · rw [h.current]
    conv => rhs; rw [hsplit]
    rw [lastId_append, if_neg hne]

theorem read_of_scan {s : Scan} {r : Record} {ys zs : List Record} (h : Inv f size hdr p) (hc : p.client = [])
    (hl : p.later = r :: (ys ++ zs)) (hold : s.client.Holds ys) (hsize : s.client.size = size)
    (hnext : s.nextIdInClientTable = seenId r.id ys + 1) (hitem : s.item = r.item) :
    ReadGives f { f with
      tableClient := s.client, nextIdInClientTable := s.nextIdInClientTable, lastIdOut := s.item.id }
      size hdr p 0 s.item := by
  have hpend : p.pending = r :: (ys ++ zs) := by rw [Parts.pending, hc, List.nil_append, hl]
  obtain ⟨hinc, hlast⟩ := h.readable.lastId_pending (by rw [hpend]; simp)
  rw [hpend] at hinc hlast
  obtain ⟨hle, heq⟩ := seenId_le hinc
  rw [hlast] at hle heq
  refine .inr ⟨r, { p with client := ys, later := zs }, rfl, hitem, hpend, ⟨?_, ?_⟩, rfl, rfl, rfl, rfl,
    by rw [hitem]; rfl, rfl⟩
  · exact h.stored.moved rfl rfl rfl rfl rfl rfl h.stored.offset
  · refine h.readable.read rfl rfl rfl rfl hpend hold hsize rfl (by rw [hitem]; rfl) ?_ ?_ ?_
    · intro x hx hz
      exact h.readable.scanned_not x hx (by rw [hl]; simp [show x ∈ zs from hz])
    · show s.nextIdInClientTable ≤ f.currentId + 1
      omega
    · intro hn
      have hn : s.nextIdInClientTable = f.currentId + 1 := hn
      exact heq (by omega)

theorem read_of_file {code : Int} {item : FifoItem} (h : Inv f size hdr p) (he : e.Succeeds) (hc : p.client = [])
    (ha : wanted (f.lastIdOut + 1) p.ahead ≠ []) (hr : readFromFile e f = some (code, item, f')) :
    ReadGives f f' size hdr p code item := by
  have hrd := h.readable
  unfold readFromFile at hr
  simp only [h.stored.file] at hr
  rcases load_cases h he hc ha with ⟨-, hl⟩ | ⟨l, xs, ys, scanned, ahead, hl, hahead, hold, hsize, hne, hsa, hoff, hmem⟩
  · simp only [hl] at hr
    cases hr
  · simp only [hl, hoff] at hr
    cases hread : ctRead l.table with
    | none => exact absurd (hold.read_none.1 hread) hne
    | some q =>
      obtain ⟨x, c'⟩ := q
      obtain ⟨r, cs, hcs, rfl, hold', hsize'⟩ := hold.read hread
      simp only [hread] at hr
      cases hi : l.table.lastIndex with
      | none =>
        simp only [hi] at hr
        cases hr
      | some i =>
        simp only [hi] at hr
        obtain ⟨rfl, hrest⟩ := Prod.mk.inj (Option.some.inj hr)
        obtain ⟨rfl, rfl⟩ := Prod.mk.inj hrest
        have hlater : p.later = r :: (cs ++ (wanted (f.lastIdOut + 1) ys ++ wanted (f.lastIdOut + 1) p.unsaved)) := by
          rw [hrd.later_eq hc, hahead, wanted_append, hcs]
          simp
        generalize hzs : wanted (f.lastIdOut + 1) ys ++ wanted (f.lastIdOut + 1) p.unsaved = zs at hlater
        have hlast : (l.table.items.getD i emptyFifoItem).id = seenId r.id cs := by
          obtain ⟨us, u, hu⟩ := (List.eq_nil_or_concat (wanted (f.lastIdOut + 1) xs)).resolve_left hne
          rw [List.concat_eq_append] at hu
          have hseen : seenId 0 (r :: cs) = u.id := by
            rw [← hcs, hu, seenId, if_neg (by simp), lastId_append_singleton]
          rw [hu] at hold
          rw [hold.getD_lastIndex hi, Record.item_id, ← hseen, seenId_cons]
        have hpend : p.pending = r :: (cs ++ zs) := by rw [Parts.pending, hc, List.nil_append, hlater]
        obtain ⟨hinc, hlid⟩ := hrd.lastId_pending (by rw [hpend]; simp)
        rw [hpend] at hinc hlid
        obtain ⟨hle, heq⟩ := seenId_le hinc
        rw [hlid] at hle heq
        have hsaved : Parts.saved { p with scanned := scanned, ahead := ahead, client := cs, later := zs } = p.saved :=
          hsa
        have hall : Parts.all { p with scanned := scanned, ahead := ahead, client := cs, later := zs } = p.all := by
          unfold Parts.all
          rw [hsaved]
        refine .inr ⟨r, { p with scanned := scanned, ahead := ahead, client := cs, later := zs }, rfl, rfl, hpend,
          ⟨?_, ?_⟩, hall, rfl, hsaved, rfl, rfl, rfl⟩
        · exact h.stored.moved hsaved rfl rfl h.stored.file.symm rfl rfl rfl
        · refine hrd.read hall rfl hsaved rfl hpend hold' (hsize'.trans hsize) rfl rfl ?_ ?_ ?_
          · intro x hx hz
            have hz : x ∈ zs := hz
            rcases hmem x hx with hx | hx
            · exact hrd.scanned_not x hx (by rw [hlater]; simp [hz])
            · -- what was loaded lies before what is still to come
              have hinc' : Increasing (p.gone ++ p.scanned ++ xs ++ (ys ++ p.unsaved)) := by
                have := hrd.increasing
                simpa [Parts.all, Parts.saved, hahead] using this
              have hz' : x ∈ ys ++ p.unsaved := by
                rw [← hzs] at hz
                rcases List.mem_append.1 hz with hz | hz
                · exact List.mem_append_left _ (mem_wanted_succ.1 hz).1
                · exact List.mem_append_right _ (mem_wanted_succ.1 hz).1
              have := hinc'.lt_of_append x (by simp [hx]) x hz'
              exact absurd this (Nat.lt_irrefl _)
          · show (l.table.items.getD i emptyFifoItem).id + 1 ≤ f.currentId + 1
            omega
          · intro hn
            have hn : (l.table.items.getD i emptyFifoItem).id + 1 = f.currentId + 1 := hn
            exact heq (by omega)

theorem Parts.later_of_pending (hc : p.client = []) (hpend : p.pending ≠ []) : ∃ r rest, p.later = r :: rest := by
  cases hlater : p.later with
  | nil => exact absurd (by rw [Parts.pending, hc, hlater]; rfl) hpend
  | cons r rest => exact ⟨r, rest, rfl⟩

/-- **Reading** returns the first unread record, and a non-zero code only when there is none. -/
theorem Inv.read {code : Int} {item : FifoItem} (h : Inv f size hdr p) (he : e.Succeeds) (hid : f.currentId < 2 ^ 32)
    (hr : permFifoRead e f = some (code, item, f')) : ReadGives f f' size hdr p code item := by
  have hrd := h.readable
  unfold permFifoRead at hr
  by_cases hwait : mustWait f = true
  · rw [if_pos hwait] at hr
    obtain ⟨rfl, hrest⟩ := Prod.mk.inj (Option.some.inj hr)
    obtain ⟨rfl, rfl⟩ := Prod.mk.inj hrest
    exact .inl ⟨by decide, (mustWait_iff hrd).1 hwait, rfl⟩
  · rw [if_neg hwait] at hr
    have hpend : p.pending ≠ [] := fun hn => hwait ((mustWait_iff hrd).2 hn)
    cases hcl : ctRead f.tableClient with
    | some q =>
      obtain ⟨x, c⟩ := q
      simp only [hcl] at hr
      obtain ⟨rfl, hrest⟩ := Prod.mk.inj (Option.some.inj hr)
      obtain ⟨rfl, rfl⟩ := Prod.mk.inj hrest
      obtain ⟨r, cs, hcs, rfl, hold, hsize⟩ := hrd.client.read hcl
      have hp : p.pending = r :: Parts.pending { p with client := cs } := by rw [Parts.pending, hcs]; rfl
      refine .inr ⟨r, { p with client := cs }, rfl, rfl, hp, ⟨?_, ?_⟩, rfl, rfl, rfl, rfl, rfl, rfl⟩
      · exact h.stored.moved rfl rfl rfl rfl rfl rfl h.stored.offset
      · exact hrd.read rfl rfl rfl rfl hp hold (hsize.trans hrd.size_eq) rfl rfl hrd.scanned_not hrd.next_le hrd.next_eq
    | none =>
      have hc : p.client = [] := hrd.client.read_none.1 hcl
      obtain ⟨r, rest, hl⟩ := Parts.later_of_pending hc hpend
      obtain ⟨t, ht, -⟩ := h.stored.disk
      simp only [hcl] at hr
      split at hr
      · rename_i hnone
        rw [ht] at hnone
        cases hnone
      · rename_i t' ht'
        split at hr
        · cases hr
        · rename_i s hs
          rcases scan_cases h he hid ht' hc hl hs with ⟨hk, hret, hitem, ys, zs, rfl, hold, hsize, hnext⟩ | ⟨rfl, ha⟩
          · rw [if_neg (fun hn => hk hn.1), if_pos hret] at hr
            obtain ⟨rfl, hrest⟩ := Prod.mk.inj (Option.some.inj hr)
            obtain ⟨rfl, rfl⟩ := Prod.mk.inj hrest
            exact read_of_scan h hc hl hold hsize hnext hitem
          · rw [if_pos ⟨rfl, rfl⟩] at hr
            exact read_of_file h he hc ha hr

theorem permFifoRead_isSome (h : Inv f size hdr p) (he : e.Succeeds) (hid : f.currentId < 2 ^ 32)
    (hf : size ≤ 2 ^ 30) : (permFifoRead e f).isSome = true := by
  have hrd := h.readable
  unfold permFifoRead
  by_cases hwait : mustWait f = true
  · rw [if_pos hwait]
    rfl
  · rw [if_neg hwait]
    have hpend : p.pending ≠ [] := fun hn => hwait ((mustWait_iff hrd).2 hn)
    cases hcl : ctRead f.tableClient with
    | some q => rfl
    | none =>
      have hc : p.client = [] := hrd.client.read_none.1 hcl
      obtain ⟨r, rest, hl⟩ := Parts.later_of_pending hc hpend
      obtain ⟨t, ht, hold, hsize⟩ := h.stored.disk
      have hscan := @diskScan_isSome e.alloc t hold.wf (by unfold CircularTable.Fits; omega)
        (List.range t.nItems)
        ⟨f.tableClient, emptyFifoItem, 0, f.nextIdInClientTable, (f.lastIdOut + 1) % 2 ^ 32, 0⟩
        (fun i hi => Nat.le_trans (Nat.le_of_lt (List.mem_range.1 hi)) hold.wf.count) hrd.client.wf
        (by unfold CircularTable.Fits; rw [hrd.size_eq]; exact hf)
        (fun i hi j hj => by
          have hi : i < p.unsaved.length := by rw [← hold.nItems]; exact List.mem_range.1 hi
          rw [hold.getD_index hj (List.getElem?_eq_getElem hi)]
          exact Record.item_data_ne_none _)
      obtain ⟨s, hs⟩ := Option.isSome_iff_exists.1 hscan
      dsimp only
      split
      · rfl
      · rename_i t' ht'
        obtain rfl := Option.some.inj (ht.symm.trans ht')
        simp only [hs]
        rcases scan_cases h he hid ht hc hl hs with ⟨hk, hret, -⟩ | ⟨rfl, ha⟩
        · rw [if_neg (fun hn => hk hn.1), if_pos hret]
          rfl
        · rw [if_pos ⟨rfl, rfl⟩]
          unfold readFromFile
          simp only [h.stored.file]
          rcases load_cases h he hc ha with ⟨hnf, -⟩ | ⟨l, xs, ys, sc, ah, hload, -, hold', hsize', -⟩
          · exact absurd hf hnf
          · obtain ⟨i, hi⟩ := Option.isSome_iff_exists.1
              (hold'.lastIndex_isSome (by unfold CircularTable.Fits; omega))
            simp only [hload, hi]
            cases ctRead l.table <;> rfl

/-! ## `permFIFO_ack` -/

/-- The header an acknowledgement leaves: unchanged when nothing is on disk. -/
def ackHeader (hdr : MainHeader) (p : Parts) (id : Nat) : MainHeader :=
  if p.saved = [] then hdr else ⟨fifoFileTag, id, lastId p.saved⟩

theorem Increasing.dropWhile_of_lt {id : Nat} : ∀ {rs : List Record}, (∀ r ∈ rs, id < r.id) →
    rs.dropWhile (fun r => decide (r.id ≤ id)) = rs
  | [], _ => rfl
  | r :: rs, h => List.dropWhile_cons_of_neg (by simpa using h r List.mem_cons_self)

theorem Increasing.dropWhile_gt (id : Nat) : ∀ {rs : List Record}, Increasing rs →
    ∀ r ∈ rs.dropWhile (fun r => decide (r.id ≤ id)), id < r.id
  | x :: rs, h, r, hr => by
    by_cases hx : x.id ≤ id
    · rw [List.dropWhile_cons_of_pos (by simpa using hx)] at hr
      exact h.of_cons.dropWhile_gt id r hr
    · rw [List.dropWhile_cons_of_neg (by simpa using hx)] at hr
      rcases List.mem_cons.1 hr with rfl | hr
      · omega
      · have := List.rel_of_pairwise_cons h hr
        omega

theorem Readable.ack {id : Nat} (h : Readable f size p) (hle : id ≤ f.lastIdOut) : Readable f size (p.ack id) := by
  by_cases hsaved : lastId p.saved ≤ id
  · refine ⟨?_, h.size_eq, ?_, ?_, ?_, ?_, h.lastIdOut_le, ?_, ?_, ?_, h.next_le, ?_⟩
    · unfold Parts.ack
      rw [if_pos hsaved]
      exact h.client
    · rw [Parts.all_ack]; exact h.ok
    · rw [Parts.all_ack]; exact h.increasing
    · rw [Parts.all_ack]; exact h.current
    · rw [Parts.all_ack, Parts.pending_ack]; exact h.pending
    · unfold Parts.ack
      rw [if_pos hsaved]
      intro r hr
      rcases List.mem_append.1 hr with hr | hr
      · exact h.gone_le r hr
      · rcases List.mem_append.1 hr with hr | hr
        · have hinc : Increasing p.saved := h.increasing.right.left
          exact Nat.le_trans (hinc.id_le_lastId r hr) (by omega)
        · have := List.mem_takeWhile_imp hr
          have : r.id ≤ id := by simpa using this
          omega
    · unfold Parts.ack
      rw [if_pos hsaved]
      intro r hr
      cases hr
    · unfold Parts.ack
      rw [if_pos hsaved]
      have hcon := h.consecutive
      rw [← List.takeWhile_append_dropWhile (p := fun r : Record => decide (r.id ≤ id)) (l := p.unsaved),
        Consecutive.append] at hcon
      simp only [Parts.saved, List.append_nil]
      rw [← List.append_assoc, lastId_append]
      exact hcon.2
    · intro hn
      unfold Parts.ack
      rw [if_pos hsaved]
      exact h.next_eq hn
  · unfold Parts.ack
    rw [if_neg hsaved]
    exact h

theorem Stored.ack {id : Nat} (h : Stored f size hdr p) (hrd : Readable f size p) :
    (permFifoAck f id).1 = 0 ∧ Stored (permFifoAck f id).2 size (ackHeader hdr p id) (p.ack id) ∧
      SameClient f (permFifoAck f id).2 := by
  obtain ⟨t, ht, hold, hsize⟩ := h.disk
  obtain ⟨hold', hsize'⟩ := ackLoop_spec id p.unsaved t hold
  rw [← hold.nItems] at hold' hsize'
  have hne : ∀ q, ∀ r ∈ p.unsaved.dropWhile q, r.data ≠ [] := fun q r hr =>
    h.nonempty r ((List.dropWhile_suffix _).subset hr)
  unfold permFifoAck
  simp only [ht]
  by_cases hon : p.saved = []
  · -- nothing on disk: the disk table alone changes
    have hoff : f.ackOnDisk = false := by
      have := h.ackOnDisk
      cases hb : f.ackOnDisk with
      | false => rfl
      | true => exact absurd hon (this.1 hb)
    have hz : lastId p.saved ≤ id := by rw [hon]; exact Nat.zero_le _
    rw [if_pos hoff]
    refine ⟨rfl, ?_, ⟨rfl, rfl, rfl, rfl⟩⟩
    unfold ackHeader Parts.ack
    rw [if_pos hon, if_pos hz]
    obtain ⟨hs, ha⟩ := List.append_eq_nil_iff.1 hon
    refine ⟨⟨_, rfl, hold', hsize'.trans hsize⟩, ?_, ?_, hne _, fun hn => absurd rfl hn, ?_⟩
    · rw [h.file, hon]
      rfl
    · rw [h.offset, hs]
    · simp [hoff, Parts.saved]
  · have hack : f.ackOnDisk = true := h.ackOnDisk.2 hon
    have hlast := h.onDisk hon
    rw [if_neg (by simp [hack])]
    simp only [h.file]
    unfold ackHeader ackFile Parts.ack
    rw [if_neg hon, hlast]
    by_cases hle : lastId p.saved ≤ id
    · simp only [if_pos hle]
      refine ⟨trivial, ⟨⟨_, rfl, hold', hsize'.trans hsize⟩, ?_, rfl, hne _, fun hn => absurd rfl hn, ?_⟩,
        ⟨rfl, rfl, rfl, rfl⟩⟩
      · have htake : (hdr.bytes ++ encode p.saved).take headerSize = hdr.bytes ++ [] := by
          rw [List.take_append_of_le_length (by simp), List.take_of_length_le (by simp), List.append_nil]
        rw [htake, Fd.overwrite_zero _ (by simp)]
        rfl
      · simp [Parts.saved]
    · simp only [if_neg hle]
      have hdrop : p.unsaved.dropWhile (fun r => decide (r.id ≤ id)) = p.unsaved := by
        refine Increasing.dropWhile_of_lt (fun r hr => ?_)
        obtain ⟨x, hx, hid⟩ := lastId_mem hon
        have := hrd.increasing.right.lt_of_append x hx r hr
        omega
      rw [hdrop] at hold'
      refine ⟨trivial, ⟨⟨_, rfl, hold', hsize'.trans hsize⟩, ?_, h.offset, h.nonempty, fun _ => rfl, h.ackOnDisk⟩,
        ⟨rfl, rfl, rfl, rfl⟩⟩
      rw [Fd.overwrite_zero _ (by simp)]

/-- **Acknowledging** keeps every record that is not covered. -/
theorem Inv.ack {id : Nat} (h : Inv f size hdr p) (hle : id ≤ f.lastIdOut) :
    (permFifoAck f id).1 = 0 ∧ Inv (permFifoAck f id).2 size (ackHeader hdr p id) (p.ack id) ∧
      SameClient f (permFifoAck f id).2 := by
  obtain ⟨hcode, hst, hsame⟩ : (permFifoAck f id).1 = 0 ∧ _ ∧ _ := h.stored.ack h.readable
  exact ⟨hcode, ⟨hst, (h.readable.ack hle).same hsame⟩, hsame⟩

end Perm
end Flp
