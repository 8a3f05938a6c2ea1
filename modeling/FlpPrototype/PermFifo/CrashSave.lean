import FlpPrototype.PermFifo.Torn
import FlpPrototype.PermFifo.Restart
import Mathlib.Data.List.Perm.Subperm
/-!
# CrashSave — a stop while the file is created or while records are saved

Creating the file is two operations, the creation and the write of the main header; saving is two operations for each
record, the write of its sub header and the write of its data.  A stop between two of these pairs leaves a well-formed
file.  A stop inside a pair does not: without its main header the file is never opened again, and behind a torn record
either cleaning fails or nothing written later is read.
-/
namespace Flp
namespace Perm

open CircularTable

/-- **Surviving**: a FIFO opened in `d` recovers `unacked` at the end of what it recovers, its reads return that and
everything written afterwards, and what is not acknowledged survives the next restart. -/
structure Survives (d : Dir FileName) (unacked : List Bytes) : Prop where
  opens : ∀ (e : Env) (size : Nat), 1 ≤ size → size ≤ 2 ^ 30 → ∃ f, permFifoNew e d size = some f ∧
    unacked <:+ (Session.start f).written.map Record.data
  delivers : ∀ (e : Env) (size : Nat) (f : PermFifo), 1 ≤ size → size ≤ 2 ^ 30 → permFifoNew e d size = some f →
    ∀ calls, Legal Session.step Session.Ok (Session.start f) calls →
      ∃ s, run Session.step (Session.start f) calls = some s ∧ s.delivered <+: s.written.map Record.item ∧
        ∀ e, e.Succeeds → ∃ r, permFifoRead e s.fifo = some r ∧ (r.1 ≠ 0 → s.delivered = s.written.map Record.item)
  persists : ∀ (r : Round) (e : Env) (size : Nat), r.size ≤ 2 ^ 30 → Round.Ok d r → 1 ≤ size → size ≤ 2 ^ 30 →
    ∃ d' remaining f, Round.play d r = some (d', remaining) ∧ permFifoNew e d' size = some f ∧
      (Session.start f).written.map Record.data = remaining ∧
      ∀ es : List Env, (∀ e ∈ es, e.Succeeds) → remaining.length < es.length →
        ∃ items, drain es f = some (items, true) ∧ items.map FifoItem.contents = remaining.map Delivered

/-- A well-formed file survives. -/
theorem survives_of_file {d : Dir FileName} {F : FifoFile} {unacked : List Bytes} (hd : Cleans d F) (hc : F.Counted)
    (hcur : F.clean.currentId < 2 ^ 32) (hu : unacked <:+ F.unacked.map Record.data) : Survives d unacked where
  opens := fun e size hpos hf => by
    obtain ⟨f, hnew, -, -, hgood, -⟩ := permFifoNew_spec (e := e) hd hc hpos
    refine ⟨f, hnew, ?_⟩
    rw [(hgood hcur).written, Parts.all_opened, F.map_data_kept]
    exact hu
  delivers := fun e size f hpos hf hnew calls hl => by
    obtain ⟨f', hnew', -, -, hgood, -⟩ := permFifoNew_spec (e := e) hd hc hpos
    obtain rfl := Option.some.inj (hnew'.symm.trans hnew)
    obtain ⟨s, hs, hdr, p, hg⟩ := run_good hf (hgood hcur) hl
    obtain ⟨hpre, hall⟩ := hg.delivered_prefix
    refine ⟨s, hs, hpre, fun e he => ?_⟩
    obtain ⟨⟨code, item, f''⟩, hr⟩ := Option.isSome_iff_exists.1 (permFifoRead_isSome hg.inv he hg.current_lt hf)
    refine ⟨_, hr, fun hne => ?_⟩
    rcases hg.inv.read he hg.current_lt hr with ⟨-, hp, -⟩ | ⟨r, p', hcode, -⟩
    · exact hall hp
    · exact absurd hcode hne
  persists := fun r e size hrf hok hpos hf => by
    obtain ⟨d', G, hplay, hcurrent, hcG, hcurG⟩ := play_spec hd hc hrf hok
    obtain ⟨f, hnew, hstart, hdrain⟩ := reopen_spec (e := e) (cleans_of_recoverable (.inl hcurrent)) hcG hcurG hpos hf
    exact ⟨d', _, f, hplay, hnew, hstart, hdrain⟩

/-! ## Stops -/

/-- The operations of `ct_save` on the file. -/
def saveChunks (f : PermFifo) : List Bytes :=
  match f.tableDisk with
  | none => []
  | some t => (ctSave t).2

/-- The content of the file when the process stops after `k` operations of the save. -/
def savedUpTo (f : PermFifo) (k : Nat) : Bytes := f.file.getD [] ++ ((saveChunks f).take k).flatten

/-- **A stop**: the directory it leaves, the unacknowledged payloads written completely, and whether it is inside a
pair of operations that belong together.  A save only reads the disk table and the file, so the state of a session
between two calls is also the one any save of the next call starts from. -/
inductive Stop : Dir FileName → List Bytes → Bool → Prop where
  | creation {d : Dir FileName} {code : Nat} {ops : List (FsOp FileName)} (k : Nat) (hc : d .current = none)
      (ho : d .old = none) (hops : permFifoFileClean d = some (code, ops)) :
      Stop (d.applyAll (ops.take k)) [] (decide (k = 1))
  | save {F : FifoFile} {d : Dir FileName} {e : Env} {size : Nat} {f : PermFifo} {calls : List (Env × Call)}
      {s : Session} (k : Nat) (hF : F.Counted) (hd : HasFile d F) (hcur : F.clean.currentId < 2 ^ 32)
      (hpos : 1 ≤ size) (hf : size ≤ 2 ^ 30) (hnew : permFifoNew e d size = some f)
      (hl : Legal Session.step Session.Ok (Session.start f) calls)
      (hs : run Session.step (Session.start f) calls = some s) (hid : s.fifo.currentId + 1 < 2 ^ 32) :
      Stop (closedDir d (some (savedUpTo s.fifo k)))
        (((decode (savedUpTo s.fifo k)).filter (fun r => decide (s.acked < r.id))).map Record.data)
        (decide (k % 2 = 1 ∧ k < (saveChunks s.fifo).length))

/-! ## At a boundary -/

theorem take_recordChunks : ∀ (rs : List Record) (j : Nat), (recordChunks rs).take (2 * j) = recordChunks (rs.take j)
  | [], j => by simp [recordChunks]
  | r :: rs, 0 => by simp [recordChunks]
  | r :: rs, j + 1 => by
    have ih := take_recordChunks rs j
    simp only [recordChunks, List.flatMap_cons, List.take_succ_cons] at ih ⊢
    rw [show 2 * (j + 1) = 2 * j + 1 + 1 by omega]
    simp [ih]

theorem length_recordChunks (rs : List Record) : (recordChunks rs).length = 2 * rs.length := by
  induction rs with
  | nil => rfl
  | cons r rs ih =>
    simp only [recordChunks, List.flatMap_cons, List.length_append, List.length_cons, List.length_nil] at ih ⊢
    omega

/-- Inside a pair only the sub header of the next record is written. -/
theorem take_recordChunks_odd {u : Record} : ∀ (rs : List Record) (j : Nat), rs[j]? = some u →
    (recordChunks rs).take (2 * j + 1) = recordChunks (rs.take j) ++ [u.header.bytes]
  | [], j, h => by simp at h
  | r :: rs, 0, h => by
    obtain rfl := Option.some.inj h
    simp [recordChunks]
  | r :: rs, j + 1, h => by
    have ih := take_recordChunks_odd rs j (by simpa using h)
    simp only [recordChunks, List.flatMap_cons, List.take_succ_cons] at ih ⊢
    rw [show 2 * (j + 1) + 1 = 2 * j + 1 + 1 + 1 by omega]
    simp [ih]

variable {size : Nat} {s : Session} {hdr : MainHeader} {p : Parts}

theorem saveChunks_eq {f : PermFifo} (h : Stored f size hdr p) : saveChunks f = recordChunks p.unsaved := by
  obtain ⟨t, ht, hold, -⟩ := h.disk
  unfold saveChunks
  rw [ht]
  exact (ctSave_spec hold h.nonempty).2.2

theorem Session.Good.ok_upTo (h : s.Good size hdr p) (j : Nat) : ∀ r ∈ p.saved ++ p.unsaved.take j, r.Ok := by
  intro r hr
  refine h.inv.readable.ok r ?_
  rcases List.mem_append.1 hr with hr | hr
  · simp [Parts.all, hr]
  · simp [Parts.all, List.mem_of_mem_take hr]

theorem Session.Good.increasing_upTo (h : s.Good size hdr p) (j : Nat) :
    Increasing (p.saved ++ p.unsaved.take j) :=
  h.inv.readable.increasing.right.sublist (List.Sublist.append_left (List.take_sublist _ _) _)

theorem Session.Good.header_ack_lt (h : s.Good size hdr p) : hdr.lastAckId < 2 ^ 64 := h.durable.ack_lt

theorem Session.Good.header_current_lt (h : s.Good size hdr p) : hdr.currentId < 2 ^ 64 := h.durable.current_lt

/-- The file with the first `j` records of the disk table saved. -/
def Session.Good.fileUpTo (h : s.Good size hdr p) (j : Nat) : FifoFile where
  lastAckId := hdr.lastAckId
  currentId := hdr.currentId
  records := p.saved ++ p.unsaved.take j
  ack_lt := h.header_ack_lt
  current_lt := h.header_current_lt
  ok := h.ok_upTo j
  increasing := h.increasing_upTo j

namespace Session.Good

theorem bytes_fileUpTo (h : s.Good size hdr p) (j : Nat) :
    (h.fileUpTo j).bytes = hdr.bytes ++ encode (p.saved ++ p.unsaved.take j) := by
  have hhdr : (h.fileUpTo j).header = hdr := by
    unfold FifoFile.header
    rw [← h.durable.tag]
    rfl
  unfold FifoFile.bytes
  rw [hhdr]
  rfl

theorem fileUpTo_counted (h : s.Good size hdr p) (j : Nat) : (h.fileUpTo j).Counted := fun hr =>
  h.durable.counted (List.append_eq_nil_iff.1 hr).1

theorem lastId_fileUpTo (h : s.Good size hdr p) (j : Nat) : lastId (h.fileUpTo j).records < 2 ^ 32 := by
  have hcur := h.current_lt
  rw [h.inv.readable.current] at hcur
  by_cases hne : (h.fileUpTo j).records = []
  · rw [hne]
    decide
  · obtain ⟨r, hr, hid⟩ := lastId_mem hne
    have hmem : r ∈ p.all := by
      rcases List.mem_append.1 hr with hr | hr
      · simp [Parts.all, hr]
      · simp [Parts.all, List.mem_of_mem_take hr]
    have := h.inv.readable.increasing.id_le_lastId r hmem
    omega

theorem savedUpTo_even (h : s.Good size hdr p) (j : Nat) : savedUpTo s.fifo (2 * j) = (h.fileUpTo j).bytes := by
  unfold savedUpTo
  rw [saveChunks_eq h.inv.stored, take_recordChunks, flatten_recordChunks, h.inv.stored.file, h.bytes_fileUpTo]
  simp

theorem savedUpTo_odd (h : s.Good size hdr p) {j : Nat} {u : Record} (hu : p.unsaved[j]? = some u) :
    savedUpTo s.fifo (2 * j + 1) = tornBytes (h.fileUpTo j) u := by
  unfold savedUpTo tornBytes
  rw [saveChunks_eq h.inv.stored, take_recordChunks_odd _ _ hu, List.flatten_append, flatten_recordChunks,
    h.inv.stored.file, h.bytes_fileUpTo]
  simp

end Session.Good

theorem filter_above_suffix {a b : Nat} (hab : a ≤ b) {rs : List Record} (h : Increasing rs) :
    rs.filter (fun r => decide (b < r.id)) <:+ rs.filter (fun r => decide (a < r.id)) := by
  have hsplit := @Increasing.split b (rs.filter (fun r => decide (a < r.id))) (List.Pairwise.filter _ h)
  have hff : (rs.filter (fun r => decide (a < r.id))).filter (fun r => decide (b < r.id)) =
      rs.filter (fun r => decide (b < r.id)) := by
    rw [List.filter_filter]
    refine List.filter_congr (fun r _ => ?_)
    rw [Bool.eq_iff_iff]
    simp
    omega
  rw [hff] at hsplit
  rw [hsplit]
  exact List.suffix_append _ _

/-! ## Inside a pair -/

variable {F : FifoFile} {u x : Record} {f f' : PermFifo}

/-- A FIFO opened on a torn file, one record written since: the reads go round the records in front of the tail. -/
structure TornFifo (F : FifoFile) (u x : Record) (f : PermFifo) : Prop where
  client : ∃ cs, f.tableClient.Holds cs ∧ Increasing cs ∧ ∀ r ∈ cs, r ∈ F.records ∧ f.lastIdOut < r.id
  disk : ∃ t, f.tableDisk = some t ∧ t.Holds [x]
  file : ∃ hdr : MainHeader, f.file = some (hdr.bytes ++ (encode F.records ++ u.header.bytes))
  offset : f.lastOutOffset = headerSize
  current : f.currentId = x.id
  out_lt : f.lastIdOut < u.id

/-- What is known of the torn record and of the one written behind it. -/
structure TornIds (F : FifoFile) (u x : Record) : Prop where
  ok : u.Ok
  data : u.data ≠ []
  above : ∀ r ∈ F.records, r.id < u.id
  next : x.id = u.id + 1
  lt : x.id < 2 ^ 32

/-- A load stops at the torn record or before it, and `lastOutOffset` stays. -/
theorem TornFifo.load {e : Env} (hi : TornIds F u x) (h : TornFifo F u x f) (he : e.Succeeds) {hdr : MainHeader}
    {t : CircularTable} (ht : t.Holds []) {l : Loaded}
    (hl : ctLoad e.alloc ((hdr.bytes ++ (encode F.records ++ u.header.bytes)).length + 1)
      ⟨hdr.bytes ++ (encode F.records ++ u.header.bytes), f.lastOutOffset⟩ t (f.lastIdOut + 1) 0 = some l) :
    l.code ≠ 0 ∧ ∃ ws, l.table.Holds ws ∧ Increasing ws ∧ ∀ r ∈ ws, r ∈ F.records ∧ f.lastIdOut < r.id := by
  have hfd : (⟨hdr.bytes ++ (encode F.records ++ u.header.bytes), f.lastOutOffset⟩ : Fd) =
      Fd.between hdr.bytes (encode F.records ++ u.header.bytes) := by
    rw [h.offset, Fd.between, MainHeader.length_bytes]
  have hlen := length_encode_le F.records
  obtain ⟨n, hn⟩ : ∃ n, (hdr.bytes ++ (encode F.records ++ u.header.bytes)).length + 1 = n + 1 + F.records.length := by
    refine ⟨(hdr.bytes ++ (encode F.records ++ u.header.bytes)).length - F.records.length, ?_⟩
    simp only [List.length_append]
    omega
  have hin : ∀ xs : List Record, (∃ ys, F.records = xs ++ ys) → Increasing (wanted (f.lastIdOut + 1) xs) ∧
      ∀ r ∈ wanted (f.lastIdOut + 1) xs, r ∈ F.records ∧ f.lastIdOut < r.id := by
    rintro xs ⟨ys, hxy⟩
    have hinc := F.increasing
    rw [hxy] at hinc
    refine ⟨List.Pairwise.filter _ hinc.left, fun r hr => ?_⟩
    obtain ⟨hr, hlt⟩ := mem_wanted_succ.1 hr
    exact ⟨by rw [hxy]; exact List.mem_append_left _ hr, hlt⟩
  rw [hn, hfd] at hl
  rcases ctLoad_records he.1 (Nat.succ_ne_zero f.lastIdOut) F.records
    (n + 1) 0 hdr.bytes u.header.bytes t [] ht F.ok with
    ⟨-, hnone⟩ | ⟨l', xs, ys, hl', hxy, hcode, hold, -⟩ | ⟨t', k, hold, -, hl'⟩
  · rw [hnone] at hl
    cases hl
  · obtain rfl := Option.some.inj (hl'.symm.trans hl)
    exact ⟨by rw [hcode]; decide, _, by simpa using hold, hin xs ⟨ys, hxy⟩⟩
  · obtain ⟨l', htorn, hcode, htable⟩ := @ctLoad_torn _ (f.lastIdOut + 1) he.1 n k (hdr.bytes ++ encode F.records) t' u
      hi.ok hi.data h.out_lt
    rw [hl', htorn] at hl
    obtain rfl := Option.some.inj hl
    exact ⟨hcode, _, by rw [htable]; simpa using hold, hin F.records ⟨[], by simp⟩⟩

/-- **Every read of a FIFO on a torn file** gives a record in front of the tail, or nothing. -/
theorem TornFifo.read {e : Env} {code : Int} {item : FifoItem} (hi : TornIds F u x) (h : TornFifo F u x f)
    (he : e.Succeeds) (hr : permFifoRead e f = some (code, item, f')) :
    TornFifo F u x f' ∧ ((code ≠ 0 ∧ f'.lastIdOut = f.lastIdOut) ∨
      ∃ r ∈ F.records, item = r.item ∧ f.lastIdOut < r.id ∧ f'.lastIdOut = r.id) := by
  obtain ⟨cs, hcs, hinc, hmem⟩ := h.client
  obtain ⟨t, ht, hold⟩ := h.disk
  obtain ⟨hdr, hfile⟩ := h.file
  have hout := h.out_lt
  have hnext := hi.next
  have hlt := hi.lt
  have htake : ∀ {g : PermFifo} {r : Record} {rest : List Record} {c : CircularTable}, Increasing (r :: rest) →
      (∀ y ∈ r :: rest, y ∈ F.records ∧ f.lastIdOut < y.id) → c.Holds rest → g.tableClient = c →
      g.tableDisk = f.tableDisk → g.file = f.file → g.lastOutOffset = f.lastOutOffset → g.currentId = f.currentId →
      g.lastIdOut = r.id → TornFifo F u x g := by
    intro g r rest c hinc hmem hc h1 h2 h3 h4 h5 h6
    refine ⟨⟨rest, by rw [h1]; exact hc, hinc.of_cons, fun y hy => ?_⟩, by rw [h2]; exact h.disk,
      by rw [h3]; exact h.file, by rw [h4]; exact h.offset, by rw [h5]; exact h.current, ?_⟩
    · exact ⟨(hmem y (List.mem_cons_of_mem _ hy)).1, by rw [h6]; exact List.rel_of_pairwise_cons hinc hy⟩
    · rw [h6]
      exact hi.above r (hmem r List.mem_cons_self).1
  unfold permFifoRead at hr
  rw [if_neg (by simp [mustWait, h.current]; omega)] at hr
  cases hcl : ctRead f.tableClient with
  | some q =>
    obtain ⟨y, c⟩ := q
    simp only [hcl] at hr
    obtain ⟨rfl, hrest⟩ := Prod.mk.inj (Option.some.inj hr)
    obtain ⟨rfl, rfl⟩ := Prod.mk.inj hrest
    obtain ⟨r, rest, rfl, rfl, hold', -⟩ := hcs.read hcl
    exact ⟨htake hinc hmem hold' rfl rfl rfl rfl rfl rfl,
      .inr ⟨r, (hmem r List.mem_cons_self).1, rfl, (hmem r List.mem_cons_self).2, rfl⟩⟩
  | none =>
    obtain rfl : cs = [] := hcs.read_none.1 hcl
    simp only [hcl] at hr
    split at hr
    · rename_i hnone
      rw [ht] at hnone
      cases hnone
    · rename_i t' ht'
      obtain rfl := Option.some.inj (ht.symm.trans ht')
      split at hr
      · cases hr
      · rename_i sc hs
        -- the only record of the disk table is two ids ahead
        have hscan := diskScan_spec he.1 hold hs
        have hmod : (f.lastIdOut + 1) % 2 ^ 32 = f.lastIdOut + 1 := Nat.mod_eq_of_lt (by omega)
        rw [scanRecords, if_neg (by simp only [hmod]; omega), if_pos (by simp only [hmod]; omega)] at hscan
        obtain rfl := Option.some.inj hscan
        rw [if_pos ⟨rfl, rfl⟩] at hr
        unfold readFromFile at hr
        simp only [hfile] at hr
        split at hr
        · cases hr
        · rename_i l hl
          obtain ⟨hcode, ws, hws, hwinc, hwmem⟩ := h.load hi he hcs hl
          simp only [if_neg hcode] at hr
          cases hlr : ctRead l.table with
          | none =>
            simp only [hlr] at hr
            obtain ⟨rfl, hrest⟩ := Prod.mk.inj (Option.some.inj hr)
            obtain ⟨rfl, rfl⟩ := Prod.mk.inj hrest
            exact ⟨⟨⟨ws, hws, hwinc, hwmem⟩, ⟨t, ht, hold⟩, ⟨hdr, rfl⟩, h.offset, h.current, h.out_lt⟩,
              .inl ⟨by decide, rfl⟩⟩
          | some q =>
            obtain ⟨y, c⟩ := q
            obtain ⟨r, rest, rfl, rfl, hold', -⟩ := hws.read hlr
            simp only [hlr] at hr
            cases hli : l.table.lastIndex with
            | none =>
              simp only [hli] at hr
              cases hr
            | some i =>
              simp only [hli] at hr
              obtain ⟨rfl, hrest⟩ := Prod.mk.inj (Option.some.inj hr)
              obtain ⟨rfl, rfl⟩ := Prod.mk.inj hrest
              exact ⟨htake hwinc hwmem hold' rfl rfl hfile.symm rfl rfl rfl,
                .inr ⟨r, (hwmem r List.mem_cons_self).1, rfl, (hwmem r List.mem_cons_self).2, rfl⟩⟩

/-- The session of such a FIFO: what was delivered are records in front of the tail, each once. -/
structure TornSession (F : FifoFile) (u x : Record) (s : Session) : Prop where
  fifo : TornFifo F u x s.fifo
  written : s.written = F.records ++ [x]
  delivered : ∃ ds, s.delivered = ds.map Record.item ∧ Increasing ds ∧
    ∀ r ∈ ds, r ∈ F.records ∧ r.id ≤ s.fifo.lastIdOut

theorem Increasing.nodup {rs : List Record} (h : Increasing rs) : rs.Nodup :=
  List.Pairwise.imp (fun {a b} hab heq => by rw [heq] at hab; exact absurd hab (Nat.lt_irrefl _)) h

theorem TornSession.length_le {s : Session} (h : TornSession F u x s) : s.delivered.length ≤ F.records.length := by
  obtain ⟨ds, hds, hinc, hmem⟩ := h.delivered
  rw [hds, List.length_map]
  exact (hinc.nodup.subperm (fun r hr => (hmem r hr).1)).length_le

theorem TornSession.read {s s' : Session} (hi : TornIds F u x) (h : TornSession F u x s)
    (hs : s.step readOne = some s') :
    TornSession F u x s' ∧ (s'.delivered.length = s.delivered.length + 1 ∨
      ∃ r, permFifoRead calm s.fifo = some r ∧ r.1 ≠ 0) := by
  obtain ⟨⟨code, item, g⟩, hr, rfl⟩ := Option.map_eq_some_iff.1 hs
  obtain ⟨hg, hcase⟩ := h.fifo.read hi calm_succeeds hr
  by_cases hcode : code = 0
  · obtain ⟨r, hrm, rfl, hlt, hout⟩ := hcase.resolve_left (fun h => h.1 hcode)
    obtain ⟨ds, hds, hinc, hmem⟩ := h.delivered
    rw [if_pos hcode]
    refine ⟨⟨hg, h.written, ds ++ [r], by rw [hds, List.map_append]; rfl, ?_, ?_⟩, .inl (by simp)⟩
    · refine List.pairwise_append.2 ⟨hinc, List.pairwise_singleton _ _, fun y hy z hz => ?_⟩
      rw [List.mem_singleton.1 hz]
      exact Nat.lt_of_le_of_lt (hmem y hy).2 hlt
    · intro y hy
      rcases List.mem_append.1 hy with hy | hy
      · exact ⟨(hmem y hy).1, Nat.le_trans (hmem y hy).2 (by show s.fifo.lastIdOut ≤ g.lastIdOut; omega)⟩
      · rw [List.mem_singleton.1 hy]
        exact ⟨hrm, Nat.le_of_eq hout.symm⟩
  · rw [if_neg hcode]
    obtain ⟨ds, hds, hinc, hmem⟩ := h.delivered
    refine ⟨⟨hg, h.written, ds, hds, hinc, fun r hr' => ⟨(hmem r hr').1, ?_⟩⟩, .inr ⟨_, hr, hcode⟩⟩
    rcases hcase with ⟨-, hout⟩ | ⟨y, -, -, hlt, hout⟩
    · exact Nat.le_trans (hmem r hr').2 (Nat.le_of_eq hout.symm)
    · exact Nat.le_trans (hmem r hr').2 (by show s.fifo.lastIdOut ≤ g.lastIdOut; omega)

/-! ## Opening after a stop inside a pair -/

/-- The file with the id of the torn record in its header. -/
def FifoFile.claim (F : FifoFile) (u : Record) (hu : u.Ok) : FifoFile :=
  { F with currentId := u.id, current_lt := hu.id_lt }

theorem open_torn {d : Dir FileName} {size : Nat} (e : Env) (hd : d .current = some (tornBytes F u))
    (h : F.lastAckId = 0) (hu : u.Ok) (hpos : 0 < size) :
    ∃ f, permFifoNew e d size = some f ∧ f.tableClient = ⟨size, 0, 0, List.replicate size emptyFifoItem⟩ ∧
      f.tableDisk = some ⟨size, 0, 0, List.replicate size emptyFifoItem⟩ ∧
      f.file = some (tornBytes (F.claim u hu) u) ∧ f.lastOutOffset = headerSize ∧ f.currentId = u.id ∧
      f.lastIdOut = 0 ∧ f.nextIdInClientTable = 1 := by
  have hclean : permFifoFileClean d = some (0, [.unlink .old, .unlink .new,
      .write .current 0 (F.claim u hu).header.bytes]) := by
    simp only [permFifoFileClean, cleanLoop, hd, cleanFile_torn_of_zero h hu, Option.map_some]
    rfl
  have hend : d.applyAll [.unlink .old, .unlink .new, .write .current 0 (F.claim u hu).header.bytes] .current =
      some (tornBytes (F.claim u hu) u) := by
    have : Fd.overwrite (tornBytes F u) 0 (F.claim u hu).header.bytes = tornBytes (F.claim u hu) u := by
      unfold tornBytes FifoFile.bytes
      rw [List.append_assoc, Fd.overwrite_zero _ (by simp), List.append_assoc]
      rfl
    simp [Dir.apply, hd, this]
  have hct := ctNew_of_pos hpos
  have hnew : permFifoNew e d size = some
      { tableClient := ⟨size, 0, 0, List.replicate size emptyFifoItem⟩
        tableDisk := some ⟨size, 0, 0, List.replicate size emptyFifoItem⟩
        file := some (tornBytes (F.claim u hu) u)
        currentId := u.id
        lastIdOut := 0
        lastOutOffset := headerSize
        nextIdInClientTable := 1
        lastIdOnDisk := u.id
        ackOnDisk := decide (u.id ≠ 0)
        lastFlush := e.now } := by
    unfold permFifoNew
    simp only [hclean, hend, read_torn_header, MainHeader.length_bytes, (F.claim u hu).parse_header, hct, ne_eq,
      not_true_eq_false, if_false, Option.getD_some]
    rw [if_neg (by simp [FifoFile.header])]
    rfl
  exact ⟨_, hnew, rfl, rfl, rfl, rfl, rfl, rfl, rfl⟩

theorem write_torn {d : Dir FileName} (hd : d .current = some (tornBytes F u)) (h : F.lastAckId = 0)
    (hi : TornIds F u x) (hx : x.data = [1]) :
    ∃ f, permFifoNew calm d 1 = some f ∧ (Session.start f).Ok writeOne ∧
      ∀ s, (Session.start f).step writeOne = some s → TornSession (F.claim u hi.ok) u x s := by
  obtain ⟨f, hnew, hclient, hdisk, hfile, hoff, hcur, hout, hnext⟩ :=
    open_torn calm hd h hi.ok (by decide : 0 < 1)
  have hxid := hi.next
  have hupos := hi.ok.id_pos
  have hxeq : (⟨f.currentId + 1, [1]⟩ : Record) = x := by
    rw [hcur, ← hxid, ← hx]
  obtain ⟨hwf, hlist, hsize⟩ := ctNew_spec (ctNew_of_pos (by decide : 0 < 1))
  have hhold : CircularTable.Holds ⟨1, 0, 0, List.replicate 1 emptyFifoItem⟩ [] := ⟨hwf, hlist⟩
  refine ⟨f, hnew, ⟨calm_succeeds, .inr ⟨?_, [1], rfl, by decide⟩⟩, fun s hs => ?_⟩
  · show f.currentId + 1 < 2 ^ 32
    rw [hcur, ← hxid]
    exact hi.lt
  · rw [step_writeOne] at hs
    obtain ⟨⟨c, g⟩, hw, rfl⟩ := Option.map_eq_some_iff.1 hs
    have hins : insertClient calm { f with currentId := f.currentId + 1 } x.item =
        some (false, { f with currentId := f.currentId + 1 }) := by
      unfold insertClient
      rw [if_pos (by rw [Record.item_id, hnext]; omega)]
    have hw : writeItem calm f [1] = some (c, g) := hw
    rw [writeItem_eq hdisk calm_succeeds, hxeq, hins, Option.bind_some] at hw
    unfold insertDisk at hw
    simp only [hdisk] at hw
    cases hct : ctWrite ⟨1, 0, 0, List.replicate 1 emptyFifoItem⟩ x.item with
    | none => exact absurd (by show 1 ≤ 2 ^ 30; decide) (hhold.write_none hct)
    | some q =>
      obtain ⟨c', t'⟩ := q
      rcases hhold.write hct with ⟨-, hfull, -⟩ | ⟨rfl, -, hold, -⟩
      · cases hfull
      · simp only [hct] at hw
        obtain ⟨rfl, rfl⟩ := Prod.mk.inj (Option.some.inj hw)
        refine ⟨⟨⟨[], ?_, List.Pairwise.nil, fun r hr => (by cases hr)⟩, ⟨t', rfl, by simpa using hold⟩,
          ⟨(F.claim u hi.ok).header, ?_⟩, hoff, ?_, ?_⟩, ?_, ⟨[], rfl, List.Pairwise.nil, fun r hr => (by cases hr)⟩⟩
        · rw [show ({ f with currentId := f.currentId + 1, tableDisk := some t' } : PermFifo).tableClient =
            ⟨1, 0, 0, List.replicate 1 emptyFifoItem⟩ from hclient]
          exact hhold
        · show f.file = _
          rw [hfile, tornBytes, FifoFile.bytes, List.append_assoc]
        · show f.currentId + 1 = x.id
          rw [hcur, hxid]
        · show f.lastIdOut < u.id
          omega
        · simp only [Session.start, hfile, Option.map_some, Option.getD_some, decode_torn _ hi.ok hi.data, hxeq]

theorem not_survives_torn_zero {d : Dir FileName} {unacked : List Bytes} (hd : d .current = some (tornBytes F u))
    (h : F.lastAckId = 0) (hi : TornIds F u x) (hx : x.data = [1]) : ¬ Survives d unacked := by
  intro hsurv
  obtain ⟨f, hnew, hok, hstart⟩ := write_torn hd h hi hx
  have hi' : TornIds (F.claim u hi.ok) u x := ⟨hi.ok, hi.data, hi.above, hi.next, hi.lt⟩
  have hdel := hsurv.delivers calm 1 f (by decide) (by decide) hnew
  -- no read may return non-zero, since the record written is never delivered
  have hcount : ∀ n, Leads Session.step Session.Ok (Session.start f) (writeOne :: List.replicate n readOne)
      (fun s => TornSession (F.claim u hi.ok) u x s ∧ s.delivered.length = n) := by
    intro n
    induction n with
    | zero =>
      refine .one hok fun s hs => ⟨hstart s hs, ?_⟩
      obtain ⟨r, -, rfl⟩ := Option.map_eq_some_iff.1 hs
      rfl
    | succ n ih =>
      rw [List.replicate_succ', ← List.cons_append]
      obtain ⟨s, hs, -, hread⟩ := hdel _ ih.1
      refine ⟨Legal.append.2 ⟨ih.1, fun s' _ => ⟨⟨calm_succeeds, trivial⟩, fun _ _ => trivial⟩⟩, fun s' hs' => ?_⟩
      obtain ⟨htorn, hlen⟩ := ih.2 s hs
      rw [run_append, hs, Option.bind_some] at hs'
      obtain ⟨s₁, h₁, h₂⟩ := Option.bind_eq_some_iff.1 hs'
      obtain rfl := Option.some.inj h₂
      obtain ⟨htorn', hcase⟩ := htorn.read hi' h₁
      refine ⟨htorn', ?_⟩
      rcases hcase with hone | ⟨r, hr, hne⟩
      · rw [hone, hlen]
      · obtain ⟨r', hr', hall⟩ := hread calm calm_succeeds
        obtain rfl := Option.some.inj (hr.symm.trans hr')
        have hle := htorn.length_le
        rw [hall hne, htorn.written, List.length_map, List.length_append, List.length_singleton] at hle
        omega
  obtain ⟨hl, hP⟩ := hcount (F.records.length + 1)
  obtain ⟨s, hs, -⟩ := hdel _ hl
  obtain ⟨htorn, hlen⟩ := hP s hs
  have hle := htorn.length_le
  rw [hlen] at hle
  exact absurd hle (Nat.not_succ_le_self _)

theorem not_survives_of_none {d : Dir FileName} {unacked : List Bytes} (h : permFifoNew calm d (1 : Nat) = none) :
    ¬ Survives d unacked := fun hs => by
  obtain ⟨f, hnew, -⟩ := hs.opens calm 1 (by decide) (by decide)
  rw [h] at hnew
  cases hnew

/-- **A torn record** loses what comes after it. -/
theorem not_survives_torn {d : Dir FileName} {unacked : List Bytes} (hd : d .current = some (tornBytes F u))
    (hu : u.Ok) (hdata : u.data ≠ []) (habove : ∀ r ∈ F.records, r.id < u.id) (hack : F.lastAckId < u.id)
    (hid : u.id + 1 < 2 ^ 32) : ¬ Survives d unacked := by
  by_cases h : F.lastAckId = 0
  · exact not_survives_torn_zero (x := ⟨u.id + 1, [1]⟩) hd h ⟨hu, hdata, habove, rfl, hid⟩ rfl
  · obtain ⟨ops, hops⟩ := cleanFile_torn_of_pos h hu hdata hack
    apply not_survives_of_none
    unfold permFifoNew
    simp only [permFifoFileClean, cleanLoop, hd, hops, Option.map_some]
    rfl

/-- **A file without its main header** is refused. -/
theorem not_survives_empty {d : Dir FileName} {unacked : List Bytes} (hd : d .current = some []) :
    ¬ Survives d unacked := by
  have hclean : cleanFile [] = some (5, []) := by
    simp [cleanFile, Fd.read, headerSize]
  apply not_survives_of_none
  unfold permFifoNew
  simp only [permFifoFileClean, cleanLoop, hd, hclean, Option.map_some]
  rfl

/-! ## The stops a FIFO survives -/

theorem survives_creation {d : Dir FileName} {code : Nat} {ops : List (FsOp FileName)} (k : Nat)
    (hc : d .current = none) (ho : d .old = none) (hops : permFifoFileClean d = some (code, ops)) :
    Survives (d.applyAll (ops.take k)) [] ↔ k ≠ 1 := by
  rw [fileClean_of_none hc ho] at hops
  obtain ⟨-, rfl⟩ := Prod.mk.inj (Option.some.inj hops)
  have hfile : ∀ d' : Dir FileName, HasFile d' .empty → Survives d' [] := fun d' hd' =>
    survives_of_file hd'.cleans FifoFile.empty_counted (by decide) (List.nil_suffix)
  match k with
  | 0 => exact ⟨fun _ => by decide, fun _ => hfile d (.inr ⟨rfl, hc, ho⟩)⟩
  | 1 =>
    refine ⟨fun hs => ?_, fun hne => absurd rfl hne⟩
    exact absurd hs (not_survives_empty (by simp [Dir.apply]))
  | k + 2 =>
    refine ⟨fun _ => by omega, fun _ => hfile _ (.inl ?_)⟩
    simp [Dir.apply]
    rfl

theorem Session.Good.survives_save (h : s.Good size hdr p) {d : Dir FileName} {F : FifoFile} (hd : Cleans d F) (k : Nat)
    (hid : s.fifo.currentId + 1 < 2 ^ 32) :
    Survives (closedDir d (some (savedUpTo s.fifo k)))
      (((decode (savedUpTo s.fifo k)).filter (fun r => decide (s.acked < r.id))).map Record.data) ↔
      ¬ (k % 2 = 1 ∧ k < (saveChunks s.fifo).length) := by
  have hcur := closedDir_current hd (some (savedUpTo s.fifo k))
  rw [saveChunks_eq h.inv.stored, length_recordChunks]
  have hboundary : ∀ j, savedUpTo s.fifo k = (h.fileUpTo j).bytes →
      Survives (closedDir d (some (savedUpTo s.fifo k)))
        (((decode (savedUpTo s.fifo k)).filter (fun r => decide (s.acked < r.id))).map Record.data) := by
    intro j hj
    rw [hj] at hcur ⊢
    refine survives_of_file (cleans_of_recoverable (.inl hcur)) (h.fileUpTo_counted j)
      (FifoFile.clean_currentId_lt (h.fileUpTo_counted j) (h.lastId_fileUpTo j)) ?_
    rw [FifoFile.decode_bytes]
    exact (filter_above_suffix h.durable.header_le (h.fileUpTo j).increasing).map _
  by_cases hodd : k % 2 = 1
  · obtain ⟨j, rfl⟩ : ∃ j, k = 2 * j + 1 := ⟨k / 2, by omega⟩
    by_cases hj : j < p.unsaved.length
    · refine ⟨fun hs => ?_, fun hn => absurd ⟨hodd, by omega⟩ hn⟩
      have hu := List.getElem?_eq_getElem hj
      have hmem : p.unsaved[j] ∈ p.unsaved := List.getElem_mem hj
      have hall : p.unsaved[j] ∈ p.all := by simp [Parts.all, hmem]
      rw [h.savedUpTo_odd hu] at hs hcur
      have hle := h.inv.readable.increasing.id_le_lastId _ hall
      rw [← h.inv.readable.current] at hle
      refine absurd hs (not_survives_torn hcur (h.inv.readable.ok _ hall) (h.inv.stored.nonempty _ hmem) ?_
        (h.durable.above_header _ hmem) (by omega))
      intro r hr
      have hinc := h.inv.readable.increasing.right
      rcases List.mem_append.1 hr with hr | hr
      · exact hinc.lt_of_append r hr _ hmem
      · have hsplit := hinc.right
        rw [← List.take_append_drop j p.unsaved] at hsplit
        refine hsplit.lt_of_append r hr _ ?_
        rw [List.drop_eq_getElem_cons hj]
        exact List.mem_cons_self
    · refine ⟨fun _ hn => by omega, fun _ => hboundary p.unsaved.length ?_⟩
      have hfull :
          (recordChunks p.unsaved).take (2 * j + 1) = (recordChunks p.unsaved).take (2 * p.unsaved.length) := by
        rw [List.take_of_length_le (by rw [length_recordChunks]; omega),
          List.take_of_length_le (by rw [length_recordChunks])]
      rw [← h.savedUpTo_even]
      unfold savedUpTo
      rw [saveChunks_eq h.inv.stored, hfull]
  · obtain ⟨j, rfl⟩ : ∃ j, k = 2 * j := ⟨k / 2, by omega⟩
    exact ⟨fun _ hn => hodd hn.1, fun _ => hboundary j (h.savedUpTo_even j)⟩

/-- **A stop is survived exactly when it is not inside a pair of operations.** -/
theorem survives_iff {d : Dir FileName} {unacked : List Bytes} {inside : Bool} (h : Stop d unacked inside) :
    Survives d unacked ↔ inside = false := by
  cases h with
  | creation k hc ho hops =>
    rw [survives_creation k hc ho hops, decide_eq_false_iff_not]
  | save k hF hd hcur hpos hf hnew hl hs hid =>
    obtain ⟨f', hnew', -, -, hgood, -⟩ := permFifoNew_spec hd.cleans hF hpos
    obtain rfl := Option.some.inj (hnew'.symm.trans hnew)
    obtain ⟨s', hs', hdr, p, hg⟩ := run_good hf (hgood hcur) hl
    obtain rfl := Option.some.inj (hs'.symm.trans hs)
    rw [hg.survives_save hd.cleans k hid, decide_eq_false_iff_not]

/-- A directory without any of the files. -/
def noFiles : Dir FileName := fun _ => none

/-- The stop between the creation of the file and the write of its header. -/
theorem survives_iff_created :
    Survives (noFiles.applyAll ([.creat .current, .append .current defaultMainHeader.bytes].take 1)) [] ↔
      decide (1 = 1) = false :=
  survives_iff (.creation (d := noFiles) 1 rfl rfl (fileClean_of_none rfl rfl))

/-- The two stops that lose something: an empty file, and the first record's sub header without its data. -/
theorem stops_inside_pairs_not_survived :
    ¬ Survives (noFiles.applyAll [.creat .current]) [] ∧
      ∃ f s, permFifoNew calm (dirOf .empty) 1 = some f ∧
        Legal Session.step Session.Ok (Session.start f) [writeOne] ∧
        run Session.step (Session.start f) [writeOne] = some s ∧ (saveChunks s.fifo).length = 2 ∧
        ∀ unacked, ¬ Survives (closedDir (dirOf .empty) (some (savedUpTo s.fifo 1))) unacked := by
  refine ⟨not_survives_empty rfl, ?_⟩
  obtain ⟨f, hnew, hcur, -, hgood, -⟩ := permFifoNew_spec (e := calm) (hasFile_dirOf .empty).cleans
    FifoFile.empty_counted (by decide : 0 < 1)
  have hl : Legal Session.step Session.Ok (Session.start f) [writeOne] :=
    ⟨⟨calm_succeeds, .inr ⟨by show f.currentId + 1 < 2 ^ 32; rw [hcur]; decide, [1], rfl, by decide⟩⟩,
      fun _ _ => trivial⟩
  obtain ⟨s, hs, -⟩ := run_good (by decide) (hgood (by decide)) hl
  have hcompute : ((permFifoNew calm (dirOf .empty) 1).bind fun f =>
      (run Session.step (Session.start f) [writeOne]).map fun s => (savedUpTo s.fifo 1, (saveChunks s.fifo).length)) =
        some (tornBytes .empty ⟨1, [1]⟩, 2) := by rfl
  have hnew' : permFifoNew calm (dirOf .empty) 1 = some f := hnew
  rw [hnew', Option.bind_some, hs, Option.map_some, Option.some.injEq, Prod.mk.injEq] at hcompute
  refine ⟨f, s, hnew, hl, hs, hcompute.2, fun unacked => ?_⟩
  have hdir := closedDir_current (hasFile_dirOf .empty).cleans (some (savedUpTo s.fifo 1))
  rw [hcompute.1] at hdir ⊢
  exact not_survives_torn hdir ⟨by decide, by decide, by decide⟩ (by simp) (by simp [FifoFile.empty]) (by decide)
    (by decide)

end Perm
end Flp
