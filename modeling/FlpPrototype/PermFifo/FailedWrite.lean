import FlpPrototype.PermFifo.Reach
import FlpPrototype.PermFifo.Delivery
import FlpPrototype.Lib.Answers
/-!
# FailedWrite — what a failed write leaves behind

A write takes its id before it can fail, so after a failure the current id is one too high (`Gap`), and no later call
takes that back.  Where reads could have taken all there is and then wait, they do not wait any more.  A list of calls
that brings the last id out to the current one tells the two FIFOs apart: acknowledge all, read the client table empty,
then read one more byte through the client table or through the cleaned file (`exists_last_read`), or write up to a
last id that is ahead (`behind_told_apart`).  Only FIFOs without any table hide it (`failedWrite_unseen_iff`).
-/
namespace Flp
namespace Perm

open CircularTable

variable {f g g' h h' : PermFifo} {t t' : CircularTable} {item : FifoItem} {n : Nat}

/-- After a failed write: one id more was given, the last one out is the same. -/
structure Gap (g g' : PermFifo) : Prop where
  currentId : g'.currentId = g.currentId + 1
  lastIdOut : g'.lastIdOut = g.lastIdOut

theorem Gap.use {c : Env × Use} {o : Seen} (hgap : Gap g g') (hg : use g c = some (o, h))
    (hg' : Perm.use g' c = some (o, h')) : Gap h h' := by
  obtain ⟨hc, hl⟩ := use_counts hg
  obtain ⟨hc', hl'⟩ := use_counts hg'
  have hcur := hgap.currentId
  exact ⟨by omega, by rw [hl, hl', hgap.lastIdOut]⟩

/-- **A read that waits** in the one and returns in the other. -/
theorem gap_told_apart (ha : Alike use g g') (hgap : Gap g g') (hout : g.lastIdOut = g.currentId) : False := by
  have hwait : use g (calm, .read 1) = some (.waits, g) := by simp [use, mustWait, hout]
  obtain ⟨h', hr, -⟩ := ha.step hwait
  have hcur := hgap.currentId
  have hmust : mustWait g' = false := by
    rw [mustWait, hgap.lastIdOut, hout, hcur]
    simp
  simp [use, hmust] at hr

/-- The calls without their answers. -/
def after (f : PermFifo) (c : Env × Use) : Option PermFifo := (use f c).map Prod.snd

theorem Gap.run : ∀ (cs : List (Env × Use)) {g g' h : PermFifo}, Alike Perm.use g g' → Gap g g' →
    Flp.run after g cs = some h → ∃ h', Alike Perm.use h h' ∧ Gap h h'
  | [], g, g', h, ha, hgap, hr => by
    cases hr
    exact ⟨g', ha, hgap⟩
  | c :: cs, g, g', h, ha, hgap, hr => by
    obtain ⟨g₁, h₁, hr⟩ := Option.bind_eq_some_iff.1 hr
    obtain ⟨⟨o, g₂⟩, hu, rfl⟩ := Option.map_eq_some_iff.1 h₁
    obtain ⟨g₂', hu', ha'⟩ := ha.step hu
    exact Gap.run cs ha' (hgap.use hu hu') hr

theorem not_alike_of_run (cs : List (Env × Use)) (ha : Alike use g g') (hgap : Gap g g')
    (hr : run after g cs = some h) (hout : h.lastIdOut = h.currentId) : False := by
  obtain ⟨h', ha', hgap'⟩ := hgap.run cs ha hr
  exact gap_told_apart ha' hgap' hout

theorem run_after {c : Env × Use} {o : Seen} {cs : List (Env × Use)} (hu : use g c = some (o, h)) :
    run after g (c :: cs) = run after h cs := run_cons (by rw [after, hu, Option.map_some])

/-! ## Empty tables -/

theorem ctWrite_empty (hup : t.Upto n) (hnil : t.toList = []) (hd : item.data ≠ none) :
    ∃ t', ctWrite t item = some (.ok, t') ∧ t'.Wf ∧ t'.size = t.size ∧ t'.toList = [item] := by
  have hn := hup.wf.toList_eq_nil.1 hnil
  have hfirst := hup.wf.first
  have hsmall := hup.small
  cases hw : ctWrite t item with
  | none =>
    have hbig := ctWrite_undefined hw
    rw [behind, hn] at hbig
    omega
  | some p =>
    obtain ⟨r, t'⟩ := p
    rcases ctWrite_spec hup.wf hd hw with ⟨-, hfull, -⟩ | ⟨rfl, -, hwf, hs, -, hl⟩
    · omega
    · exact ⟨t', rfl, hwf, hs, by rw [hl, hnil, List.nil_append]⟩

theorem ctRead_of_cons {rest : List FifoItem} (hw : t.Wf) (hl : t.toList = item :: rest) :
    ∃ t', ctRead t = some (item, t') := by
  have hsome : ctRead t ≠ none := fun hn => by
    have := (ctRead_eq_none hw).1 hn
    rw [hl] at this
    cases this
  obtain ⟨⟨x, t'⟩, hr⟩ := Option.ne_none_iff_exists'.1 hsome
  obtain ⟨-, -, -, hl'⟩ := ctRead_spec hw hr
  obtain rfl := (List.cons.inj (hl.symm.trans hl')).1
  exact ⟨t', hr⟩

/-- The FIFO after an item left its client table. -/
def PermFifo.take (f : PermFifo) (t : CircularTable) (id : Nat) : PermFifo :=
  { f with tableClient := t, lastIdOut := id }

theorem use_read_client (hw : g.lastIdOut < g.currentId) (hr : ctRead g.tableClient = some (item, t')) :
    use g (calm, .read 0) = some (.item 0 item, g.take t' item.id) := by
  have hmust : mustWait g = false := by simpa [mustWait] using hw
  simp [use, permFifoRead, hmust, hr, PermFifo.take]

theorem read_last (hl : g.tableClient.toList = [item]) (hwf : g.tableClient.Wf) (hid : item.id = g.currentId)
    (hw : g.lastIdOut < g.currentId) : ∃ h, run after g [(calm, .read 0)] = some h ∧ h.lastIdOut = h.currentId := by
  obtain ⟨t', hr⟩ := ctRead_of_cons hwf hl
  exact ⟨g.take t' item.id, run_after (use_read_client hw hr), hid⟩

def oneByte (e : Env) : Env × Use := (e, .write (some [1]) 1)

theorem use_oneByte {e : Env} : use g (oneByte e) = (writeItem e g [1]).map fun r => (.code r.1, r.2) := by
  simp [use, oneByte, permFifoWrite, payload]

/-! ## Without a disk table -/

/-- **In memory** the reads take all there is, or a new item behind it. -/
theorem inMemory_told_apart : ∀ (k : Nat) {g g' : PermFifo}, g.tableClient.nItems = k → Alike use g g' → Gap g g' →
    InMemory g → g.tableClient ≠ nullTable → False
  | k, g, g', hk, ha, hgap, hg, hne => by
    have hup := hg.client.resolve_left hne
    by_cases hout : g.lastIdOut = g.currentId
    · exact gap_told_apart ha hgap hout
    · have hlt : g.lastIdOut < g.currentId := Nat.lt_of_le_of_ne hg.out_le hout
      cases hr : ctRead g.tableClient with
      | none =>
        have hnil := (ctRead_eq_none hup.wf).1 hr
        obtain ⟨t', hw, hwf, -, hl⟩ := ctWrite_empty hup hnil (Record.item_data_ne_none ⟨g.currentId + 1, [1]⟩)
        have hwrite : use g (oneByte calm) =
            some (.code .ok, { g with currentId := g.currentId + 1, tableClient := t' }) := by
          rw [use_oneByte, writeItem_noDisk hg.noDisk, hw]
          rfl
        obtain ⟨h, hrun, hlast⟩ :=
          read_last (g := { g with currentId := g.currentId + 1, tableClient := t' }) hl hwf rfl
          (Nat.lt_succ_of_lt hlt)
        exact not_alike_of_run [oneByte calm, (calm, .read 0)] ha hgap ((run_after hwrite).trans hrun) hlast
      | some p =>
        obtain ⟨x, t'⟩ := p
        have hread := use_read_client hlt hr
        obtain ⟨h', hread', ha'⟩ := ha.step hread
        obtain ⟨hwf, -, hn, -⟩ := ctRead_spec hup.wf hr
        have hpos := hwf.pos
        refine inMemory_told_apart (k - 1) (g := g.take t' x.id) (by simp only [PermFifo.take]; omega) ha'
          (hgap.use hread hread') (hg.use hread).1 fun hnull => ?_
        rw [show t' = nullTable from hnull] at hpos
        exact absurd hpos (Nat.lt_irrefl 0)
  termination_by k => k
  decreasing_by omega

/-! ## With an empty disk table -/

/-- Everything was acknowledged. -/
structure Emptied (g : PermFifo) : Prop where
  onDisk : OnDisk g
  empty : ∀ t, g.tableDisk = some t → t.toList = []

theorem Emptied.disk (hg : Emptied g) : ∃ t, g.tableDisk = some t ∧ t.Upto g.currentId ∧ t.toList = [] := by
  obtain ⟨t, ht, hup⟩ := hg.onDisk.backed.disk
  exact ⟨t, ht, hup, hg.empty t ht⟩

theorem emptied_ack {id : Nat} (hg : OnDisk g) (hle : g.currentId ≤ id) : Emptied (permFifoAck g id).2 :=
  ⟨hg.use (c := (calm, .ack id)) rfl, (ack_keeps g id).2.2 _ hle hg.backed⟩

theorem Emptied.read {timeout : Int} {e : Env} {o : Seen} (hg : Emptied g)
    (hu : use g (e, .read timeout) = some (o, h)) :
    Emptied h := by
  refine ⟨hg.onDisk.use hu, fun t ht => ?_⟩
  rcases use_read hu with ⟨-, rfl⟩ | hk
  · exact hg.empty t ht
  · exact hg.empty t (hk.disk ▸ ht)

theorem save_empty {e : Env} (ht : g.tableDisk = some t) (hn : t.nItems = 0) :
    permFifoSaveTabledisk e g = some (.ok, { g with lastFlush := e.now }) := by
  simp only [permFifoSaveTabledisk, ht, hn, if_true]

theorem insertDisk_empty {e : Env} {doCopy : Bool} (ht : g.tableDisk = some t) (hup : t.Upto n) (hnil : t.toList = [])
    (hd : item.data ≠ none) : ∃ t', insertDisk e g doCopy item = some (.ok, { g with tableDisk := some t' }) ∧
      t'.Wf ∧ t'.size = t.size ∧ t'.toList = [item] := by
  obtain ⟨t', hw, hrest⟩ := ctWrite_empty hup hnil hd
  exact ⟨t', by simp only [insertDisk, ht, hw], hrest⟩

theorem insertDisk_noData {e : Env} {doCopy : Bool} (ht : g.tableDisk = some t) (hn : t.nItems = 0)
    (hd : item.data = none) : ∃ h, insertDisk e g doCopy item = some (.error, h) := by
  have hw : ctWrite t item = some (.error, t) := by rw [ctWrite, if_pos hd, ite_self]
  simp only [insertDisk, ht, hw, save_empty ht hn]
  split
  · exact ⟨_, rfl⟩
  · exact ⟨_, rfl⟩

/-- The FIFO with the next id given, and the byte it is given to. -/
def PermFifo.counted (f : PermFifo) : PermFifo := { f with currentId := f.currentId + 1 }

def PermFifo.byteRecord (f : PermFifo) : Record := ⟨f.currentId + 1, [1]⟩

def PermFifo.byteItem (f : PermFifo) : FifoItem := f.byteRecord.item

theorem byteItem_data (f : PermFifo) : f.byteItem.data ≠ none := Record.item_data_ne_none _

theorem writeByte_disk {e : Env} (ht : g.tableDisk = some t) : writeItem e g [1] =
    (insertClient e g.counted g.byteItem).bind fun q =>
      insertDisk e q.2 q.1 (if q.1 && !e.alloc 1 then { g.byteItem with data := none } else g.byteItem) :=
  writeItem_disk ht

theorem use_oneByte_disk {e : Env} {doCopy : Bool} {k : PermFifo} {r : Ret} (ht : g.tableDisk = some t)
    (hi : insertClient e g.counted g.byteItem = some (doCopy, k))
    (hd : insertDisk e k doCopy (if doCopy && !e.alloc 1 then { g.byteItem with data := none } else g.byteItem) =
      some (r, h)) : use g (oneByte e) = some (.code r, h) := by
  rw [use_oneByte, writeByte_disk ht, hi, Option.bind_some, hd, Option.map_some]

theorem insertClient_undefined {e : Env} (heq : item.id = g.nextIdInClientTable)
    (hw : ctWrite g.tableClient item = none) : insertClient e g item = none := by
  rw [insertClient, if_neg (not_not.2 heq), hw]

theorem insertClient_passed {e : Env} (hne : item.id ≠ g.nextIdInClientTable) :
    insertClient e g item = some (false, g) := if_pos hne

theorem insertClient_took {e : Env} {c : CircularTable} (heq : item.id = g.nextIdInClientTable)
    (hw : ctWrite g.tableClient item = some (.ok, c)) : insertClient e g item =
      some (true, { g with tableClient := c, nextIdInClientTable := g.nextIdInClientTable + 1 }) := by
  rw [insertClient, if_neg (not_not.2 heq), hw]

theorem insertClient_full {e : Env} {c : CircularTable} (heq : item.id = g.nextIdInClientTable)
    (hw : ctWrite g.tableClient item = some (.error, c)) (ht : g.tableDisk = some t) (hn : t.nItems = 0) :
    insertClient e g item = some (false, { g with nextIdInClientTable := 0, lastFlush := e.now }) := by
  have hsave := @save_empty { g with nextIdInClientTable := 0 } t e ht hn
  rw [insertClient, if_neg (not_not.2 heq), hw]
  simp only [hsave, Option.map_some]

/-- The allocation of the copy fails. -/
def noCopy : Env := ⟨0, fun i => decide (i ≠ 1), true⟩

/-- **A write whose copy cannot be made** takes an id and leaves the client table at its length, where its index does
not overflow. -/
theorem noCopy_cases (hg : Emptied g) :
    (use g (oneByte noCopy) = none ∧ g.nextIdInClientTable = g.currentId + 1 ∧ intMax < g.tableClient.behind) ∨
    ∃ o h, use g (oneByte noCopy) = some (o, h) ∧ h.tableClient.behind = g.tableClient.behind ∧
      (g.nextIdInClientTable ≠ g.currentId + 1 ∧ h.nextIdInClientTable = g.nextIdInClientTable ∨
        g.nextIdInClientTable = g.currentId + 1 ∧ h.nextIdInClientTable = 0 ∨
        g.nextIdInClientTable = g.currentId + 1 ∧ h.nextIdInClientTable = g.nextIdInClientTable + 1 ∧
          g.tableClient.behind ≤ intMax) := by
  obtain ⟨t, ht, hup, hnil⟩ := hg.disk
  have hn := hup.wf.toList_eq_nil.1 hnil
  by_cases hnext : g.nextIdInClientTable = g.currentId + 1
  · cases hw : ctWrite g.tableClient g.byteItem with
    | none =>
      have hi := @insertClient_undefined g.counted g.byteItem noCopy hnext.symm hw
      exact .inl ⟨by rw [use_oneByte, writeByte_disk ht, hi]; rfl, hnext, ctWrite_undefined hw⟩
    | some p =>
      obtain ⟨r, c⟩ := p
      cases r with
      | error =>
        have hi := @insertClient_full g.counted t g.byteItem noCopy c hnext.symm hw ht hn
        obtain ⟨t', hd, -⟩ := @insertDisk_empty { g.counted with nextIdInClientTable := 0, lastFlush := noCopy.now } t
          g.byteItem _ noCopy false ht hup hnil (byteItem_data g)
        exact .inr ⟨_, _, use_oneByte_disk ht hi hd, rfl, .inr (.inl ⟨hnext, rfl⟩)⟩
      | ok =>
        obtain ⟨hbehind, hfirst, hcount⟩ := ctWrite_ok hw
        have hi := @insertClient_took g.counted g.byteItem noCopy c hnext.symm hw
        obtain ⟨h, hd⟩ := @insertDisk_noData { g.counted with
          tableClient := c, nextIdInClientTable := g.nextIdInClientTable + 1 } t { g.byteItem with data := none } noCopy
          true ht hn rfl
        have hk := insertDisk_keeps hd
        refine .inr ⟨_, h, use_oneByte_disk ht hi hd, ?_, .inr (.inr ⟨hnext, hk.next, hbehind⟩)⟩
        rw [hk.client, if_pos ⟨rfl, rfl⟩]
        simp only [behind, hfirst, hcount]
        omega
  · have hi := @insertClient_passed g.counted g.byteItem noCopy (Ne.symm hnext)
    obtain ⟨t', hd, -⟩ := @insertDisk_empty g.counted t g.byteItem _ noCopy false ht hup hnil (byteItem_data g)
    exact .inr ⟨_, _, use_oneByte_disk ht hi hd, rfl, .inl ⟨hnext, rfl⟩⟩

/-! ## The last id comes out -/

/-- Everything was acknowledged, the client table is empty and not all was read. -/
structure Drained (g : PermFifo) : Prop where
  emptied : Emptied g
  client : g.tableClient.toList = []
  unread : g.lastIdOut < g.currentId

theorem Drained.upto (hg : Drained g) (n : Nat) : g.tableClient.Upto n := by
  refine ⟨hg.emptied.onDisk.client, hg.emptied.onDisk.small, fun x hx => ?_⟩
  rw [hg.client] at hx
  cases hx

theorem Drained.taken (hg : Drained g) (hnext : g.nextIdInClientTable = g.currentId + 1) :
    ∃ cs h, run after g cs = some h ∧ h.lastIdOut = h.currentId := by
  obtain ⟨t, ht, hup, hnil⟩ := hg.emptied.disk
  obtain ⟨c, hw, hwf, -, hl⟩ := ctWrite_empty (hg.upto 0) hg.client (byteItem_data g)
  have hi := @insertClient_took g.counted g.byteItem calm c hnext.symm hw
  obtain ⟨t', hd, -⟩ := @insertDisk_empty { g.counted with
    tableClient := c, nextIdInClientTable := g.nextIdInClientTable + 1 } t g.byteItem _ calm true ht hup hnil
    (byteItem_data g)
  have hwrite := use_oneByte_disk ht hi hd
  obtain ⟨h, hrun, hlast⟩ := @read_last { g.counted with
    tableClient := c, tableDisk := some t', nextIdInClientTable := g.nextIdInClientTable + 1 } g.byteItem hl hwf rfl
    (Nat.lt_succ_of_lt hg.unread)
  exact ⟨[oneByte calm, (calm, .read 0)], h, (run_after hwrite).trans hrun, hlast⟩

/-- A time at which a flush saves. -/
def PermFifo.due (f : PermFifo) : Env := ⟨f.lastFlush, fun _ => true, true⟩

/-- What a byte written past the client table and then saved leaves. -/
structure Saved (g h : PermFifo) : Prop where
  emptied : Emptied h
  client : h.tableClient = g.tableClient
  currentId : h.currentId = g.currentId + 1
  lastIdOut : h.lastIdOut = g.lastIdOut
  offset : h.lastOutOffset = g.lastOutOffset
  file : ∀ c, g.file = some c → h.file = some (c ++ g.byteRecord.bytes)
  onDisk : h.lastIdOnDisk = g.currentId + 1
  toAck : h.ackOnDisk = true

theorem Drained.saved (hg : Drained g) (hnext : g.nextIdInClientTable ≠ g.currentId + 1) :
    ∃ h, run after g [oneByte calm, (g.due, .flush 0)] = some h ∧ Saved g h := by
  obtain ⟨t, ht, hup, hnil⟩ := hg.emptied.disk
  obtain ⟨c, hc⟩ := hg.emptied.onDisk.backed.file
  obtain ⟨t', hd, hwf, hs, hl⟩ := @insertDisk_empty g.counted t g.byteItem _ calm false ht hup hnil (byteItem_data g)
  have hwrite := use_oneByte_disk ht (@insertClient_passed g.counted g.byteItem calm (Ne.symm hnext)) hd
  have hold : t'.Holds [g.byteRecord] := ⟨hwf, hl⟩
  have hn : t'.nItems = 1 := hold.nItems
  have hsmall := hup.small
  have hfirst := hwf.first
  have hlast : t'.lastIndex.isSome = true := by
    rw [lastIndex, intAdd_of_le (by omega)]
    rfl
  obtain ⟨j, hj⟩ := Option.isSome_iff_exists.1 hlast
  have hid : (t'.items.getD j emptyFifoItem).id = g.currentId + 1 := by
    rw [@Holds.getD_lastIndex t' [] j _ hold hj]
    rfl
  obtain ⟨hsave, -, hchunks⟩ := ctSave_spec hold (by simp [PermFifo.byteRecord])
  have hbytes : (ctSave t').2.flatten = g.byteRecord.bytes := by
    rw [hchunks, flatten_recordChunks, encode_cons, encode_nil, List.append_nil]
  have hflush : use { g.counted with tableDisk := some t' } (g.due, .flush 0) = some (.code .ok, { g.counted with
      tableDisk := some (ctSave t').1, file := some (c ++ g.byteRecord.bytes), lastIdOnDisk := g.currentId + 1
      ackOnDisk := true }) := by
    have hsaved : permFifoSaveTabledisk g.due { g.counted with tableDisk := some t' } = some (.ok, { g.counted with
        tableDisk := some (ctSave t').1, file := some (c ++ g.byteRecord.bytes), lastIdOnDisk := g.currentId + 1
        ackOnDisk := true }) := by
      simp only [permFifoSaveTabledisk, PermFifo.counted, PermFifo.due, hn, hj, hc, hid, hbytes]
      rfl
    simp only [use, permFifoFlush]
    rw [if_pos (by simp [PermFifo.due, PermFifo.counted]), hsaved]
    rfl
  refine ⟨_, (run_after hwrite).trans (run_after hflush), ⟨⟨?_, ?_⟩, rfl, rfl, rfl, rfl, ?_, rfl, rfl⟩⟩
  · exact (hg.emptied.onDisk.use hwrite).use hflush
  · intro u hu
    rw [← Option.some.inj hu]
    exact hsave.list
  · intro c' hc'
    rw [Option.some.inj (hc.symm.trans hc')]

/-- The acknowledgement of what was saved leaves the header alone in the file. -/
theorem Saved.acked (hs : Saved g h) : (permFifoAck h h.currentId).2.lastOutOffset = headerSize ∧
    ∃ b, (permFifoAck h h.currentId).2.file = some b ∧ b.length = headerSize := by
  obtain ⟨t, ht, -⟩ := hs.emptied.disk
  obtain ⟨c, hc⟩ := hs.emptied.onDisk.backed.file
  have hle : h.lastIdOnDisk ≤ h.currentId := by rw [hs.onDisk, hs.currentId]
  have hdrop : (c.take headerSize).drop headerSize = [] := List.drop_eq_nil_of_le (List.length_take_le _ _)
  simp only [permFifoAck, ht, hs.toAck, hc, ackFile, if_pos hle]
  exact ⟨rfl, _, rfl, by simp [Fd.overwrite, hdrop]⟩

theorem ctLoad_one {alloc : Nat → Bool} {id : Nat} {r : Record} (ha : ∀ i, alloc i = true) (hr : r.Ok) (hid : id ≤ r.id)
    (hup : t.Upto n) (hnil : t.toList = []) (m : Nat) (before : Bytes) :
    ∃ l, ctLoad alloc (m + 2) (Fd.between before r.bytes) t id 0 = some l ∧ l.table.Holds [r] ∧
      l.table.size = t.size := by
  obtain ⟨t', hw, hwf, hs, hl⟩ := ctWrite_empty hup hnil r.item_data_ne_none
  have hn := hup.wf.toList_eq_nil.1 hnil
  have hpos := hup.wf.pos
  have hread := Fd.read_between (n := r.data.length) (before ++ r.header.bytes) [] rfl
  have hhead := read_record_header r before []
  rw [List.append_nil] at hread hhead
  have hload : ctLoad alloc (m + 2) (Fd.between before r.bytes) t id 0 =
      some ⟨if t'.nItems = t'.size then -3 else 0, Fd.between (before ++ r.header.bytes ++ r.data) [], t'⟩ := by
    rw [ctLoad, if_neg (by omega), hhead]
    simp only [SubHeader.length_bytes, hr.parse, List.append_nil]
    rw [if_neg (by decide), if_neg (by simp), if_neg (by simp [Record.header]),
      if_neg (fun hskip => absurd hskip.2 (Nat.not_lt.2 hid)), if_neg (by simp [ha]),
      show r.header.size = r.data.length from rfl, hread]
    simp only [hr.size_mod, ne_eq, not_true_eq_false, if_false]
    rw [show (⟨r.data.length, some r.data, r.header.id⟩ : FifoItem) = r.item from rfl, hw]
    exact ctLoad_nil m 1 _ t'
  exact ⟨_, hload, ⟨hwf, hl⟩, hs⟩

/-- Past two empty tables a read goes to the file. -/
theorem permFifoRead_fromFile {e : Env} (hmust : mustWait g = false) (hclient : ctRead g.tableClient = none)
    (ht : g.tableDisk = some t) (hn : t.nItems = 0) : permFifoRead e g = readFromFile e g := by
  cases g
  simp only at hclient ht
  subst ht
  simp [permFifoRead, hmust, hclient, hn, diskScan]

theorem read_saved {r : Record} {b : Bytes} (hg : Drained h) (hr : r.Ok) (hlast : r.id = h.currentId)
    (hfile : h.file = some (b ++ r.bytes)) (hoff : h.lastOutOffset = b.length) :
    ∃ k, use h (calm, .read 0) = some (.item 0 r.item, k) := by
  obtain ⟨t, ht, hup, hnil⟩ := hg.emptied.disk
  have hn := hup.wf.toList_eq_nil.1 hnil
  have hunread := hg.unread
  have hmust : mustWait h = false := by simpa [mustWait] using hunread
  have hclient := (ctRead_eq_none hg.emptied.onDisk.client).2 hg.client
  have hlen : (b ++ r.bytes).length + 1 = (b ++ r.bytes).length - 1 + 2 := by
    simp only [List.length_append, Record.bytes, SubHeader.length_bytes, headerSize]
    omega
  obtain ⟨l, hload, hold, hsize⟩ := @ctLoad_one h.tableClient 0 calm.alloc (h.lastIdOut + 1) r (fun _ => rfl) hr
    (by omega) (hg.upto 0) hg.client ((b ++ r.bytes).length - 1) b
  have hsome : ctRead l.table ≠ none := fun hn => by cases hold.read_none.1 hn
  obtain ⟨⟨x, c⟩, hread⟩ := Option.ne_none_iff_exists'.1 hsome
  obtain ⟨r', rest, heq, rfl, -⟩ := hold.read hread
  obtain rfl := (List.cons.inj heq).1
  have hfirst := hold.wf.first
  have hsmall := hg.emptied.onDisk.small
  have hcount := hold.nItems
  have hindex : ∃ j, l.table.lastIndex = some j := by
    rw [lastIndex, intAdd_of_le (by simp only [hcount, List.length_singleton]; omega)]
    exact ⟨_, rfl⟩
  obtain ⟨j, hj⟩ := hindex
  have hload' : ctLoad calm.alloc ((b ++ r.bytes).length + 1) ⟨b ++ r.bytes, h.lastOutOffset⟩ h.tableClient
      (h.lastIdOut + 1) 0 = some l := by
    rw [hoff, hlen]
    exact hload
  obtain ⟨k, hfrom⟩ : ∃ k, readFromFile calm h = some (0, r.item, k) := by
    simp only [readFromFile, hfile, hload', hread, hj]
    exact ⟨_, rfl⟩
  exact ⟨k, by simp [use, hmust, permFifoRead_fromFile hmust hclient ht hn, hfrom]⟩

/-- **The last id can be brought out**: a byte through the client table, or a second one through the cleaned file. -/
theorem Drained.exists_last_read (hg : Drained g) (hid : g.currentId + 2 < 2 ^ 64) :
    ∃ cs h, run after g cs = some h ∧ h.lastIdOut = h.currentId := by
  by_cases hnext : g.nextIdInClientTable = g.currentId + 1
  · exact hg.taken hnext
  · obtain ⟨h, hrun, hs⟩ := hg.saved hnext
    have hack : use h (calm, .ack h.currentId) = some (.acked _, (permFifoAck h h.currentId).2) := rfl
    obtain ⟨hoff, b, hfile, hlen⟩ := hs.acked
    have hsame := (ack_keeps h h.currentId).1
    have hcur := hs.currentId
    have hunread := hg.unread
    have hk : Drained (permFifoAck h h.currentId).2 := ⟨emptied_ack hs.emptied.onDisk (Nat.le_refl _),
      by rw [hsame.tableClient, hs.client, hg.client], by rw [hsame.lastIdOut, hsame.currentId, hs.lastIdOut]; omega⟩
    have hkcur := hsame.currentId
    generalize (permFifoAck h h.currentId).2 = k at *
    by_cases hnext' : k.nextIdInClientTable = k.currentId + 1
    · obtain ⟨cs, h', hrun', hlast⟩ := hk.taken hnext'
      exact ⟨[oneByte calm, (g.due, .flush 0)] ++ (calm, .ack h.currentId) :: cs, h', by
        rw [run_append, hrun, Option.bind_some, run_after hack, hrun'], hlast⟩
    · obtain ⟨k', hrun', hs'⟩ := hk.saved hnext'
      have hk' : Drained k' := ⟨hs'.emptied, hs'.client ▸ hk.client, by
        rw [hs'.lastIdOut, hs'.currentId]
        exact Nat.lt_succ_of_lt hk.unread⟩
      have hok : k.byteRecord.Ok := ⟨Nat.succ_pos _, by simp only [PermFifo.byteRecord]; omega,
        show 1 ≤ ioMax by decide⟩
      obtain ⟨x, hread⟩ := read_saved hk' hok hs'.currentId.symm (hs'.file b hfile) (by rw [hs'.offset, hoff, hlen])
      refine ⟨[oneByte calm, (g.due, .flush 0)] ++ (calm, .ack h.currentId) ::
        ([oneByte calm, (k.due, .flush 0)] ++ [(calm, .read 0)]), x, ?_, ?_⟩
      · rw [run_append, hrun, Option.bind_some, run_after hack, run_append, hrun', Option.bind_some, run_after hread]
        rfl
      · obtain ⟨hc, hout⟩ := use_counts hread
        rw [hc, hout]
        exact hs'.currentId.symm

/-! ## Two FIFOs -/

/-- Both acknowledge all there is. -/
theorem both_acked (id : Nat) (ha : Alike use g g') (hgap : Gap g g') (hg : OnDisk g) (hg' : OnDisk g')
    (hle : g'.currentId ≤ id) : Alike use (permFifoAck g id).2 (permFifoAck g' id).2 ∧
      Gap (permFifoAck g id).2 (permFifoAck g' id).2 ∧ Emptied (permFifoAck g id).2 ∧
        Emptied (permFifoAck g' id).2 := by
  have hcur := hgap.currentId
  have hu : use g (calm, .ack id) = some (.acked (permFifoAck g id).1, (permFifoAck g id).2) := rfl
  have hu' : use g' (calm, .ack id) = some (.acked (permFifoAck g' id).1, (permFifoAck g' id).2) := rfl
  obtain ⟨h', hstep, ha'⟩ := ha.step hu
  obtain rfl := (Prod.mk.inj (Option.some.inj (hu'.symm.trans hstep))).2
  exact ⟨ha', hgap.use hu hstep, emptied_ack hg (by omega), emptied_ack hg' hle⟩

/-- What keeps the writes of the one from failing at a client index where those of the other do not: its index does not
overflow, or the ids are past the one the table waits for, or the index of the other overflows too, at another id. -/
def Apart (g g' : PermFifo) : Prop :=
  g.tableClient.behind ≤ intMax ∨ g.nextIdInClientTable ≤ g.currentId ∨
    intMax < g'.tableClient.behind ∧ g'.nextIdInClientTable ≠ g.nextIdInClientTable + 1

/-- **Behind the last id out**, writes bring the current id up to it. -/
theorem behind_told_apart : ∀ (k : Nat) {g g' : PermFifo}, Alike use g g' → Gap g g' → Emptied g → Emptied g' →
    Apart g g' → g.lastIdOut = g.currentId + k → False
  | 0, _, _, ha, hgap, _, _, _, hk => gap_told_apart ha hgap hk
  | k + 1, g, g', ha, hgap, hg, hg', hapart, hk => by
    have hcur := hgap.currentId
    rcases noCopy_cases hg with ⟨hnone, hnext, hbig⟩ | ⟨o, h, hu, hbehind, hnext⟩
    · -- without a result in the one there is none in the other, which waits for the same id
      rcases hapart with hsmall | hpast | ⟨-, hne⟩
      · omega
      · omega
      · have hnone' := ha.none hnone
        rcases noCopy_cases hg' with ⟨-, hnext', -⟩ | ⟨o', h', hu', -⟩
        · omega
        · rw [hnone'] at hu'
          cases hu'
    · obtain ⟨h', hu', ha'⟩ := ha.step hu
      have hgap' := hgap.use hu hu'
      obtain ⟨hids, hout⟩ := use_counts hu
      have hone : Use.ids (oneByte noCopy) = 1 := rfl
      rw [hone] at hids
      rcases noCopy_cases hg' with ⟨hnone', -⟩ | ⟨o', h₁, hu₁, hbehind', hnext'⟩
      · rw [hnone'] at hu'
        cases hu'
      · obtain ⟨-, rfl⟩ := Prod.mk.inj (Option.some.inj (hu₁.symm.trans hu'))
        have hapart' : Apart h h₁ := by
          rcases hapart with hsmall | hpast | ⟨hbig, hne⟩
          · exact .inl (hbehind ▸ hsmall)
          · refine .inr (.inl ?_)
            omega
          · rcases hnext with ⟨hn, hsame⟩ | ⟨hn, hzero⟩ | ⟨-, -, hsmall⟩
            · refine .inr (.inr ⟨hbehind' ▸ hbig, ?_⟩)
              omega
            · refine .inr (.inl ?_)
              omega
            · exact .inl (hbehind ▸ hsmall)
        obtain ⟨hacked, hgapa, hea, hea'⟩ := both_acked h₁.currentId ha' hgap' (hg.onDisk.use hu)
          (hg'.onDisk.use hu₁) (Nat.le_refl _)
        have hsame := (ack_keeps h h₁.currentId).1
        have hsame' := (ack_keeps h₁ h₁.currentId).1
        have hlast : h.lastIdOut = g.lastIdOut := by
          rw [use_oneByte] at hu
          obtain ⟨r, -, heq⟩ := Option.map_eq_some_iff.1 hu
          obtain ⟨rfl, -⟩ := Prod.mk.inj heq
          exact hout
        refine behind_told_apart k hacked hgapa hea hea' ?_ ?_
        · unfold Apart
          rw [hsame.tableClient, hsame.next, hsame.currentId, hsame'.tableClient, hsame'.next]
          exact hapart'
        · rw [hsame.lastIdOut, hsame.currentId]
          omega

/-- **Reads drain the client table**; at the end the last id comes out, or writes reach the last id that is out. -/
theorem drain_told_apart : ∀ (k : Nat) {g g' : PermFifo}, g.tableClient.nItems = k → Alike use g g' → Gap g g' →
    Emptied g → Emptied g' → (g.tableClient.behind ≤ intMax ∨
      g'.tableClient = g.tableClient ∧ g'.nextIdInClientTable ≠ g.nextIdInClientTable + 1) →
    g.currentId + 2 < 2 ^ 64 → False
  | k, g, g', hk, ha, hgap, hg, hg', hclose, hid => by
    by_cases hlt : g.lastIdOut < g.currentId
    · cases hr : ctRead g.tableClient with
      | none =>
        have hdrained : Drained g := ⟨hg, (ctRead_eq_none hg.onDisk.client).1 hr, hlt⟩
        obtain ⟨cs, h, hrun, hlast⟩ := hdrained.exists_last_read hid
        exact not_alike_of_run cs ha hgap hrun hlast
      | some p =>
        obtain ⟨x, t'⟩ := p
        have hread := use_read_client hlt hr
        obtain ⟨h', hread', ha'⟩ := ha.step hread
        have hcount := (ctRead_spec hg.onDisk.client hr).2.2.1
        refine drain_told_apart (k - 1) (g := g.take t' x.id) (by simp only [PermFifo.take]; omega) ha'
          (hgap.use hread hread') (hg.read hread) (hg'.read hread') ?_ hid
        rcases hclose with hsmall | ⟨hsame, hne⟩
        · exact .inl (Nat.le_trans (ctRead_behind hr) hsmall)
        · -- the partner reads from an equal table
          have hlt' : g'.lastIdOut < g'.currentId := by
            rw [hgap.lastIdOut, hgap.currentId]
            exact Nat.lt_succ_of_lt hlt
          have hboth := (use_read_client hlt' (hsame ▸ hr)).symm.trans hread'
          obtain rfl := (Prod.mk.inj (Option.some.inj hboth)).2
          exact .inr ⟨rfl, hne⟩
    · have hapart : Apart g g' := by
        rcases hclose with hsmall | ⟨hsame, hne⟩
        · exact .inl hsmall
        · by_cases hsmall : g.tableClient.behind ≤ intMax
          · exact .inl hsmall
          · exact .inr (.inr ⟨hsame ▸ Nat.not_le.1 hsmall, hne⟩)
      exact behind_told_apart (g.lastIdOut - g.currentId) ha hgap hg hg' hapart (by omega)
  termination_by k => k
  decreasing_by omega

/-- **With a disk table** a failed write can be told. -/
theorem onDisk_told_apart (hf : OnDisk f) (hf' : OnDisk f') (hk : WriteKeeps f f' .error)
    (hid : f.currentId + 2 < 2 ^ 64) (ha : Alike use f f') : False := by
  have hdisk : f.tableDisk ≠ none := by
    obtain ⟨t, ht, -⟩ := hf.backed.disk
    rw [ht]
    exact Option.some_ne_none t
  obtain ⟨hacked, hgap, hg, hg'⟩ := both_acked f'.currentId ha ⟨hk.currentId, hk.lastIdOut⟩ hf hf'
    (Nat.le_refl _)
  have hsame := (ack_keeps f f'.currentId).1
  have hsame' := (ack_keeps f' f'.currentId).1
  refine drain_told_apart _ rfl hacked hgap hg hg' ?_ ?_
  · rw [hsame.tableClient, hsame.next, hsame'.tableClient, hsame'.next]
    exact hk.failed rfl hdisk
  · rw [hsame.currentId]
    exact hid

/-! ## With a NULL client table -/

/-- Without tables and past the wait, the counters are not seen. -/
structure Tableless (g g' : PermFifo) : Prop where
  client : g.tableClient = nullTable
  client' : g'.tableClient = nullTable
  disk : g.tableDisk = none
  disk' : g'.tableDisk = none
  unread : g.lastIdOut < g.currentId
  unread' : g'.lastIdOut < g'.currentId
  lastFlush : g'.lastFlush = g.lastFlush

theorem use_tableless {c : Env × Use} (hc : g.tableClient = nullTable) (hd : g.tableDisk = none)
    (hlt : g.lastIdOut < g.currentId) : use g c =
      match c.2 with
      | .read _ => some (.item 1 emptyFifoItem, g)
      | .write data size =>
        if Refused c.1 data size then some (.code .error, g)
        else ((data.bind fun b => payload b size.toNat).map fun _ => (.code .error, g.counted))
      | .ack _ => some (.acked (-1), g)
      | .flush timeout => if g.lastFlush + timeout ≤ c.1.now then none else some (.code .ok, g) := by
  obtain ⟨e, u⟩ := c
  have hmust : mustWait g = false := by simpa [mustWait] using hlt
  cases u with
  | read timeout => simp [use, hmust, permFifoRead_noDisk hd, hc, nullTable, ctRead]
  | write data size =>
    by_cases href : Refused e data size
    · simp only [use_refused href, if_pos href]
    · obtain ⟨b, rfl, hw⟩ := permFifoWrite_taken (f := g) href
      simp only [use, hw, if_neg href, Option.bind_some]
      cases payload b size.toNat with
      | none => rfl
      | some p =>
        have hfull : ctWrite g.tableClient (Record.item ⟨g.currentId + 1, p⟩) = some (.error, nullTable) := by
          rw [hc, ctWrite, if_pos (show nullTable.size = nullTable.nItems from rfl)]
        simp [writeItem_noDisk hd, hfull, ← hc, PermFifo.counted]
  | ack id => simp [use, permFifoAck, hd]
  | flush timeout =>
    simp only [use, permFifoFlush, save_noDisk hd]
    split <;> rfl

theorem Tableless.alike (h : Tableless g g') : Alike use g g' := by
  refine alike_of (R := Tableless) (fun g g' c h => ?_) h
  obtain ⟨e, u⟩ := c
  rw [use_tableless h.client h.disk h.unread, use_tableless h.client' h.disk' h.unread', h.lastFlush]
  cases u with
  | read timeout => exact .inr ⟨_, g, g', rfl, rfl, h⟩
  | write data size =>
    by_cases href : Refused e data size
    · simp only [if_pos href]
      exact .inr ⟨_, g, g', rfl, rfl, h⟩
    · simp only [if_neg href]
      cases data.bind fun b => payload b size.toNat with
      | none => exact .inl ⟨rfl, rfl⟩
      | some p =>
        exact .inr ⟨_, g.counted, g'.counted, rfl, rfl, h.client, h.client', h.disk, h.disk',
          Nat.lt_succ_of_lt h.unread, Nat.lt_succ_of_lt h.unread', h.lastFlush⟩
  | ack id => exact .inr ⟨_, g, g', rfl, rfl, h⟩
  | flush timeout =>
    dsimp only
    split
    · exact .inl ⟨rfl, rfl⟩
    · exact .inr ⟨_, g, g', rfl, rfl, h⟩

/-! ## Every FIFO -/

/-- **A failed write goes unseen exactly when** it took no id, or the FIFO was made without a client table and its
reads no longer wait. -/
theorem failedWrite_unseen_iff {e : Env} {data : Option Bytes} {size : Int} (hf : Reachable f)
    (hw : permFifoWrite e f data size = some (.error, f')) (hid : f.currentId + 2 < 2 ^ 64) :
    Alike use f f' ↔ Refused e data size ∨ f.tableClient.size = 0 ∧ f.lastIdOut < f.currentId := by
  by_cases href : Refused e data size
  · obtain rfl := (Prod.mk.inj (Option.some.inj ((permFifoWrite_refused href).symm.trans hw))).2
    exact ⟨fun _ => .inl href, fun _ => .refl f⟩
  have hu : use f (e, .write data size) = some (.code .error, f') := by
    simp only [use, hw, Option.map_some]
  obtain ⟨r, b, heq, hitem⟩ := use_write hu href
  obtain rfl := Seen.code.inj heq
  have hk := writeItem_keeps hitem
  have hgap : Gap f f' := ⟨hk.currentId, hk.lastIdOut⟩
  rcases hf.kind with hd | hm
  · have hpos := hd.client.pos
    refine ⟨fun ha => (onDisk_told_apart hd (hd.use hu) hk hid ha).elim, fun hcond => ?_⟩
    rcases hcond with hr | ⟨hzero, -⟩
    · exact absurd hr href
    · omega
  · by_cases hnull : f.tableClient = nullTable
    · rw [hnull]
      constructor
      · intro ha
        refine .inr ⟨rfl, Nat.lt_of_le_of_ne hm.out_le fun hout => gap_told_apart ha hgap hout⟩
      · rintro (hr | ⟨-, hlt⟩)
        · exact absurd hr href
        · have hm' := (hm.use hu).1
          have hfull := hu.symm.trans (use_tableless hnull hm.noDisk hlt)
          simp only [if_neg href] at hfull
          obtain ⟨p, -, hp⟩ := Option.map_eq_some_iff.1 hfull.symm
          obtain rfl := (Prod.mk.inj hp).2
          exact Tableless.alike ⟨hnull, hnull, hm.noDisk, hm.noDisk, hlt, Nat.lt_succ_of_lt hlt, rfl⟩
    · have hpos := (hm.client.resolve_left hnull).wf.pos
      refine ⟨fun ha => (inMemory_told_apart _ rfl ha hgap hm hnull).elim, fun hcond => ?_⟩
      rcases hcond with hr | ⟨hzero, -⟩
      · exact absurd hr href
      · omega

/-- A FIFO in memory with one slot, taken. -/
def fullSlot : PermFifo := { permFifoNewNoPath calm 1 with
  currentId := 1, tableClient := ⟨1, 0, 1, [Record.item ⟨1, [1]⟩]⟩ }

theorem fullSlot_reachable : Reachable fullSlot :=
  .use (c := oneByte calm) (o := .code .ok) (@Reachable.noPath calm 1 (by decide)) (by decide +kernel)

/-- Two reads, the second with a timeout. -/
def readTwice : List (Env × Use) := [(calm, .read 0), (calm, .read 5)]

theorem failedWrite_unseen_fullSlot : Alike use fullSlot fullSlot.counted ↔
    Refused calm (some [1]) 1 ∨ fullSlot.tableClient.size = 0 ∧ fullSlot.lastIdOut < fullSlot.currentId :=
  failedWrite_unseen_iff fullSlot_reachable (by decide +kernel) (by decide)

/-- The second read waits without the failed write and returns 1 at once behind it. -/
theorem fullSlot_failedWrite_seen : Reachable fullSlot ∧
    permFifoWrite calm fullSlot (some [1]) 1 = some (.error, fullSlot.counted) ∧
    answers use fullSlot readTwice = some [.item 0 (Record.item ⟨1, [1]⟩), .waits] ∧
    answers use fullSlot.counted readTwice = some [.item 0 (Record.item ⟨1, [1]⟩), .item 1 emptyFifoItem] ∧
    ¬ Alike use fullSlot fullSlot.counted := by
  have hbefore : answers use fullSlot readTwice = some [.item 0 (Record.item ⟨1, [1]⟩), .waits] := by decide +kernel
  have hbehind : answers use fullSlot.counted readTwice =
      some [.item 0 (Record.item ⟨1, [1]⟩), .item 1 emptyFifoItem] := by decide +kernel
  refine ⟨fullSlot_reachable, by decide +kernel, hbefore, hbehind, fun ha => ?_⟩
  have heq := ha readTwice
  rw [hbefore, hbehind] at heq
  cases heq

end Perm
end Flp
