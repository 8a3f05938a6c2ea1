import FlpPrototype.PermFifo.Invariant
/-!
# Reach — every permanent FIFO there can be, whatever fails

The calls of a user (`use`), with a read that would wait told apart from one that returns, and what holds of a FIFO
after any of them on any directory, with any allocation and any seek failing: the tables are tables of their size, the
disk table holds no id above the last one given, and without a disk table no item is beyond it (`Shape`).  Two counters
follow from the answers alone (`use_counts`).
-/
namespace Flp
namespace Perm

open CircularTable

/-- The calls of a user. -/
inductive Use where
  | read (timeout : Int)
  | write (data : Option Bytes) (size : Int)
  | ack (id : Nat)
  | flush (timeout : Int)
  deriving DecidableEq, Repr

/-- What a user sees of a call. -/
inductive Seen where
  | waits
  | item (code : Int) (item : FifoItem)
  | code (r : Ret)
  | acked (code : Int)
  deriving DecidableEq, Repr

/-- One call.  A read with a timeout waits while there is nothing; what it returns after a write is what a read with
timeout 0 returns then, and after its timeout it leaves the FIFO as it was. -/
def use (f : PermFifo) (c : Env × Use) : Option (Seen × PermFifo) :=
  match c.2 with
  | .read timeout =>
    if mustWait f ∧ timeout ≠ 0 then some (.waits, f)
    else (permFifoRead c.1 f).map fun r => (.item r.1 r.2.1, r.2.2)
  | .write data size => (permFifoWrite c.1 f data size).map fun r => (.code r.1, r.2)
  | .ack id          => some (.acked (permFifoAck f id).1, (permFifoAck f id).2)
  | .flush timeout   => (permFifoFlush c.1 f timeout).map fun r => (.code r.1, r.2)

/-- The FIFOs made with a size that is an `int`, without a path or on one in any directory, after any calls. -/
inductive Reachable : PermFifo → Prop where
  | noPath {e : Env} {size : Int} (hint : size ≤ intMax) : Reachable (permFifoNewNoPath e size)
  | path {e : Env} {d : Dir FileName} {size : Int} {f : PermFifo} (hint : size ≤ intMax)
      (h : permFifoNew e d size = some f) : Reachable f
  | use {f f' : PermFifo} {c : Env × Use} {o : Seen} (hf : Reachable f) (h : use f c = some (o, f')) : Reachable f'

/-! ## Tables -/

variable {t t' : CircularTable} {item : FifoItem} {r : Ret}

/-- A table made with an `int`, all ids in it at most `n`. -/
structure CircularTable.Upto (t : CircularTable) (n : Nat) : Prop where
  wf : t.Wf
  small : t.size ≤ intMax
  ids : ∀ x ∈ t.toList, x.id ≤ n

theorem CircularTable.Upto.mono {m n : Nat} (h : t.Upto m) (hmn : m ≤ n) : t.Upto n :=
  ⟨h.wf, h.small, fun x hx => Nat.le_trans (h.ids x hx) hmn⟩

theorem ctWrite_wf (hw : t.Wf) (h : ctWrite t item = some (r, t')) :
    t'.Wf ∧ t'.size = t.size ∧ (t' = t ∨ t'.toList = t.toList ++ [item]) := by
  by_cases hd : item.data = none
  · unfold ctWrite at h
    rw [if_pos hd, ite_self] at h
    obtain ⟨-, rfl⟩ := Prod.mk.inj (Option.some.inj h)
    exact ⟨hw, rfl, .inl rfl⟩
  · rcases ctWrite_spec hw hd h with ⟨-, -, rfl⟩ | ⟨-, -, hwf, hs, -, hl⟩
    · exact ⟨hw, rfl, .inl rfl⟩
    · exact ⟨hwf, hs, .inr hl⟩

theorem CircularTable.Upto.write {n : Nat} (h : t.Upto n) (hid : item.id ≤ n) (hw : ctWrite t item = some (r, t')) :
    t'.Upto n ∧ t'.size = t.size := by
  obtain ⟨hwf, hs, hl⟩ := ctWrite_wf h.wf hw
  refine ⟨⟨hwf, hs ▸ h.small, fun x hx => ?_⟩, hs⟩
  rcases hl with rfl | hl
  · exact h.ids x hx
  · rw [hl] at hx
    rcases List.mem_append.1 hx with hx | hx
    · exact h.ids x hx
    · rwa [List.mem_singleton.1 hx]

theorem CircularTable.Upto.read {n : Nat} (h : t.Upto n) (hr : ctRead t = some (item, t')) :
    t'.Upto n ∧ t'.size = t.size ∧ item.id ≤ n := by
  obtain ⟨hwf, hs, -, hl⟩ := ctRead_spec h.wf hr
  refine ⟨⟨hwf, hs ▸ h.small, fun x hx => h.ids x ?_⟩, hs, h.ids item ?_⟩ <;> rw [hl]
  · exact List.mem_cons_of_mem _ hx
  · exact List.mem_cons_self

theorem ctSaveLoop_empties : ∀ (k : Nat) (t : CircularTable), t.Wf → t.nItems = k →
    (ctSaveLoop k t).1.Wf ∧ (ctSaveLoop k t).1.size = t.size ∧ (ctSaveLoop k t).1.toList = []
  | 0, t, hw, hk => ⟨hw, rfl, hw.toList_eq_nil.2 hk⟩
  | k + 1, t, hw, hk => by
    rw [ctSaveLoop]
    cases hr : ctRead t with
    | none =>
      have hnil := (ctRead_eq_none hw).1 hr
      exact ⟨hw, rfl, hnil⟩
    | some p =>
      obtain ⟨x, t'⟩ := p
      obtain ⟨hwf, hs, hn, -⟩ := ctRead_spec hw hr
      obtain ⟨h₁, h₂, h₃⟩ := ctSaveLoop_empties k t' hwf (by omega)
      exact ⟨h₁, h₂.trans hs, h₃⟩

/-- Acknowledging takes items from the table; all of them, if no id is above the acknowledged one. -/
theorem CircularTable.Upto.ackLoop {n : Nat} (id : Nat) : ∀ {k : Nat} {t : CircularTable}, t.Upto n → t.nItems = k →
    (ackLoop k t id).Upto n ∧ (Perm.ackLoop k t id).size = t.size ∧ (n ≤ id → (Perm.ackLoop k t id).toList = [])
  | 0, t, h, hk => ⟨h, rfl, fun _ => h.wf.toList_eq_nil.2 hk⟩
  | k + 1, t, h, hk => by
    have hsome : ctRead t ≠ none := fun hn => by
      have := h.wf.toList_eq_nil.1 ((ctRead_eq_none h.wf).1 hn)
      omega
    obtain ⟨⟨x, t'⟩, hr⟩ := Option.ne_none_iff_exists'.1 hsome
    obtain ⟨h', hs, hx⟩ := h.read hr
    obtain ⟨-, -, hn, -⟩ := ctRead_spec h.wf hr
    by_cases hid : x.id ≤ id
    · rw [ackLoop_step k id hr hid]
      obtain ⟨h₁, h₂, h₃⟩ := @CircularTable.Upto.ackLoop n id k t' h' (by omega)
      exact ⟨h₁, h₂.trans hs, h₃⟩
    · have hfirst : t.items.getD t.indexFirst emptyFifoItem = x := by
        unfold ctRead at hr
        split at hr
        · cases hr
        · exact (Prod.mk.inj (Option.some.inj hr)).1
      rw [Perm.ackLoop, if_neg (by omega), hfirst, if_pos (Nat.not_le.1 hid)]
      exact ⟨h, rfl, fun hle => absurd (Nat.le_trans hx hle) hid⟩

theorem ctLoad_wf {alloc : Nat → Bool} {id n k : Nat} {fd : Fd} {l : Loaded} (hw : t.Wf)
    (h : ctLoad alloc n fd t id k = some l) : l.table.Wf ∧ l.table.size = t.size := by
  fun_induction ctLoad alloc n fd t id k with
  | case1 | case10 => cases h
  | case7 =>
    -- an item below the id is passed over
    rename_i ih
    exact ih hw h
  | case12 =>
    rename_i t' hwrite ih
    obtain ⟨hwf, hs, -⟩ := ctWrite_wf hw hwrite
    obtain ⟨h₁, h₂⟩ := ih hwf h
    exact ⟨h₁, h₂.trans hs⟩
  | _ =>
    cases h
    exact ⟨hw, rfl⟩

theorem diskScan_wf {alloc : Nat → Bool} {is : List Nat} {s s' : Scan} (hw : s.client.Wf)
    (h : diskScan alloc t is s = some s') : s'.client.Wf ∧ s'.client.size = s.client.size := by
  fun_induction diskScan alloc t is s with
  | case2 | case7 => cases h
  | case3 | case6 =>
    -- an item passed over, or the first one, which does not go to the client table
    rename_i ih
    exact ih hw h
  | case9 =>
    rename_i c hwrite ih
    obtain ⟨hwf, hs, -⟩ := ctWrite_wf hw hwrite
    obtain ⟨h₁, h₂⟩ := ih hwf h
    exact ⟨h₁, h₂.trans hs⟩
  | _ =>
    cases h
    exact ⟨hw, rfl⟩

/-! ## What each call keeps -/

/-- The id of the last item out after an answer. -/
def Seen.out (n : Nat) : Seen → Nat
  | .item 0 x => x.id
  | _         => n

@[simp] theorem Seen.out_item_zero {n : Nat} {x : FifoItem} : (Seen.item 0 x).out n = x.id := rfl

theorem Seen.out_item_ne {n : Nat} {code : Int} {x : FifoItem} (h : code ≠ 0) : (Seen.item code x).out n = n := by
  unfold out
  split
  · rename_i he
    cases he
    exact absurd rfl h
  · rfl

variable {f f' : PermFifo} {e : Env}

/-- What a read leaves alone, the last id out, and that the client table stays a table. -/
structure ReadKeeps (f f' : PermFifo) (o : Seen) : Prop where
  disk : f'.tableDisk = f.tableDisk
  file : f'.file = f.file
  currentId : f'.currentId = f.currentId
  lastIdOut : f'.lastIdOut = o.out f.lastIdOut
  client : f.tableClient.Wf → f'.tableClient.Wf ∧ f'.tableClient.size = f.tableClient.size

theorem ReadKeeps.refl {code : Int} (h : code ≠ 0) : ReadKeeps f f (.item code item) :=
  ⟨rfl, rfl, rfl, (Seen.out_item_ne h).symm, fun hw => ⟨hw, rfl⟩⟩

theorem readFromFile_keeps {x : Int × FifoItem × PermFifo} (h : readFromFile e f = some x) :
    ReadKeeps f x.2.2 (.item x.1 x.2.1) := by
  unfold readFromFile at h
  split at h
  · cases h
    exact .refl (by simp)
  · split at h
    · cases h
    · rename_i l hload
      have hwf := fun hw => ctLoad_wf hw hload
      dsimp only at h
      split at h
      · cases h
        exact ⟨rfl, rfl, rfl, (Seen.out_item_ne (by simp)).symm, hwf⟩
      · rename_i y c' hr
        split at h
        · cases h
        · cases h
          refine ⟨rfl, rfl, rfl, rfl, fun hw => ?_⟩
          obtain ⟨hw', hs, -⟩ := ctRead_spec (hwf hw).1 hr
          exact ⟨hw', hs.trans (hwf hw).2⟩

theorem permFifoRead_keeps {x : Int × FifoItem × PermFifo} (h : permFifoRead e f = some x) :
    ReadKeeps f x.2.2 (.item x.1 x.2.1) := by
  unfold permFifoRead at h
  split at h
  · cases h
    exact .refl (by simp)
  · split at h
    · rename_i y c hr
      cases h
      refine ⟨rfl, rfl, rfl, rfl, fun hw => ?_⟩
      obtain ⟨hwf, hs, -⟩ := ctRead_spec hw hr
      exact ⟨hwf, hs⟩
    · split at h
      · cases h
        exact .refl (by simp)
      · split at h
        · cases h
        · rename_i s hscan
          have hwf := fun hw => diskScan_wf (s := ⟨f.tableClient, _, _, _, _, _⟩) hw hscan
          dsimp only at h
          split at h
          · have hk := readFromFile_keeps h
            exact ⟨hk.disk, hk.file, hk.currentId, hk.lastIdOut, fun hw =>
              ⟨(hk.client (hwf hw).1).1, (hk.client (hwf hw).1).2.trans (hwf hw).2⟩⟩
          · split at h
            · cases h
              exact ⟨rfl, rfl, rfl, rfl, hwf⟩
            · rename_i hret
              cases h
              exact ⟨rfl, rfl, rfl, (Seen.out_item_ne hret).symm, hwf⟩

/-- The disk table, with no id above `n`, and the file are there. -/
structure Backed (f : PermFifo) (n : Nat) : Prop where
  disk : ∃ t, f.tableDisk = some t ∧ t.Upto n
  file : ∃ c, f.file = some c

theorem Backed.mono {m n : Nat} (h : Backed f m) (hmn : m ≤ n) : Backed f n := by
  obtain ⟨t, ht, hup⟩ := h.disk
  exact ⟨⟨t, ht, hup.mono hmn⟩, h.file⟩

theorem save_keeps (h : permFifoSaveTabledisk e f = some (r, f')) :
    SameClient f f' ∧ ∀ n, Backed f n → Backed f' n := by
  unfold permFifoSaveTabledisk at h
  split at h
  · cases h
  · rename_i t ht
    split at h
    · cases h
      exact ⟨⟨rfl, rfl, rfl, rfl⟩, fun n hb => ⟨hb.disk, hb.file⟩⟩
    · split at h
      · cases h
      · dsimp only at h
        split at h
        · cases h
          exact ⟨⟨rfl, rfl, rfl, rfl⟩, fun n hb => ⟨hb.disk, hb.file⟩⟩
        · split at h
          · cases h
            exact ⟨⟨rfl, rfl, rfl, rfl⟩, fun n hb => ⟨hb.disk, hb.file⟩⟩
          · cases h
            refine ⟨⟨rfl, rfl, rfl, rfl⟩, fun n hb => ⟨⟨_, rfl, ?_⟩, _, rfl⟩⟩
            obtain ⟨t', ht', hup⟩ := hb.disk
            obtain rfl := Option.some.inj (ht.symm.trans ht')
            obtain ⟨hwf, hs, hnil⟩ := ctSaveLoop_empties t.nItems t hup.wf rfl
            refine ⟨hwf, hs ▸ hup.small, fun x hx => ?_⟩
            rw [show (ctSave t).1.toList = [] from hnil] at hx
            cases hx

/-- The slot behind the last item, before it is brought back into the table. -/
def CircularTable.behind (t : CircularTable) : Nat := t.indexFirst + t.nItems

theorem ctWrite_ok (h : ctWrite t item = some (.ok, t')) :
    t.behind ≤ intMax ∧ t'.indexFirst = t.indexFirst ∧ t'.nItems = t.nItems + 1 := by
  unfold ctWrite at h
  split at h
  · cases h
  · split at h
    · cases h
    · obtain ⟨j, hj, heq⟩ := Option.map_eq_some_iff.1 h
      obtain ⟨s, hs, -⟩ := Option.map_eq_some_iff.1 hj
      cases heq
      exact ⟨(intAdd_eq_some hs).2, rfl, rfl⟩

theorem ctWrite_undefined (h : ctWrite t item = none) : intMax < t.behind := by
  unfold ctWrite at h
  split at h
  · cases h
  · split at h
    · cases h
    · refine Nat.not_le.1 fun hle => ?_
      rw [Option.map_eq_none_iff, index, intAdd_of_le hle] at h
      cases h

theorem ctRead_behind (h : ctRead t = some (item, t')) : t'.behind ≤ t.behind := by
  unfold ctRead at h
  split at h
  · cases h
  · cases h
    simp only [behind, Ring.wrap]
    split <;> omega

/-- What the part of a write that tries the client table does. -/
structure ClientKeeps (f f' : PermFifo) (item : FifoItem) (taken : Bool) : Prop where
  currentId : f'.currentId = f.currentId
  lastIdOut : f'.lastIdOut = f.lastIdOut
  backed : ∀ n, Backed f n → Backed f' n
  client : f.tableClient.Wf → f'.tableClient.Wf ∧ f'.tableClient.size = f.tableClient.size
  passed : taken = false → f'.tableClient = f.tableClient ∧
    (item.id ≠ f.nextIdInClientTable ∧ f'.nextIdInClientTable = f.nextIdInClientTable ∨
      item.id = f.nextIdInClientTable ∧ f'.nextIdInClientTable = 0)
  taken : taken = true → item.id = f.nextIdInClientTable ∧ f'.nextIdInClientTable = f.nextIdInClientTable + 1 ∧
    f.tableClient.behind ≤ intMax ∧ f'.tableClient.indexFirst = f.tableClient.indexFirst ∧
    f'.tableClient.nItems = f.tableClient.nItems + 1

theorem insertClient_keeps {taken : Bool} (h : insertClient e f item = some (taken, f')) :
    ClientKeeps f f' item taken := by
  unfold insertClient at h
  split at h
  · rename_i hne
    cases h
    exact ⟨rfl, rfl, fun _ hb => hb, fun hw => ⟨hw, rfl⟩, fun _ => ⟨rfl, .inl ⟨hne, rfl⟩⟩, fun ht => by cases ht⟩
  · rename_i heq
    rw [not_not] at heq
    split at h
    · cases h
    · obtain ⟨⟨c, g⟩, hs, hcg⟩ := Option.map_eq_some_iff.1 h
      cases hcg
      obtain ⟨hsame, hbacked⟩ := save_keeps hs
      refine ⟨hsame.currentId, hsame.lastIdOut, fun n hb => hbacked n ⟨hb.disk, hb.file⟩, fun hw => ?_,
        fun _ => ⟨hsame.tableClient, .inr ⟨heq, hsame.next⟩⟩, fun ht => by cases ht⟩
      rw [hsame.tableClient]
      exact ⟨hw, rfl⟩
    · rename_i c hwrite
      cases h
      refine ⟨rfl, rfl, fun _ hb => ⟨hb.disk, hb.file⟩, fun hw => ?_, fun ht => (by cases ht), fun _ => ?_⟩
      · obtain ⟨hwf, hs, -⟩ := ctWrite_wf hw hwrite
        exact ⟨hwf, hs⟩
      · obtain ⟨hbehind, hfirst, hn⟩ := ctWrite_ok hwrite
        exact ⟨heq, rfl, hbehind, hfirst, hn⟩

/-- What the part of a write that fills the disk table does: a failure takes the item back from the client table. -/
structure DiskKeeps (f f' : PermFifo) (item : FifoItem) (doCopy : Bool) (r : Ret) : Prop where
  currentId : f'.currentId = f.currentId
  lastIdOut : f'.lastIdOut = f.lastIdOut
  next : f'.nextIdInClientTable = f.nextIdInClientTable
  backed : ∀ n, item.id ≤ n → Backed f n → Backed f' n
  client : f'.tableClient = if r = .error ∧ doCopy = true then
    { f.tableClient with nItems := f.tableClient.nItems - 1 } else f.tableClient

theorem Backed.write {n : Nat} {g : PermFifo} (hb : Backed f n) (ht : f.tableDisk = some t)
    (hw : ctWrite t item = some (r, t')) (hid : item.id ≤ n) (hdisk : g.tableDisk = some t') (hfile : g.file = f.file) :
    Backed g n := by
  obtain ⟨t₀, ht₀, hup⟩ := hb.disk
  obtain rfl := Option.some.inj (ht.symm.trans ht₀)
  exact ⟨⟨t', hdisk, (hup.write hid hw).1⟩, by rw [hfile]; exact hb.file⟩

theorem insertDisk_keeps {doCopy : Bool} (h : insertDisk e f doCopy item = some (r, f')) :
    DiskKeeps f f' item doCopy r := by
  unfold insertDisk at h
  split at h
  · cases h
  · rename_i t ht
    split at h
    · cases h
    · rename_i t' hw
      cases h
      exact ⟨rfl, rfl, rfl, fun n hid hb => hb.write ht hw hid rfl rfl, by simp⟩
    · split at h
      · cases h
      · rename_i c g hs
        obtain ⟨hsame, hbacked⟩ := save_keeps hs
        split at h
        · cases h
        · rename_i t₁ ht₁
          split at h
          · cases h
          · rename_i t' hw
            cases h
            exact ⟨hsame.currentId, hsame.lastIdOut, hsame.next,
              fun n hid hb => (hbacked n hb).write ht₁ hw hid rfl rfl, by simpa using hsame.tableClient⟩
          · rename_i t' hw
            split at h
            · rename_i hcopy
              cases h
              refine ⟨hsame.currentId, hsame.lastIdOut, hsame.next,
                fun n hid hb => (hbacked n hb).write ht₁ hw hid rfl rfl, ?_⟩
              simp [hcopy, hsame.tableClient]
            · rename_i hcopy
              cases h
              refine ⟨hsame.currentId, hsame.lastIdOut, hsame.next,
                fun n hid hb => (hbacked n hb).write ht₁ hw hid rfl rfl, ?_⟩
              simp [hcopy, hsame.tableClient]

/-- What a write that takes an id does where there is a disk table. -/
structure WriteKeeps (f f' : PermFifo) (r : Ret) : Prop where
  currentId : f'.currentId = f.currentId + 1
  lastIdOut : f'.lastIdOut = f.lastIdOut
  backed : Backed f f.currentId → Backed f' f'.currentId
  client : f.tableClient.Wf → f'.tableClient.Wf ∧ f'.tableClient.size = f.tableClient.size
  /-- After a failure the client table is as it was, unless the item was in it for a while. -/
  failed : r = .error → f.tableDisk ≠ none → f.tableClient.behind ≤ intMax ∨
    f'.tableClient = f.tableClient ∧ f'.nextIdInClientTable ≠ f.nextIdInClientTable + 1

theorem writeItem_keeps {b : Bytes} (h : writeItem e f b = some (r, f')) : WriteKeeps f f' r := by
  unfold writeItem at h
  dsimp only at h
  split at h
  · rename_i hnone
    split at h
    · cases h
    · rename_i c hw
      cases h
      refine ⟨rfl, rfl, fun hb => ?_, fun hwf => ?_, fun _ hdisk => absurd hnone hdisk⟩
      · obtain ⟨t, ht, -⟩ := hb.disk
        exact absurd (hnone.symm.trans ht) (by simp)
      · obtain ⟨hwf', hs, -⟩ := ctWrite_wf hwf hw
        exact ⟨hwf', hs⟩
  · split at h
    · cases h
    · rename_i doCopy g hi
      have hc := insertClient_keeps hi
      have hd := insertDisk_keeps h
      have hcur : f'.currentId = f.currentId + 1 := hd.currentId.trans hc.currentId
      refine ⟨hcur, hd.lastIdOut.trans hc.lastIdOut, fun hb => ?_, fun hwf => ?_, fun hr _ => ?_⟩
      · have hb' : Backed { f with currentId := f.currentId + 1 } (f.currentId + 1) :=
          ⟨(hb.mono (Nat.le_succ _)).disk, hb.file⟩
        rw [hcur]
        refine hd.backed _ ?_ (hc.backed _ hb')
        split <;> exact Nat.le_refl _
      · obtain ⟨hwf', hs⟩ := hc.client hwf
        rw [hd.client]
        split
        · exact ⟨⟨hwf'.slots, hwf'.first, Nat.le_trans (Nat.sub_le _ _) hwf'.count⟩, hs⟩
        · exact ⟨hwf', hs⟩
      · cases doCopy with
        | true =>
          obtain ⟨-, -, hbehind, -⟩ := hc.taken rfl
          exact .inl hbehind
        | false =>
          obtain ⟨hsame, hnext⟩ := hc.passed rfl
          refine .inr ⟨by rw [hd.client, if_neg (by simp), hsame], ?_⟩
          rw [hd.next]
          rcases hnext with ⟨-, hnext⟩ | ⟨-, hnext⟩ <;> rw [hnext]
          · exact Nat.ne_of_lt (Nat.lt_succ_self f.nextIdInClientTable)
          · exact Nat.ne_of_lt (Nat.succ_pos _)

/-- What an acknowledgement leaves alone; up to the last id it empties the disk table. -/
theorem ack_keeps (f : PermFifo) (id : Nat) :
    SameClient f (permFifoAck f id).2 ∧ (∀ n, Backed f n → Backed (permFifoAck f id).2 n) ∧
      ∀ n, n ≤ id → Backed f n → ∀ t, (permFifoAck f id).2.tableDisk = some t → t.toList = [] := by
  unfold permFifoAck
  split
  · rename_i hnone
    exact ⟨.refl f, fun _ hb => hb, fun n _ _ t ht => absurd (hnone.symm.trans ht) (by simp)⟩
  · rename_i t ht
    have hback : ∀ n, Backed f n → (ackLoop t.nItems t id).Upto n ∧ (n ≤ id → (ackLoop t.nItems t id).toList = []) := by
      rintro n ⟨⟨t₀, ht₀, hup⟩, -⟩
      obtain rfl := Option.some.inj (ht.symm.trans ht₀)
      obtain ⟨h₁, -, h₂⟩ := hup.ackLoop id rfl
      exact ⟨h₁, h₂⟩
    have hempty : ∀ n, n ≤ id → Backed f n → ∀ u, some (ackLoop t.nItems t id) = some u → u.toList = [] := by
      intro n hle hb u hu
      rw [← Option.some.inj hu]
      exact (hback n hb).2 hle
    dsimp only
    split
    · exact ⟨⟨rfl, rfl, rfl, rfl⟩, fun n hb => ⟨⟨_, rfl, (hback n hb).1⟩, hb.file⟩, hempty⟩
    · split
      · exact ⟨⟨rfl, rfl, rfl, rfl⟩, fun n hb => ⟨⟨_, rfl, (hback n hb).1⟩, hb.file⟩, hempty⟩
      · unfold ackFile
        split
        · exact ⟨⟨rfl, rfl, rfl, rfl⟩, fun n hb => ⟨⟨_, rfl, (hback n hb).1⟩, _, rfl⟩, hempty⟩
        · exact ⟨⟨rfl, rfl, rfl, rfl⟩, fun n hb => ⟨⟨_, rfl, (hback n hb).1⟩, _, rfl⟩, hempty⟩

theorem flush_keeps {timeout : Int} (h : permFifoFlush e f timeout = some (r, f')) :
    SameClient f f' ∧ ∀ n, Backed f n → Backed f' n := by
  unfold permFifoFlush at h
  split at h
  · exact save_keeps h
  · cases h
    exact ⟨.refl f, fun _ hb => hb⟩

/-! ## The counters -/

/-- A write that returns before it takes an id. -/
def Refused (e : Env) (data : Option Bytes) (size : Int) : Prop :=
  data = none ∨ size < 0 ∨ size = 0 ∧ e.alloc 0 = false

instance (e : Env) (data : Option Bytes) (size : Int) : Decidable (Refused e data size) :=
  inferInstanceAs (Decidable (_ ∨ _ ∨ _ ∧ _))

/-- How many ids a call takes. -/
def Use.ids (c : Env × Use) : Nat :=
  match c.2 with
  | .write data size => if Refused c.1 data size then 0 else 1
  | _                => 0

theorem permFifoWrite_refused {data : Option Bytes} {size : Int} (h : Refused e data size) :
    permFifoWrite e f data size = some (.error, f) := by
  rcases h with rfl | hneg | hdup
  · rfl
  · cases data with
    | none => rfl
    | some b => simp [permFifoWrite, hneg]
  · cases data with
    | none => rfl
    | some b => simp [permFifoWrite, hdup.1, hdup.2]

theorem permFifoWrite_taken {data : Option Bytes} {size : Int} (h : ¬ Refused e data size) :
    ∃ b, data = some b ∧ permFifoWrite e f data size = (payload b size.toNat).bind (writeItem e f) := by
  simp only [Refused, not_or, not_and] at h
  obtain ⟨hdata, hneg, hdup⟩ := h
  obtain ⟨b, rfl⟩ := Option.ne_none_iff_exists'.1 hdata
  refine ⟨b, rfl, ?_⟩
  simp only [permFifoWrite, if_neg hneg, if_neg fun hboth : _ ∧ _ => hdup hboth.1 hboth.2]
  cases payload b size.toNat <;> rfl

variable {c : Env × Use} {o : Seen}

theorem use_read {e : Env} {timeout : Int} (h : use f (e, .read timeout) = some (o, f')) :
    (o = .waits ∧ f' = f) ∨ ReadKeeps f f' o := by
  simp only [use] at h
  split at h
  · cases h
    exact .inl ⟨rfl, rfl⟩
  · obtain ⟨x, hx, heq⟩ := Option.map_eq_some_iff.1 h
    cases heq
    exact .inr (permFifoRead_keeps hx)

theorem use_write {e : Env} {data : Option Bytes} {size : Int} (h : use f (e, .write data size) = some (o, f'))
    (hnot : ¬ Refused e data size) : ∃ r b, o = .code r ∧ writeItem e f b = some (r, f') := by
  simp only [use] at h
  obtain ⟨⟨r, g⟩, hx, heq⟩ := Option.map_eq_some_iff.1 h
  cases heq
  obtain ⟨b, -, hb⟩ := permFifoWrite_taken (f := f) hnot
  rw [hb] at hx
  obtain ⟨b', -, hw⟩ := Option.bind_eq_some_iff.1 hx
  exact ⟨r, b', rfl, hw⟩

theorem use_refused {e : Env} {data : Option Bytes} {size : Int} (h : Refused e data size) :
    use f (e, .write data size) = some (.code .error, f) := by
  simp [use, permFifoWrite_refused h]

/-- **The counters follow from the calls and the answers.** -/
theorem use_counts (h : use f c = some (o, f')) :
    f'.currentId = f.currentId + Use.ids c ∧ f'.lastIdOut = o.out f.lastIdOut := by
  obtain ⟨e, u⟩ := c
  cases u with
  | read timeout =>
    rcases use_read h with ⟨rfl, rfl⟩ | hk
    · exact ⟨rfl, rfl⟩
    · exact ⟨hk.currentId, hk.lastIdOut⟩
  | write data size =>
    by_cases href : Refused e data size
    · rw [use_refused href] at h
      cases h
      exact ⟨by simp [Use.ids, href], rfl⟩
    · obtain ⟨r, b, rfl, hw⟩ := use_write h href
      have hk := writeItem_keeps hw
      exact ⟨by simp [Use.ids, href, hk.currentId], hk.lastIdOut⟩
  | ack id =>
    cases h
    exact ⟨(ack_keeps f id).1.currentId, (ack_keeps f id).1.lastIdOut⟩
  | flush timeout =>
    obtain ⟨x, hx, heq⟩ := Option.map_eq_some_iff.1 h
    cases heq
    exact ⟨(flush_keeps hx).1.currentId, (flush_keeps hx).1.lastIdOut⟩

/-! ## The invariant -/

/-- A FIFO with a disk table. -/
structure OnDisk (f : PermFifo) : Prop where
  client : f.tableClient.Wf
  small : f.tableClient.size ≤ intMax
  backed : Backed f f.currentId

/-- A FIFO without one, its client table possibly NULL. -/
structure InMemory (f : PermFifo) : Prop where
  noDisk : f.tableDisk = none
  client : f.tableClient = nullTable ∨ f.tableClient.Upto f.currentId
  out_le : f.lastIdOut ≤ f.currentId

theorem permFifoRead_noDisk (h : f.tableDisk = none) : permFifoRead e f =
    if mustWait f then some ((1 : Int), emptyFifoItem, f)
    else match ctRead f.tableClient with
      | some (item, c) => some (0, item, { f with tableClient := c, lastIdOut := item.id })
      | none           => some (1, emptyFifoItem, f) := by
  unfold permFifoRead
  split
  · rfl
  · cases ctRead f.tableClient with
    | some p => rfl
    | none => simp [h]

theorem writeItem_noDisk {b : Bytes} (h : f.tableDisk = none) : writeItem e f b =
    (ctWrite f.tableClient (Record.item ⟨f.currentId + 1, b⟩)).map fun p =>
      (p.1, { f with currentId := f.currentId + 1, tableClient := p.2 }) := by
  unfold writeItem
  dsimp only
  rw [h]
  cases ctWrite f.tableClient _ <;> rfl

theorem OnDisk.use (hf : OnDisk f) (h : use f c = some (o, f')) : OnDisk f' := by
  obtain ⟨e, u⟩ := c
  cases u with
  | read timeout =>
    rcases use_read h with ⟨-, rfl⟩ | hk
    · exact hf
    · obtain ⟨hwf, hs⟩ := hk.client hf.client
      obtain ⟨hdisk, hfile⟩ := hf.backed
      exact ⟨hwf, hs ▸ hf.small, by rw [hk.disk, hk.currentId]; exact hdisk, by rw [hk.file]; exact hfile⟩
  | write data size =>
    by_cases href : Refused e data size
    · rw [use_refused href] at h
      cases h
      exact hf
    · obtain ⟨r, b, -, hw⟩ := use_write h href
      have hk := writeItem_keeps hw
      obtain ⟨hwf, hs⟩ := hk.client hf.client
      exact ⟨hwf, hs ▸ hf.small, hk.backed hf.backed⟩
  | ack id =>
    cases h
    obtain ⟨hsame, hback, -⟩ := ack_keeps f id
    exact ⟨by rw [hsame.tableClient]; exact hf.client, by rw [hsame.tableClient]; exact hf.small,
      by rw [hsame.currentId]; exact hback _ hf.backed⟩
  | flush timeout =>
    obtain ⟨x, hx, heq⟩ := Option.map_eq_some_iff.1 h
    cases heq
    obtain ⟨hsame, hback⟩ := flush_keeps hx
    exact ⟨by rw [hsame.tableClient]; exact hf.client, by rw [hsame.tableClient]; exact hf.small,
      by rw [hsame.currentId]; exact hback _ hf.backed⟩

theorem save_noDisk (h : f.tableDisk = none) : permFifoSaveTabledisk e f = none := by
  unfold permFifoSaveTabledisk
  rw [h]

theorem InMemory.use (hf : InMemory f) (h : use f c = some (o, f')) :
    InMemory f' ∧ (f.tableClient = nullTable → f'.tableClient = nullTable) := by
  obtain ⟨e, u⟩ := c
  cases u with
  | read timeout =>
    simp only [Perm.use] at h
    split at h
    · cases h
      exact ⟨hf, id⟩
    · rw [permFifoRead_noDisk hf.noDisk] at h
      split at h
      · cases h
        exact ⟨hf, id⟩
      · cases hr : ctRead f.tableClient with
        | none =>
          rw [hr] at h
          cases h
          exact ⟨hf, id⟩
        | some p =>
          obtain ⟨x, t'⟩ := p
          rw [hr] at h
          cases h
          have hne : f.tableClient ≠ nullTable := by
            intro hn
            rw [hn] at hr
            cases hr
          obtain ⟨hup, -, hx⟩ := (hf.client.resolve_left hne).read hr
          exact ⟨⟨hf.noDisk, .inr hup, hx⟩, fun hn => absurd hn hne⟩
  | write data size =>
    by_cases href : Refused e data size
    · rw [use_refused href] at h
      cases h
      exact ⟨hf, id⟩
    · obtain ⟨r, b, -, hw⟩ := use_write h href
      rw [writeItem_noDisk hf.noDisk] at hw
      obtain ⟨⟨r', t'⟩, hwrite, heq⟩ := Option.map_eq_some_iff.1 hw
      cases heq
      by_cases hn : f.tableClient = nullTable
      · rw [hn] at hwrite
        cases hwrite
        exact ⟨⟨hf.noDisk, .inl rfl, Nat.le_succ_of_le hf.out_le⟩, fun _ => rfl⟩
      · obtain ⟨hup, -⟩ := ((hf.client.resolve_left hn).mono (Nat.le_succ _)).write (Nat.le_refl _) hwrite
        exact ⟨⟨hf.noDisk, .inr hup, Nat.le_succ_of_le hf.out_le⟩, fun h => absurd h hn⟩
  | ack id =>
    simp only [Perm.use, permFifoAck, hf.noDisk] at h
    cases h
    exact ⟨hf, fun h => h⟩
  | flush timeout =>
    obtain ⟨x, hx, heq⟩ := Option.map_eq_some_iff.1 h
    cases heq
    unfold permFifoFlush at hx
    split at hx
    · rw [save_noDisk hf.noDisk] at hx
      cases hx
    · cases hx
      exact ⟨hf, id⟩

theorem ctNew_upto {size : Int} {t : CircularTable} (hint : size ≤ intMax) (h : ctNew size = some t) (n : Nat) :
    t.Upto n := by
  obtain ⟨hwf, hnil, hs⟩ := ctNew_spec h
  refine ⟨hwf, by omega, fun x hx => ?_⟩
  rw [hnil] at hx
  cases hx

/-- **Every FIFO there can be** is of one of the two kinds. -/
theorem Reachable.kind (h : Reachable f) : OnDisk f ∨ InMemory f := by
  induction h with
  | noPath hint =>
    rename_i e size
    refine .inr ⟨rfl, ?_, Nat.le_refl _⟩
    cases hnew : ctNew size with
    | none => exact .inl (by simp [permFifoNewNoPath, hnew])
    | some t => exact .inr (by simpa [permFifoNewNoPath, hnew] using ctNew_upto hint hnew 0)
  | path hint h =>
    rename_i e d size f
    unfold permFifoNew at h
    split at h
    · cases h
    · split at h
      · cases h
      · split at h
        · cases h
        · dsimp only at h
          split at h
          · cases h
          · split at h
            · cases h
            · cases h
              cases hnew : ctNew size with
              | none => exact .inr ⟨rfl, .inl rfl, Nat.zero_le _⟩
              | some t =>
                have hup := fun n => ctNew_upto hint hnew n
                exact .inl ⟨(hup 0).wf, (hup 0).small, ⟨t, rfl, hup _⟩, _, rfl⟩
  | use hf h ih =>
    rcases ih with ih | ih
    · exact .inl (ih.use h)
    · exact .inr (ih.use h).1

end Perm
end Flp
