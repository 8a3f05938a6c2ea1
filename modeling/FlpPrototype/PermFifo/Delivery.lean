import FlpPrototype.PermFifo.Session
/-!
# Delivery — what is read is what was there and what was written

With tables of at most `2 ^ 30` slots every run of calls has a result, and the reads return the recovered records and
the items written, in order, each once.  A larger table leads to an index sum that does not fit an `int`: the run
`overflowRun` moves the first item of the client table to its last slot and then fills the table.
-/
namespace Flp
namespace Perm

open CircularTable

/-- What a read hands to the consumer. -/
def FifoItem.contents (x : FifoItem) : Nat × Option Bytes := (x.size, x.data)

/-- A payload as it is to be read. -/
def Delivered (b : Bytes) : Nat × Option Bytes := (b.length, some b)

variable {size : Nat} {s : Session} {hdr : MainHeader} {p : Parts}

/-- A session of calls that keep to the rules goes through and stays good. -/
theorem run_good (hf : size ≤ 2 ^ 30) (h : s.Good size hdr p) {calls : List (Env × Call)}
    (hl : Legal Session.step Session.Ok s calls) :
    ∃ s', run Session.step s calls = some s' ∧ ∃ hdr p, s'.Good size hdr p := by
  refine run_inv (I := fun s => ∃ hdr p, Session.Good size s hdr p) ?_ calls s ⟨hdr, p, h⟩ hl
  rintro s c ⟨hdr, p, hg⟩ hok
  obtain ⟨s', hs⟩ := Option.isSome_iff_exists.1 (hg.step_isSome hok hf)
  obtain ⟨hdr', p', hg', -⟩ := hg.step hok hs
  exact ⟨s', hs, hdr', p', hg'⟩

theorem contents_item (rs : List Record) :
    (rs.map Record.item).map FifoItem.contents = (rs.map Record.data).map Delivered := by
  simp only [List.map_map]
  exact List.map_congr_left (fun _ _ => rfl)

/-- A system in which everything succeeds. -/
def calm : Env := ⟨0, fun _ => true, true⟩

theorem calm_succeeds : calm.Succeeds := ⟨fun _ => rfl, rfl⟩

def writeOne : Env × Call := (calm, .write [1] 1)

def readOne : Env × Call := (calm, .read)

/-- `size - 1` items written and read one by one, then writes until the index sum of the client table overflows. -/
def overflowRun (size : Nat) : List (Env × Call) :=
  (List.replicate (size - 1) [writeOne, readOne]).flatten ++ List.replicate (2 ^ 31 - size + 2) writeOne

/-- The client table takes every new item; `i` is its first slot, `n` its number of items, `k` the last id given. -/
structure Filling (size i n k : Nat) (s : Session) : Prop where
  good : ∃ hdr p, s.Good size hdr p
  indexFirst : s.fifo.tableClient.indexFirst = i
  nItems : s.fifo.tableClient.nItems = n
  next : s.fifo.nextIdInClientTable = k + 1
  current : s.fifo.currentId = k

theorem step_writeOne (s : Session) : s.step writeOne = (writeItem calm s.fifo [1]).map fun r =>
    { s with fifo := r.2, written := s.written ++ [⟨r.2.currentId, [1]⟩] } := rfl

theorem writeOne_ok {i n k : Nat} (h : Filling size i n k s) (hk : k + 1 < 2 ^ 32) : s.Ok writeOne :=
  ⟨calm_succeeds, .inr ⟨by rw [h.current]; exact hk, [1], rfl, by decide⟩⟩

theorem insertClient_room {e : Env} {f : PermFifo} {x : FifoItem} {j : Nat} (hid : x.id = f.nextIdInClientTable)
    (hroom : f.tableClient.size ≠ f.tableClient.nItems) (hd : x.data ≠ none)
    (hj : f.tableClient.index f.tableClient.nItems = some j) :
    ∃ g, insertClient e f x = some (true, g) ∧ g.tableClient.indexFirst = f.tableClient.indexFirst ∧
      g.tableClient.nItems = f.tableClient.nItems + 1 ∧ g.nextIdInClientTable = f.nextIdInClientTable + 1 ∧
      g.currentId = f.currentId := by
  have hins : insertClient e f x = some (true, { f with
      tableClient := { f.tableClient with
        nItems := f.tableClient.nItems + 1, items := f.tableClient.items.set j x }
      nextIdInClientTable := f.nextIdInClientTable + 1 }) := by
    unfold insertClient ctWrite
    rw [if_neg (not_not.2 hid), if_neg hroom, if_neg hd, hj]
    rfl
  exact ⟨_, hins, rfl, rfl, rfl, rfl⟩

theorem Filling.write {i n k : Nat} {s' : Session} (h : Filling size i n k s) (hn : n < size) (hi : i + n ≤ intMax)
    (hk : k + 1 < 2 ^ 32) (hs : s.step writeOne = some s') : Filling size i (n + 1) (k + 1) s' := by
  obtain ⟨hdr, p, hg⟩ := h.good
  obtain ⟨hdr', p', hg', -⟩ := hg.step (writeOne_ok h hk) hs
  rw [step_writeOne] at hs
  obtain ⟨⟨c, g⟩, hw, rfl⟩ := Option.map_eq_some_iff.1 hs
  obtain ⟨t, ht, -⟩ := hg.inv.stored.disk
  rw [writeItem_eq ht calm_succeeds] at hw
  obtain ⟨g₀, hins, hfirst, hcount, hnext, hcur⟩ := insertClient_room (e := calm)
    (f := { s.fifo with currentId := s.fifo.currentId + 1 })
    (x := Record.item ⟨s.fifo.currentId + 1, [1]⟩) (j := Ring.wrap size (i + n))
    (by rw [Record.item_id, h.next, h.current]) (by rw [h.nItems, hg.inv.readable.size_eq]; omega)
    (Record.item_data_ne_none _)
    (by
      unfold CircularTable.index
      rw [h.indexFirst, h.nItems, hg.inv.readable.size_eq, intAdd_of_le hi]
      rfl)
  obtain ⟨-, -, -, -, -, hst⟩ := insertClient_spec (r := ⟨s.fifo.currentId + 1, [1]⟩) hg.inv calm_succeeds rfl hins
  rw [hins, Option.bind_some] at hw
  have hsame : SameClient g₀ g := by
    rcases hst with hst | hst <;> exact (hst.insert calm_succeeds (by simp) hw).2.1
  refine ⟨⟨hdr', p', hg'⟩, ?_, ?_, ?_, ?_⟩
  · show g.tableClient.indexFirst = i
    rw [hsame.tableClient, hfirst]
    exact h.indexFirst
  · show g.tableClient.nItems = n + 1
    rw [hsame.tableClient, hcount]
    exact congrArg (· + 1) h.nItems
  · show g.nextIdInClientTable = k + 1 + 1
    rw [hsame.next, hnext]
    exact congrArg (· + 1) h.next
  · show g.currentId = k + 1
    rw [hsame.currentId, hcur]
    exact congrArg (· + 1) h.current

theorem Filling.read {i k : Nat} {s' : Session} (h : Filling size i 1 k s) (hi : i + 1 < size)
    (hs : s.step readOne = some s') : Filling size (i + 1) 0 k s' := by
  obtain ⟨hdr, p, hg⟩ := h.good
  obtain ⟨hdr', p', hg', -⟩ := hg.step ⟨calm_succeeds, trivial⟩ hs
  have hcl := hg.inv.readable.client
  have hne : p.client ≠ [] := fun hn => by
    have := hcl.nil_iff.2 hn
    rw [h.nItems] at this
    cases this
  have hwait : ¬ mustWait s.fifo = true :=
    fun hw => hne (List.append_eq_nil_iff.1 ((mustWait_iff hg.inv.readable).1 hw)).1
  have hread : ctRead s.fifo.tableClient = some (s.fifo.tableClient.items.getD i emptyFifoItem,
      ⟨size, i + 1, 0, s.fifo.tableClient.items.set i emptyFifoItem⟩) := by
    unfold ctRead
    rw [if_neg (by rw [h.nItems]; decide), h.nItems, h.indexFirst, hg.inv.readable.size_eq, Ring.wrap,
      if_neg (by omega)]
  obtain ⟨r, hr, rfl⟩ := Option.map_eq_some_iff.1 hs
  unfold permFifoRead at hr
  rw [if_neg hwait] at hr
  simp only [hread] at hr
  obtain rfl := Option.some.inj hr
  exact ⟨⟨hdr', p', hg'⟩, rfl, rfl, h.next, h.current⟩

theorem filling_start (hpos : 0 < size) {f : PermFifo} {d : Dir FileName} {e : Env} {F : FifoFile}
    (hF : F.clean.currentId = 0) (hg : ∃ hdr p, (Session.start f).Good size hdr p)
    (hnew : permFifoNew e d size = some f) (hcur : f.currentId = F.clean.currentId) :
    Filling size 0 0 0 (Session.start f) := by
  unfold permFifoNew at hnew
  split at hnew
  · cases hnew
  · split at hnew
    · cases hnew
    · split at hnew
      · cases hnew
      · simp only at hnew
        split at hnew
        · cases hnew
        · split at hnew
          · cases hnew
          · obtain rfl := Option.some.inj hnew
            refine ⟨hg, ?_, ?_, rfl, hcur.trans hF⟩ <;>
              (simp only [Session.start]; rw [ctNew_of_pos hpos]; rfl)

/-- **The run that overflows** keeps to the rules and has no result. -/
theorem overflowRun_spec {s : Session} (hbig : 2 ^ 30 < size) (hint : size ≤ intMax) (h : Filling size 0 0 0 s) :
    Legal Session.step Session.Ok s (overflowRun size) ∧ run Session.step s (overflowRun size) = none := by
  unfold intMax at hint
  have hmove : ∀ j, j ≤ size - 1 → Leads Session.step Session.Ok s (List.replicate j [writeOne, readOne]).flatten
      (Filling size j 0 j) := by
    intro j
    induction j with
    | zero => exact fun _ => .nil h
    | succ j ih =>
      intro hj
      rw [List.replicate_succ', List.flatten_append]
      refine (ih (by omega)).append fun s₁ h₁ => ?_
      have hw : Leads Session.step Session.Ok s₁ [writeOne] (Filling size j 1 (j + 1)) :=
        .one (writeOne_ok h₁ (by omega)) fun s₂ h₂ => h₁.write (by omega) (by unfold intMax; omega) (by omega) h₂
      exact hw.append fun s₂ h₂ => .one ⟨calm_succeeds, trivial⟩ fun s₃ h₃ => h₂.read (by omega) h₃
  have hfill : ∀ m, m ≤ 2 ^ 31 - size + 1 → Leads Session.step Session.Ok s
      ((List.replicate (size - 1) [writeOne, readOne]).flatten ++ List.replicate m writeOne)
      (Filling size (size - 1) m (size - 1 + m)) := by
    intro m
    induction m with
    | zero => exact fun _ => by simpa using hmove (size - 1) (Nat.le_refl _)
    | succ m ih =>
      intro hm
      rw [List.replicate_succ', ← List.append_assoc]
      refine (ih (by omega)).append fun s₁ h₁ => ?_
      exact .one (writeOne_ok h₁ (by omega)) fun s₂ h₂ => h₁.write (by omega) (by unfold intMax; omega) (by omega) h₂
  have hlast := hfill (2 ^ 31 - size + 1) (Nat.le_refl _)
  generalize hA : (List.replicate (size - 1) [writeOne, readOne]).flatten ++
    List.replicate (2 ^ 31 - size + 1) writeOne = A at hlast
  have hrun : overflowRun size = A ++ [writeOne] := by
    rw [← hA, overflowRun, List.replicate_succ', ← List.append_assoc]
  -- the last write needs the slot `size - 1 + (2 ^ 31 - size + 1)` places in
  have hstop : ∀ s₁, Filling size (size - 1) (2 ^ 31 - size + 1) (size - 1 + (2 ^ 31 - size + 1)) s₁ →
      s₁.step writeOne = none := by
    intro s₁ h₁
    obtain ⟨hdr, p, hg⟩ := h₁.good
    obtain ⟨t, ht, -⟩ := hg.inv.stored.disk
    have hidx : s₁.fifo.tableClient.index s₁.fifo.tableClient.nItems = none := by
      unfold CircularTable.index intAdd intMax
      rw [h₁.indexFirst, h₁.nItems, if_neg (by omega)]
      rfl
    have hins : insertClient calm { s₁.fifo with currentId := s₁.fifo.currentId + 1 }
        (Record.item ⟨s₁.fifo.currentId + 1, [1]⟩) = none := by
      unfold insertClient ctWrite
      rw [if_neg (by simp [h₁.next, h₁.current]), if_neg (by rw [h₁.nItems, hg.inv.readable.size_eq]; omega),
        if_neg (Record.item_data_ne_none _), hidx]
      rfl
    rw [step_writeOne, writeItem_eq ht calm_succeeds, hins]
    rfl
  rw [hrun]
  refine ⟨Legal.append.2 ⟨hlast.1, fun s₁ hr => ⟨writeOne_ok (hlast.2 s₁ hr) (by omega), fun _ _ => trivial⟩⟩, ?_⟩
  rw [run_append]
  cases hr : run Session.step s A with
  | none => rfl
  | some s₁ =>
    rw [Option.bind_some, run, hstop s₁ (hlast.2 s₁ hr)]
    rfl

theorem overflow_of_large (hbig : 2 ^ 30 < size) (hint : size ≤ intMax) :
    ∃ f, permFifoNew calm (dirOf .empty) size = some f ∧
      Legal Session.step Session.Ok (Session.start f) (overflowRun size) ∧
      run Session.step (Session.start f) (overflowRun size) = none := by
  obtain ⟨f, hnew, hcur, -, hgood, -⟩ := permFifoNew_spec (e := calm) (hasFile_dirOf .empty).cleans
    FifoFile.empty_counted (by omega : 0 < size)
  exact ⟨f, hnew, overflowRun_spec hbig hint
    (filling_start (by omega) (F := .empty) (by decide) ⟨_, _, hgood (by decide)⟩ hnew hcur)⟩

end Perm
end Flp
