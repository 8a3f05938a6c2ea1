import FlpPrototype.PermFifo.Consume
import FlpPrototype.PermFifo.CleanCrash
import FlpPrototype.Lib.Run
/-!
# Session — a permanent FIFO from `permFIFO_new` to `permFIFO_destroy`

A session is a run of calls on a FIFO opened on a path, together with what its users see: the records that are in it
(those recovered from the file, then those written), the items the reads returned, the id of the last one, the highest
id acknowledged.  `Good` ties what they see to the parts of the invariant, and to what the file would tell the next
`permFIFO_new` (`Durable`).
-/
namespace Flp
namespace Perm

open CircularTable

/-! ## Calls -/

inductive Call where
  | write (data : Bytes) (size : Int)
  | read
  | ack (id : Nat)
  | flush (timeout : Int)
  deriving DecidableEq, Repr

structure Session where
  fifo : PermFifo
  written : List Record
  delivered : List FifoItem
  lastRead : Nat
  acked : Nat

/-- The session of a FIFO just opened: what it holds is what its file holds. -/
def Session.start (f : PermFifo) : Session := ⟨f, (f.file.map decode).getD [], [], 0, 0⟩

def Call.payload : Call → Option Bytes
  | .write data size => if size < 0 then none else Perm.payload data size.toNat
  | _ => none

/-- One call. -/
def Session.step (s : Session) (c : Env × Call) : Option Session :=
  match c.2 with
  | .write data size =>
    (permFifoWrite c.1 s.fifo (some data) size).map fun r =>
      { s with fifo := r.2, written := s.written ++ (c.2.payload.map (fun b => ⟨r.2.currentId, b⟩)).toList }
  | .read =>
    (permFifoRead c.1 s.fifo).map fun r =>
      if r.1 = 0 then { s with fifo := r.2.2, delivered := s.delivered ++ [r.2.1], lastRead := r.2.1.id }
      else { s with fifo := r.2.2 }
  | .ack id => some { s with fifo := (permFifoAck s.fifo id).2, acked := max s.acked id }
  | .flush timeout => (permFifoFlush c.1 s.fifo timeout).map fun r => { s with fifo := r.2 }

/-- What the users of a FIFO keep to, its ids staying below `2 ^ 32`: a payload lies in memory and one system call
writes it; an acknowledged id was read. -/
def Session.Ok (s : Session) (c : Env × Call) : Prop :=
  c.1.Succeeds ∧ match c.2 with
  | .write data size =>
    size < 0 ∨ (s.fifo.currentId + 1 < 2 ^ 32 ∧ ∃ b, Perm.payload data size.toNat = some b ∧ b.length ≤ ioMax)
  | .ack id => id ≤ s.lastRead
  | _ => True

/-- No acknowledgement below an earlier one. -/
def Session.Monotone (s : Session) (c : Env × Call) : Prop :=
  match c.2 with
  | .ack id => s.acked ≤ id
  | _ => True

/-- The payloads handed to the FIFO by a list of calls. -/
def handed (calls : List (Env × Call)) : List Bytes := calls.filterMap (fun c => c.2.payload)

theorem payload_ne_nil {data b : Bytes} {n : Nat} (h : payload data n = some b) : b ≠ [] := by
  unfold payload at h
  split at h
  · obtain ⟨s, -, rfl⟩ := Option.map_eq_some_iff.1 h
    simp
  · rename_i hn
    split at h
    · rename_i hle
      obtain rfl := Option.some.inj h
      intro hnil
      have := congrArg List.length hnil
      rw [List.length_take_of_le hle] at this
      exact hn this
    · cases h

theorem run_written : ∀ (calls : List (Env × Call)) (s s' : Session), run Session.step s calls = some s' →
    s'.written.map Record.data = s.written.map Record.data ++ handed calls
  | [], s, s', h => by
    obtain rfl := Option.some.inj h
    simp [handed]
  | c :: calls, s, s', h => by
    obtain ⟨s₁, h₁, h'⟩ := Option.bind_eq_some_iff.1 h
    rw [run_written calls s₁ s' h']
    have hone : s₁.written.map Record.data = s.written.map Record.data ++ c.2.payload.toList := by
      obtain ⟨e, call⟩ := c
      cases call with
      | write data size =>
        obtain ⟨r, -, rfl⟩ := Option.map_eq_some_iff.1 h₁
        simp only [List.map_append]
        cases Call.payload (.write data size) <;> rfl
      | read =>
        obtain ⟨r, -, rfl⟩ := Option.map_eq_some_iff.1 h₁
        split <;> simp [Call.payload]
      | ack id =>
        obtain rfl := (Option.some.inj h₁).symm
        simp [Call.payload]
      | flush t =>
        obtain ⟨r, -, rfl⟩ := Option.map_eq_some_iff.1 h₁
        simp [Call.payload]
    rw [hone, handed, handed, List.filterMap_cons, List.append_assoc]
    cases c.2.payload <;> rfl

/-! ## What the file says to the next `permFIFO_new` -/

/-- The header and the stored records, `a` being the highest id acknowledged. -/
structure Durable (hdr : MainHeader) (p : Parts) (a : Nat) : Prop where
  tag : hdr.tag = fifoFileTag
  ack_lt : hdr.lastAckId < 2 ^ 64
  current_lt : hdr.currentId < 2 ^ 64
  header_le : hdr.lastAckId ≤ a
  gone_le : ∀ r ∈ p.gone, r.id ≤ a
  above_header : ∀ r ∈ p.unsaved, hdr.lastAckId < r.id
  counted : p.saved = [] → hdr.lastAckId = 0 → hdr.currentId = 0

/-- The header covers all that is acknowledged. -/
def Exact (hdr : MainHeader) (p : Parts) (a : Nat) : Prop :=
  ∀ r ∈ p.saved ++ p.unsaved, r.id ≤ a → r.id ≤ hdr.lastAckId

variable {f f' : PermFifo} {size : Nat} {hdr : MainHeader} {p p' : Parts} {e : Env} {a : Nat}

theorem Grown.same (hg : p'.gone = p.gone) (hs : p'.saved = p.saved) (hu : p'.unsaved = p.unsaved) :
    Grown p p' [] := ⟨hg, .inl ⟨hs, by simpa using hu⟩⟩

theorem Durable.grown {rs : List Record} (h : Durable hdr p a) (hg : Grown p p' rs)
    (hrs : ∀ r ∈ rs, hdr.lastAckId < r.id) : Durable hdr p' a where
  tag := h.tag
  ack_lt := h.ack_lt
  current_lt := h.current_lt
  header_le := h.header_le
  gone_le := by rw [hg.gone]; exact h.gone_le
  above_header := by
    rcases hg.stored with ⟨-, hu⟩ | ⟨-, hu⟩
    · rw [hu]
      intro r hr
      rcases List.mem_append.1 hr with hr | hr
      · exact h.above_header r hr
      · exact hrs r hr
    · rw [hu]
      exact hrs
  counted := by
    rcases hg.stored with ⟨hs, -⟩ | ⟨hs, -⟩
    · rw [hs]
      exact h.counted
    · intro hn
      rw [hs] at hn
      exact h.counted (List.append_eq_nil_iff.1 hn).1

theorem Exact.grown {rs : List Record} (h : Exact hdr p a) (hg : Grown p p' rs) (hrs : ∀ r ∈ rs, a < r.id) :
    Exact hdr p' a := by
  intro r hr hle
  have hmem : r ∈ p.saved ++ p.unsaved ++ rs := by
    rcases hg.stored with ⟨hs, hu⟩ | ⟨hs, hu⟩ <;> (rw [hs, hu] at hr; simpa using hr)
  rcases List.mem_append.1 hmem with hmem | hmem
  · exact h r hmem hle
  · have := hrs r hmem
    omega

theorem Durable.ack {id : Nat} (h : Durable hdr p a) (hrd : Readable f size p) (hid : id < 2 ^ 64)
    (hcur : f.currentId < 2 ^ 64) : Durable (ackHeader hdr p id) (p.ack id) (max a id) := by
  have hinc : Increasing (p.saved ++ p.unsaved) := hrd.increasing.right
  have hlast : lastId p.saved ≤ f.currentId := by
    by_cases hne : p.saved = []
    · rw [hne]; exact Nat.zero_le _
    · obtain ⟨x, hx, hxid⟩ := lastId_mem hne
      rw [← hxid, hrd.current]
      exact hrd.increasing.id_le_lastId x (by simp [Parts.all, hx])
  have hgone := h.gone_le
  by_cases hs : p.saved = []
  · have hz : lastId p.saved ≤ id := by rw [hs]; exact Nat.zero_le _
    have hhdr : ackHeader hdr p id = hdr := if_pos hs
    rw [hhdr]
    refine ⟨h.tag, h.ack_lt, h.current_lt, Nat.le_trans h.header_le (Nat.le_max_left _ _), ?_, ?_, ?_⟩
    · unfold Parts.ack
      rw [if_pos hz, hs]
      intro r hr
      rcases List.mem_append.1 hr with hr | hr
      · exact Nat.le_trans (hgone r hr) (Nat.le_max_left _ _)
      · have : r.id ≤ id := by simpa using List.mem_takeWhile_imp hr
        omega
    · unfold Parts.ack
      rw [if_pos hz]
      exact fun r hr => h.above_header r ((List.dropWhile_suffix _).subset hr)
    · exact fun _ => h.counted hs
  · have hhdr : ackHeader hdr p id = ⟨fifoFileTag, id, lastId p.saved⟩ := if_neg hs
    rw [hhdr]
    refine ⟨rfl, hid, by simp only; omega, Nat.le_max_right _ _, ?_, ?_, ?_⟩
    · unfold Parts.ack
      split
      · intro r hr
        rcases List.mem_append.1 hr with hr | hr
        · exact Nat.le_trans (hgone r hr) (Nat.le_max_left _ _)
        · have : r.id ≤ id := by
            rcases List.mem_append.1 hr with hr | hr
            · have := hinc.left.id_le_lastId r hr
              omega
            · simpa using List.mem_takeWhile_imp hr
          omega
      · exact fun r hr => Nat.le_trans (hgone r hr) (Nat.le_max_left _ _)
    · unfold Parts.ack
      split
      · intro r hr
        exact hinc.right.dropWhile_gt id r hr
      · rename_i hle
        intro r hr
        obtain ⟨x, hx, hxid⟩ := lastId_mem hs
        have := hinc.lt_of_append x hx r hr
        simp only
        omega
    · intro hn hz
      have hz : id = 0 := hz
      unfold Parts.ack at hn
      split at hn
      · rename_i hle
        obtain ⟨x, hx, hxid⟩ := lastId_mem hs
        have := (hrd.ok x (by simp [Parts.all, hx])).id_pos
        omega
      · exact absurd hn hs

theorem exact_ack {id : Nat} (hrd : Readable f size p) (hle : a ≤ id) :
    Exact (ackHeader hdr p id) (p.ack id) (max a id) := by
  rw [Nat.max_eq_right hle]
  by_cases hs : p.saved = []
  · have hz : lastId p.saved ≤ id := by rw [hs]; exact Nat.zero_le _
    unfold Parts.ack
    rw [if_pos hz]
    intro r hr hrid
    have hr : r ∈ p.unsaved.dropWhile (fun r => decide (r.id ≤ id)) := hr
    have := hrd.increasing.right.right.dropWhile_gt id r hr
    omega
  · have hhdr : ackHeader hdr p id = ⟨fifoFileTag, id, lastId p.saved⟩ := if_neg hs
    rw [hhdr]
    exact fun r _ hrid => hrid

/-! ## Sessions -/

/-- **What the users see is what the parts say.** -/
structure Session.Good (size : Nat) (s : Session) (hdr : MainHeader) (p : Parts) : Prop where
  inv : Inv s.fifo size hdr p
  durable : Durable hdr p s.acked
  current_lt : s.fifo.currentId < 2 ^ 32
  written : s.written = p.all
  delivered : s.delivered = (p.all.filter (fun r => decide (r.id ≤ s.fifo.lastIdOut))).map Record.item
  lastRead : s.lastRead = s.fifo.lastIdOut
  acked_le : s.acked ≤ s.fifo.lastIdOut

theorem permFifoWrite_none {data : Bytes} {n : Int} (hn : n < 0) :
    permFifoWrite e f (some data) n = some (.error, f) := by
  unfold permFifoWrite
  exact if_pos hn

theorem permFifoWrite_eq {data b : Bytes} {n : Int} (he : e.Succeeds) (hn : ¬ n < 0)
    (hb : payload data n.toNat = some b) : permFifoWrite e f (some data) n = writeItem e f b := by
  unfold permFifoWrite
  simp only
  rw [if_neg hn, if_neg (by simp [he.1]), hb]

namespace Session.Good

variable {s s' : Session} {c : Env × Call}

/-- A step that leaves the client side alone. -/
theorem same (h : s.Good size hdr p) {hdr' : MainHeader} {acked : Nat} (hi : Inv f size hdr' p')
    (hd : Durable hdr' p' acked) (hall : p'.all = p.all) (hs : SameClient s.fifo f) (ha : acked ≤ s.fifo.lastIdOut) :
    Session.Good size { s with fifo := f, acked := acked } hdr' p' where
  inv := hi
  durable := hd
  current_lt := by rw [show f.currentId = _ from hs.currentId]; exact h.current_lt
  written := by rw [hall]; exact h.written
  delivered := by rw [hall, show f.lastIdOut = _ from hs.lastIdOut]; exact h.delivered
  lastRead := by rw [show f.lastIdOut = _ from hs.lastIdOut]; exact h.lastRead
  acked_le := by rw [show f.lastIdOut = _ from hs.lastIdOut]; exact ha

theorem write {data b : Bytes} {n : Int} (h : s.Good size hdr p) (he : e.Succeeds) (hn : ¬ n < 0)
    (hb : Perm.payload data n.toNat = some b) (hlen : b.length ≤ ioMax) (hid : s.fifo.currentId + 1 < 2 ^ 32)
    (hs : s.step (e, .write data n) = some s') :
    ∃ p', s'.Good size hdr p' ∧ (Exact hdr p s.acked → Exact hdr p' s'.acked) := by
  obtain ⟨⟨code, g⟩, hw, rfl⟩ := Option.map_eq_some_iff.1 hs
  rw [permFifoWrite_eq he hn hb] at hw
  obtain ⟨-, hcur, hout, p', hi, hall, hg⟩ := h.inv.write he (payload_ne_nil hb) hlen hid hw
  have hpay : (Call.write data n).payload = some b := by
    simp only [Call.payload, if_neg hn, hb]
  have hle := h.inv.readable.lastIdOut_le
  have hack := h.acked_le
  have hhdr := h.durable.header_le
  simp only [hpay, Option.map_some, Option.toList_some]
  refine ⟨p', ⟨hi, h.durable.grown hg (by simp; omega), by rw [hcur]; exact hid, ?_, ?_, by rw [hout]; exact h.lastRead,
    by rw [hout]; exact h.acked_le⟩, fun hx => hx.grown hg (by simp; omega)⟩
  · rw [hall, h.written, hcur]
  · rw [hall, hout, List.filter_append, List.filter_cons_of_neg (by simp; omega), List.filter_nil, List.append_nil]
    exact h.delivered

theorem read (h : s.Good size hdr p) (he : e.Succeeds) (hs : s.step (e, .read) = some s') :
    ∃ p', s'.Good size hdr p' ∧ (Exact hdr p s.acked → Exact hdr p' s'.acked) := by
  obtain ⟨⟨code, item, g⟩, hr, rfl⟩ := Option.map_eq_some_iff.1 hs
  rcases h.inv.read he h.current_lt hr with
    ⟨hcode, -, rfl⟩ | ⟨r, p', rfl, rfl, hp, hi, hall, hgone, hsaved, hun, hout, hcur⟩
  · rw [if_neg hcode]
    exact ⟨p, h, fun hx => hx⟩
  · rw [if_pos rfl]
    have hg : Grown p p' [] := .same hgone hsaved hun
    have hf := h.inv.readable.pending
    rw [hp] at hf
    have hrlt : s.fifo.lastIdOut < r.id := by
      have : r ∈ p.all.filter (fun x => decide (s.fifo.lastIdOut < x.id)) := by rw [hf]; exact List.mem_cons_self
      simpa using (List.mem_filter.1 this).2
    refine ⟨p', ⟨hi, h.durable.grown hg (by simp), by rw [hcur]; exact h.current_lt, by rw [hall]; exact h.written, ?_,
      hout.symm, ?_⟩, fun hx => hx.grown hg (by simp)⟩
    · simp only [hall, hout, (h.inv.readable.increasing.next hf).2, List.map_append]
      rw [h.delivered]
      rfl
    · have := h.acked_le
      show s.acked ≤ g.lastIdOut
      omega

theorem ack {id : Nat} (h : s.Good size hdr p) (hle : id ≤ s.lastRead) (hs : s.step (e, .ack id) = some s') :
    ∃ hdr' p', s'.Good size hdr' p' ∧ (s.acked ≤ id → Exact hdr' p' s'.acked) := by
  obtain rfl := (Option.some.inj hs).symm
  rw [h.lastRead] at hle
  have hcur := h.current_lt
  have hlast := h.inv.readable.lastIdOut_le
  have hack := h.acked_le
  obtain ⟨-, hi, hsame⟩ := h.inv.ack hle
  exact ⟨_, _, h.same hi (h.durable.ack h.inv.readable (by omega) (by omega)) (p.all_ack id) hsame (by omega),
    fun hm => exact_ack h.inv.readable hm⟩

theorem flush {timeout : Int} (h : s.Good size hdr p) (he : e.Succeeds)
    (hs : s.step (e, .flush timeout) = some s') :
    ∃ p', s'.Good size hdr p' ∧ (Exact hdr p s.acked → Exact hdr p' s'.acked) := by
  obtain ⟨⟨code, g⟩, hf, rfl⟩ := Option.map_eq_some_iff.1 hs
  obtain ⟨-, hsame, hi⟩ := h.inv.flush he hf
  rcases hi with hi | hi
  · exact ⟨p, h.same hi h.durable rfl hsame h.acked_le, fun hx => hx⟩
  · have hg := Grown.save p
    exact ⟨p.save, h.same hi (h.durable.grown hg (by simp)) p.all_save hsame h.acked_le,
      fun hx => hx.grown hg (by simp)⟩

/-- **Every call keeps a session good.** -/
theorem step (h : s.Good size hdr p) (hok : s.Ok c) (hs : s.step c = some s') :
    ∃ hdr' p', s'.Good size hdr' p' ∧ (Exact hdr p s.acked → s.Monotone c → Exact hdr' p' s'.acked) := by
  obtain ⟨e, call⟩ := c
  obtain ⟨he, hok⟩ := hok
  cases call with
  | write data n =>
    by_cases hn : n < 0
    · have hpay : (Call.write data n).payload = none := if_pos hn
      obtain ⟨r, hw, rfl⟩ := Option.map_eq_some_iff.1 hs
      rw [permFifoWrite_none hn] at hw
      obtain rfl := (Option.some.inj hw).symm
      simp only [hpay, Option.map_none, Option.toList_none, List.append_nil]
      exact ⟨hdr, p, h, fun hx _ => hx⟩
    · obtain ⟨hid, b, hb, hlen⟩ := hok.resolve_left hn
      obtain ⟨p', hg, hx⟩ := h.write he hn hb hlen hid hs
      exact ⟨hdr, p', hg, fun h' _ => hx h'⟩
  | read =>
    obtain ⟨p', hg, hx⟩ := h.read he hs
    exact ⟨hdr, p', hg, fun h' _ => hx h'⟩
  | ack id =>
    obtain ⟨hdr', p', hg, hx⟩ := h.ack hok hs
    exact ⟨hdr', p', hg, fun _ hm => hx hm⟩
  | flush t =>
    obtain ⟨p', hg, hx⟩ := h.flush he hs
    exact ⟨hdr, p', hg, fun h' _ => hx h'⟩

/-- With tables of at most `2 ^ 30` slots every call has a result. -/
theorem step_isSome (h : s.Good size hdr p) (hok : s.Ok c) (hf : size ≤ 2 ^ 30) : (s.step c).isSome = true := by
  obtain ⟨e, call⟩ := c
  obtain ⟨he, hok⟩ := hok
  cases call with
  | write data n =>
    simp only [Session.step, Option.isSome_map]
    by_cases hn : n < 0
    · rw [permFifoWrite_none hn]
      rfl
    · obtain ⟨-, b, hb, -⟩ := hok.resolve_left hn
      rw [permFifoWrite_eq he hn hb]
      exact writeItem_isSome h.inv he hf
  | read =>
    simp only [Session.step, Option.isSome_map]
    exact permFifoRead_isSome h.inv he h.current_lt hf
  | ack id => rfl
  | flush t =>
    simp only [Session.step, Option.isSome_map]
    exact flush_isSome h.inv he hf

/-- What was delivered is a prefix of what there is, all of it when nothing is unread. -/
theorem delivered_prefix (h : s.Good size hdr p) : s.delivered <+: s.written.map Record.item ∧
    (p.pending = [] → s.delivered = s.written.map Record.item) := by
  have hsplit := h.inv.readable.increasing.split s.fifo.lastIdOut
  rw [h.inv.readable.pending] at hsplit
  rw [h.delivered, h.written]
  refine ⟨?_, fun hn => ?_⟩
  · conv => rhs; rw [hsplit, List.map_append]
    exact List.prefix_append _ _
  · conv => rhs; rw [hsplit, hn, List.append_nil]

end Session.Good

/-! ## Opening -/

theorem FifoFile.clean_currentId {F : FifoFile} (h : F.Counted) : F.clean.currentId = lastId F.kept := by
  show (if F.kept ≠ [] then lastId F.kept else if F.lastAckId = 0 then F.currentId else 0) = lastId F.kept
  by_cases hk : F.kept = []
  · rw [if_neg (not_not.2 hk), hk]
    split
    · rename_i hz
      have hr : F.records = [] := by
        rw [← hk]
        exact (if_pos hz).symm
      exact h hr hz
    · rfl
  · rw [if_pos hk]

theorem FifoFile.clean_currentId_lt {F : FifoFile} (hc : F.Counted) (h : lastId F.records < 2 ^ 32) :
    F.clean.currentId < 2 ^ 32 := by
  rw [FifoFile.clean_currentId hc]
  unfold FifoFile.kept
  split
  · exact h
  · by_cases hne : F.unacked = []
    · rw [hne]
      decide
    · rw [lastId_renumber 0 _ hne, Nat.zero_add]
      have h1 := F.unacked_increasing.length_le 0 (fun r hr => (F.unacked_ok r hr).id_pos) hne
      obtain ⟨r, hr, hid⟩ := lastId_mem hne
      have h2 := F.increasing.id_le_lastId r (List.mem_filter.1 hr).1
      omega

/-- Where the records of a file just opened are: in it, all to be read. -/
def Parts.opened (rs : List Record) : Parts := ⟨[], [], rs, [], [], rs⟩

@[simp] theorem Parts.all_opened (rs : List Record) : (Parts.opened rs).all = rs := by
  simp [Parts.all, Parts.saved, Parts.opened]

/-- **Opening a well-formed file** succeeds, with every unacknowledged record to be read. -/
theorem permFifoNew_spec {F : FifoFile} {d : Dir FileName} {n : Nat} (hd : Cleans d F) (hc : F.Counted) (hn : 0 < n) :
    ∃ f, permFifoNew e d n = some f ∧ f.currentId = F.clean.currentId ∧ f.file = some F.clean.bytes ∧
      (F.clean.currentId < 2 ^ 32 → (Session.start f).Good n F.clean.header (.opened F.kept)) ∧
      Exact F.clean.header (.opened F.kept) 0 := by
  obtain ⟨ops, hops, hend⟩ := hd
  have hct := ctNew_of_pos hn
  obtain ⟨hwf, hlist, hsize⟩ := ctNew_spec hct
  have hhold : CircularTable.Holds ⟨n, 0, 0, List.replicate n emptyFifoItem⟩ [] := ⟨hwf, hlist⟩
  have hread : (Fd.mk F.clean.bytes 0).read headerSize =
      (F.clean.header.bytes, Fd.between F.clean.header.bytes (encode F.clean.records)) := by
    rw [bytes_eq_between, Fd.read_between (n := headerSize) _ _ (MainHeader.length_bytes _), List.nil_append]
  have hnew : permFifoNew e d n = some
      { tableClient := ⟨n, 0, 0, List.replicate n emptyFifoItem⟩
        tableDisk := some ⟨n, 0, 0, List.replicate n emptyFifoItem⟩
        file := some F.clean.bytes
        currentId := F.clean.currentId
        lastIdOut := 0
        lastOutOffset := headerSize
        nextIdInClientTable := 1
        lastIdOnDisk := F.clean.currentId
        ackOnDisk := decide (F.clean.currentId ≠ 0)
        lastFlush := e.now } := by
    unfold permFifoNew
    simp only [hops, hend, hread, MainHeader.length_bytes, F.clean.parse_header, hct, ne_eq, not_true_eq_false,
      if_false, Option.getD_some]
    rw [if_neg (by simp [FifoFile.header])]
    rfl
  have hid := FifoFile.clean_currentId hc
  have hpos : F.clean.currentId = 0 ↔ F.kept = [] := by
    rw [hid]
    constructor
    · intro hz
      by_contra hne
      exact F.lastId_kept_pos hne hz
    · intro hk
      rw [hk]
      rfl
  have hrec : F.clean.records = F.kept := rfl
  refine ⟨_, hnew, rfl, rfl, fun hcur => ?_, fun r hr hle => ?_⟩
  · refine ⟨⟨⟨⟨_, rfl, hhold, hsize⟩, rfl, rfl, fun r hr => (by cases hr), fun _ => hid, ?_⟩, ?_⟩, ?_, hcur, ?_, ?_,
      rfl, Nat.le_refl _⟩
    · simp [Session.start, Parts.saved, Parts.opened, hpos]
    · have hall := Parts.all_opened F.kept
      refine ⟨hhold, hsize, by rw [hall]; exact F.kept_ok, by rw [hall]; exact F.kept_increasing,
        by rw [hall]; exact hid, ?_, Nat.zero_le _, fun r hr => (by cases hr), fun r hr => (by cases hr), trivial, ?_,
          ?_⟩
      · rw [hall]
        exact List.filter_eq_self.2 (fun r hr => by simpa [Session.start] using (F.kept_ok r hr).id_pos)
      · simp [Session.start]
      · intro hnext
        have hz : F.clean.currentId = 0 := by
          simp only [Session.start] at hnext
          omega
        exact hpos.1 hz
    · refine ⟨rfl, F.clean.ack_lt, F.clean.current_lt, Nat.le_refl _, fun r hr => (by cases hr),
        fun r hr => (by cases hr), fun hs _ => ?_⟩
      exact hpos.2 hs
    · simp [Session.start, FifoFile.decode_bytes, hrec]
    · rw [Parts.all_opened, List.filter_eq_nil_iff.2]
      · rfl
      · intro r hr
        have := (F.kept_ok r hr).id_pos
        simp [Session.start]
        omega
  · have hr : r ∈ F.kept := by simpa [Parts.saved, Parts.opened] using hr
    have := (F.kept_ok r hr).id_pos
    omega

end Perm
end Flp
