import FlpPrototype.Rorc.BusAddress
import FlpPrototype.Rorc.CrorcRuns
import FlpPrototype.Rorc.CruRuns
/-!
# PushSuperpage — what a push leaves behind in each backend

The backends check a superpage, look its address up and count it in, in different orders, and an exception leaves a
channel as it then is.  A push is to change nothing when it throws, and to accept only what is inside the buffer
(`AllOrNothing`).
-/
namespace Flp
namespace Rorc

/-! ## The dummy backend -/

/-- A circular buffer, its oldest element first. -/
structure CircularBuffer (α : Type) (capacity : Nat) where
  elements : List α
  fits : elements.length ≤ capacity

/-- `push_back`: a full one loses its front. -/
def CircularBuffer.pushBack {α : Type} {capacity : Nat} (buffer : CircularBuffer α capacity) (x : α) :
    CircularBuffer α capacity where
  elements := (buffer.elements ++ [x]).drop (buffer.elements.length + 1 - capacity)
  fits := by
    rw [List.length_drop, List.length_append, List.length_singleton]
    omega

def TRANSFER_QUEUE_SIZE : Nat := 16
def READY_QUEUE_SIZE : Nat := 32

structure DummyDmaChannel where
  mTransferQueue : CircularBuffer Superpage TRANSFER_QUEUE_SIZE
  mReadyQueue : CircularBuffer Superpage READY_QUEUE_SIZE

/-- What a push throws. -/
inductive DummyFailure where
  | transferQueueFull
  | check (e : Failure)
  deriving DecidableEq, Repr

def DummyFailure.message : DummyFailure → String
  | .transferQueueFull   => "Could not push superpage, transfer queue was full"
  | .check (.rejected r) => r.message
  | .check _             => ""

namespace DummyDmaChannel

def getTransferQueueAvailable (s : DummyDmaChannel) : Int :=
  (TRANSFER_QUEUE_SIZE : Int) - s.mTransferQueue.elements.length

/-- `pushSuperpage`.  The checks of the superpage are those of `checkSuperpage`, written out again. -/
def pushSuperpage (cfg : Config) (s : DummyDmaChannel) (superpage : Superpage) :
    Option DummyFailure × DummyDmaChannel :=
  if s.getTransferQueueAvailable = 0 then (some .transferQueueFull, s)
  else
    match Channel.checkSuperpage cfg superpage with
    | .error e => (some (.check e), s)
    | .ok _    => (none, { s with mTransferQueue := s.mTransferQueue.pushBack superpage })

end DummyDmaChannel

/-! ## The C-RORC's push, one assignment after the other -/

/-- `addToQueue`, the exception it throws, if any, and the queue as it then is. -/
def SuperpageQueue.addToQueueSteps (MAX_SUPERPAGES : Nat) (q : SuperpageQueue) (entry : Entry) :
    Option QueueError × SuperpageQueue :=
  if q.isFull MAX_SUPERPAGES then (some .full, q)
  else
    let id := q.mNextId
    if (q.mRegistry id).isValid then (some .idInUse, q)
    else
      let q := q.setEntry id entry
      let q := { q with mNextId := (q.mNextId + 1) % MAX_SUPERPAGES }
      let q := { q with mNumberOfEntries := q.mNumberOfEntries + 1 }
      let q := { q with mPushing := pushBack MAX_SUPERPAGES q.mPushing id }
      let q := { q with mArrivals := pushBack MAX_SUPERPAGES q.mArrivals id }
      (none, q)

/-- `pushSuperpage` of the C-RORC. -/
def Channel.pushSuperpageSteps (cfg : Config) (s : Channel) (superpage : Superpage) : Option Failure × Channel :=
  match checkSuperpage cfg superpage with
  | .error e => (some e, s)
  | .ok _    =>
    if isMultiple superpage.size (1 * 1024 * 1024) = false then (some (.rejected .notMultipleOfMiB), s)
    else
      match getBusOffsetAddress cfg.scatterGatherList superpage.offset with
      | none            => (some (.rejected .addressOutOfRange), s)
      | some busAddress =>
        if cfg.pageSize = 0 then (some .divisionByZero, s)
        else
          let entry : Entry :=
            { superpage := { superpage with received := 0 }
              busAddress
              pushedPages := 0
              maxPages := toSigned 32 (superpage.size / cfg.pageSize) }
          let result := s.mSuperpageQueue.addToQueueSteps MAX_SUPERPAGES entry
          (result.1.map .queue, { s with mSuperpageQueue := result.2 })

theorem SuperpageQueue.addToQueueSteps_eq (MAX_SUPERPAGES : Nat) (q : SuperpageQueue) (entry : Entry) :
    q.addToQueueSteps MAX_SUPERPAGES entry =
      match q.addToQueue MAX_SUPERPAGES entry with
      | .error e => (some e, q)
      | .ok q'   => (none, q') := by
  rw [addToQueueSteps, addToQueue]
  by_cases hfull : q.isFull MAX_SUPERPAGES = true
  · rw [if_pos hfull, if_pos hfull]
  rw [if_neg hfull, if_neg hfull]
  by_cases hinUse : (q.mRegistry q.mNextId).isValid = true
  · simp only [if_pos hinUse]
  · simp only [if_neg hinUse, setEntry]

/-- **The two descriptions of a push agree**: what throws has changed nothing. -/
theorem Channel.pushSuperpageSteps_eq (cfg : Config) (s : Channel) (superpage : Superpage) :
    s.pushSuperpageSteps cfg superpage =
      match s.pushSuperpage cfg superpage with
      | .error e => (some e, s)
      | .ok s'   => (none, s') := by
  rw [pushSuperpageSteps, pushSuperpage]
  cases checkSuperpage cfg superpage with
  | error e => rfl
  | ok _ =>
    by_cases hmultiple : isMultiple superpage.size (1 * 1024 * 1024) = false
    · simp only [if_pos hmultiple]
      rfl
    simp only [if_neg hmultiple]
    cases getBusOffsetAddress cfg.scatterGatherList superpage.offset with
    | none => rfl
    | some busAddress =>
      simp only [SuperpageQueue.addToQueueSteps_eq]
      by_cases hzero : cfg.pageSize = 0
      · simp only [if_pos hzero]
        rfl
      simp only [if_neg hzero]
      cases s.mSuperpageQueue.addToQueue MAX_SUPERPAGES _ with
      | error e => rfl
      | ok q => rfl

/-! ## All or nothing -/

/-- What is asked of a backend: what a push throws, if anything, and leaves behind (none if the call has no result), and
how many superpages take a slot of the channel. -/
class DmaChannelInterface (σ : Type) (Thrown : outParam Type) where
  pushSuperpage : Config → σ → Superpage → Option (Option Thrown × σ)
  superpages : σ → Nat

instance : DmaChannelInterface Cru.CruChannel Cru.CruFailure where
  pushSuperpage cfg s superpage :=
    match s.pushSuperpage cfg superpage with
    -- an index behind the links has no result
    | (some .noLink, _) => none
    | result            => some result
  superpages s := (s.mLinks.map fun link => link.queue.length).sum

instance : DmaChannelInterface Channel Failure where
  pushSuperpage cfg s superpage :=
    match s.pushSuperpageSteps cfg superpage with
    -- a division by zero has no result
    | (some .divisionByZero, _) => none
    | result                    => some result
  superpages s := s.mSuperpageQueue.mNumberOfEntries

instance : DmaChannelInterface DummyDmaChannel DummyFailure where
  pushSuperpage cfg s superpage := some (s.pushSuperpage cfg superpage)
  superpages s := s.mTransferQueue.elements.length

open DmaChannelInterface in
/-- **What a push is to do**: throw and leave every queue and counter as it was, or take a slot for a superpage inside
the buffer. -/
def AllOrNothing {σ Thrown : Type} [DmaChannelInterface σ Thrown] (cfg : Config) (s : σ) (superpage : Superpage) :
    Prop :=
  ∃ thrown s', pushSuperpage cfg s superpage = some (thrown, s') ∧ (thrown ≠ none → s' = s) ∧
    (thrown = none → superpages s' = superpages s + 1 ∧ superpage.offset + superpage.size ≤ cfg.bufferSize)

section
variable {σ Thrown : Type} [DmaChannelInterface σ Thrown] {cfg : Config} {s s' : σ} {superpage : Superpage}

open DmaChannelInterface

/-- A push that throws is judged by what it has changed. -/
theorem allOrNothing_thrown {e : Thrown} (h : pushSuperpage cfg s superpage = some (some e, s')) :
    AllOrNothing cfg s superpage ↔ s' = s := by
  constructor
  · rintro ⟨thrown, after, hpush, hnothing, -⟩
    obtain ⟨rfl, rfl⟩ := Prod.mk.inj (Option.some.inj (h.symm.trans hpush))
    exact hnothing (Option.some_ne_none e)
  · intro hsame
    exact ⟨some e, s', h, fun _ => hsame, fun hnone => absurd hnone (Option.some_ne_none e)⟩

/-- A push that takes a slot is judged by where the superpage is. -/
theorem allOrNothing_accepted (h : pushSuperpage cfg s superpage = some (none, s'))
    (htaken : superpages s' = superpages s + 1) :
    AllOrNothing cfg s superpage ↔ superpage.offset + superpage.size ≤ cfg.bufferSize := by
  constructor
  · rintro ⟨thrown, after, hpush, -, hall⟩
    obtain ⟨rfl, rfl⟩ := Prod.mk.inj (Option.some.inj (h.symm.trans hpush))
    exact (hall rfl).2
  · intro hinside
    exact ⟨none, s', h, fun hthrown => absurd rfl hthrown, fun _ => ⟨htaken, hinside⟩⟩

end

/-- A buffer in user space, and a scatter-gather list that covers it. -/
structure Covered (cfg : Config) : Prop where
  user : ∃ base, UserContiguous base cfg.scatterGatherList ∧ base + totalSize cfg.scatterGatherList < 2 ^ 64
  covers : cfg.bufferSize ≤ totalSize cfg.scatterGatherList

/-- The entries of a contiguous list hold the addresses from its base to its end. -/
theorem exists_entry_iff : ∀ {entries : List ScatterGatherEntry} {base address : Nat}, UserContiguous base entries →
    base + totalSize entries < 2 ^ 64 →
    ((∃ e ∈ entries, e.addressUser ≤ address ∧ address < wrap64 (e.addressUser + e.size)) ↔
      base ≤ address ∧ address < base + totalSize entries)
  | [], base, address, _, _ => by
    have htotal : totalSize [] = 0 := rfl
    rw [htotal]
    refine iff_of_false (fun ⟨e, he, _⟩ => absurd he List.not_mem_nil) (by omega)
  | e :: entries, base, address, huser, hbelow => by
    obtain ⟨rfl, huser⟩ := huser
    have htotal : totalSize (e :: entries) = e.size + totalSize entries := rfl
    have hwrap : wrap64 (e.addressUser + e.size) = e.addressUser + e.size := Nat.mod_eq_of_lt (by omega)
    rw [List.exists_mem_cons_iff, exists_entry_iff huser (by omega), hwrap]
    omega

/-- **The lookup throws** for an offset behind the list's memory, and for no other. -/
theorem getBusOffsetAddress_none_iff {cfg : Config} (h : Covered cfg) {offset : Nat} (hoffset : offset < 2 ^ 64) :
    getBusOffsetAddress cfg.scatterGatherList offset = none ↔ totalSize cfg.scatterGatherList ≤ offset := by
  obtain ⟨base, huser, hbelow⟩ := h.user
  cases hlist : cfg.scatterGatherList with
  | nil => exact iff_of_true rfl (Nat.zero_le _)
  | cons e entries =>
    rw [hlist] at huser hbelow
    have hentry := @exists_entry_iff _ _ (wrap64 (e.addressUser + offset)) huser hbelow
    obtain ⟨rfl, -⟩ := huser
    rw [getBusOffsetAddress, Option.map_eq_none_iff, List.find?_eq_none]
    simp only [decide_eq_true_eq]
    have hnone : (∀ x ∈ e :: entries, ¬(x.addressUser ≤ wrap64 (e.addressUser + offset) ∧
        wrap64 (e.addressUser + offset) < wrap64 (x.addressUser + x.size))) ↔
        ¬∃ x ∈ e :: entries, x.addressUser ≤ wrap64 (e.addressUser + offset) ∧
          wrap64 (e.addressUser + offset) < wrap64 (x.addressUser + x.size) := by
      simp only [not_exists, not_and]
    rw [hnone, hentry]
    unfold wrap64
    omega

/-! ### Each backend -/

section
variable {cfg : Config} {superpage : Superpage}

theorem Covered.small (h : Covered cfg) : cfg.bufferSize < 2 ^ 64 := by
  obtain ⟨base, -, hbelow⟩ := h.user
  have hcovers := h.covers
  omega

/-- A superpage that passes the checks has a size, and a sum of offset and size that has gone round or is inside. -/
theorem checkSuperpage_passed (h : Channel.checkSuperpage cfg superpage = .ok ()) :
    superpage.size ≠ 0 ∧ wrap64 (superpage.offset + superpage.size) ≤ cfg.bufferSize := by
  unfold Channel.checkSuperpage at h
  split_ifs at h with hsize hmultiple hrange
  exact ⟨hsize, Nat.le_of_not_lt hrange⟩

/-- **The checks keep to the buffer** exactly when the sum does not go round. -/
theorem inside_iff (hcovered : Covered cfg) (h : Channel.checkSuperpage cfg superpage = .ok ()) :
    superpage.offset + superpage.size ≤ cfg.bufferSize ↔ superpage.offset + superpage.size < 2 ^ 64 :=
  ⟨fun hin => Nat.lt_of_le_of_lt hin hcovered.small, fun hsum => checkSuperpage_inside h hsum⟩

theorem address_found (hcovered : Covered cfg) (h : Channel.checkSuperpage cfg superpage = .ok ())
    (hsum : superpage.offset + superpage.size < 2 ^ 64) :
    ∃ busAddress, getBusOffsetAddress cfg.scatterGatherList superpage.offset = some busAddress := by
  have hinside := checkSuperpage_inside h hsum
  have hsize := (checkSuperpage_passed h).1
  have hcovers := hcovered.covers
  refine Option.ne_none_iff_exists'.1 fun hnone => ?_
  have hbehind := (getBusOffsetAddress_none_iff hcovered (by omega)).1 hnone
  omega

/-- The CRU: there is a link to push to, and if it has room for a superpage that passes the checks then the sum does not
go round. -/
def Cru.CruChannel.Sums (cfg : Config) (s : CruChannel) (superpage : Superpage) : Prop :=
  Channel.checkSuperpage cfg superpage = .ok () → s.mLinkQueuesTotalAvailable ≠ 0 →
    ∃ link, s.mLinks[s.getNextLinkIndex]? = some link ∧
      (link.queue.length < LINK_QUEUE_CAPACITY → superpage.offset + superpage.size < 2 ^ 64)

/-- The C-RORC: unless one of the checks fails or the offset is behind the buffer's memory, pages have a size, and the
sum goes round only if the queue refuses. -/
def Channel.Sums (cfg : Config) (s : Channel) (superpage : Superpage) : Prop :=
  checkSuperpage cfg superpage = .ok () → isMultiple superpage.size (1 * 1024 * 1024) = true →
    superpage.offset < totalSize cfg.scatterGatherList →
      cfg.pageSize ≠ 0 ∧ (s.mSuperpageQueue.isFull MAX_SUPERPAGES = false →
        (s.mSuperpageQueue.mRegistry s.mSuperpageQueue.mNextId).isValid = false →
          superpage.offset + superpage.size < 2 ^ 64)

/-- The dummy: the sum goes round only if one of the checks fails or the queue is full. -/
def DummyDmaChannel.Sums (cfg : Config) (s : DummyDmaChannel) (superpage : Superpage) : Prop :=
  s.mTransferQueue.elements.length < TRANSFER_QUEUE_SIZE → Channel.checkSuperpage cfg superpage = .ok () →
    superpage.offset + superpage.size < 2 ^ 64

theorem DummyDmaChannel.allOrNothing_iff (hcovered : Covered cfg) (s : DummyDmaChannel) :
    AllOrNothing cfg s superpage ↔ s.Sums cfg superpage := by
  have hfits := s.mTransferQueue.fits
  have hpush : DmaChannelInterface.pushSuperpage cfg s superpage = some (s.pushSuperpage cfg superpage) := rfl
  rw [pushSuperpage] at hpush
  by_cases hfull : s.getTransferQueueAvailable = 0
  · rw [if_pos hfull] at hpush
    rw [getTransferQueueAvailable] at hfull
    refine iff_of_true ((allOrNothing_thrown hpush).2 rfl) fun hroom => ?_
    omega
  rw [if_neg hfull] at hpush
  rw [getTransferQueueAvailable] at hfull
  have hroom : s.mTransferQueue.elements.length < TRANSFER_QUEUE_SIZE := by omega
  cases hcheck : Channel.checkSuperpage cfg superpage with
  | error e =>
    rw [hcheck] at hpush
    refine iff_of_true ((allOrNothing_thrown hpush).2 rfl) fun _ hok => ?_
    rw [hcheck] at hok
    cases hok
  | ok _ =>
    rw [hcheck] at hpush
    have htaken : (s.mTransferQueue.pushBack superpage).elements.length = s.mTransferQueue.elements.length + 1 := by
      rw [CircularBuffer.pushBack, List.length_drop, List.length_append, List.length_singleton]
      omega
    rw [allOrNothing_accepted hpush htaken, inside_iff hcovered hcheck]
    exact ⟨fun hsum _ _ => hsum, fun hsums => hsums hroom hcheck⟩

theorem Channel.allOrNothing_iff (hcovered : Covered cfg) (hoffset : superpage.offset < 2 ^ 64) (s : Channel) :
    AllOrNothing cfg s superpage ↔ s.Sums cfg superpage := by
  have hpush : DmaChannelInterface.pushSuperpage cfg s superpage =
    match s.pushSuperpageSteps cfg superpage with
    | (some .divisionByZero, _) => none
    | result                    => some result := rfl
  rw [pushSuperpageSteps] at hpush
  cases hcheck : checkSuperpage cfg superpage with
  | error e =>
    rcases checkSuperpage_cases cfg superpage with hok | ⟨why, hwhy⟩
    · rw [hcheck] at hok
      cases hok
    obtain rfl := Except.error.inj (hcheck.symm.trans hwhy)
    rw [hcheck] at hpush
    refine iff_of_true ((allOrNothing_thrown hpush).2 rfl) fun hok => ?_
    rw [hcheck] at hok
    cases hok
  | ok _ =>
    simp only [hcheck] at hpush
    by_cases hmultiple : isMultiple superpage.size (1 * 1024 * 1024) = false
    · rw [if_pos hmultiple] at hpush
      refine iff_of_true ((allOrNothing_thrown hpush).2 rfl) fun _ hyes => ?_
      exact absurd (hmultiple.symm.trans hyes) (by decide)
    rw [if_neg hmultiple] at hpush
    have haddress := getBusOffsetAddress_none_iff hcovered hoffset
    cases hbus : getBusOffsetAddress cfg.scatterGatherList superpage.offset with
    | none =>
      rw [hbus] at hpush
      refine iff_of_true ((allOrNothing_thrown hpush).2 rfl) fun _ _ hin => ?_
      exact absurd (haddress.1 hbus) (Nat.not_le_of_lt hin)
    | some busAddress =>
      simp only [hbus, SuperpageQueue.addToQueueSteps] at hpush
      have hin : superpage.offset < totalSize cfg.scatterGatherList := by
        refine Nat.lt_of_not_le fun hbehind => ?_
        rw [haddress.2 hbehind] at hbus
        cases hbus
      have hall : s.Sums cfg superpage ↔ cfg.pageSize ≠ 0 ∧ (s.mSuperpageQueue.isFull MAX_SUPERPAGES = false →
          (s.mSuperpageQueue.mRegistry s.mSuperpageQueue.mNextId).isValid = false →
            superpage.offset + superpage.size < 2 ^ 64) :=
        ⟨fun hsums => hsums hcheck (Bool.eq_true_of_not_eq_false hmultiple) hin, fun hsums _ _ _ => hsums⟩
      rw [hall]
      by_cases hzero : cfg.pageSize = 0
      · rw [if_pos hzero] at hpush
        refine iff_of_false ?_ fun hsums => hsums.1 hzero
        rintro ⟨thrown, s', hresult, -⟩
        rw [hpush] at hresult
        cases hresult
      rw [if_neg hzero] at hpush
      by_cases hfull : s.mSuperpageQueue.isFull MAX_SUPERPAGES = true
      · rw [if_pos hfull] at hpush
        refine iff_of_true ((allOrNothing_thrown hpush).2 rfl) ⟨hzero, fun hroom => ?_⟩
        exact absurd (hroom.symm.trans hfull) (by decide)
      rw [if_neg hfull] at hpush
      by_cases hinUse : (s.mSuperpageQueue.mRegistry s.mSuperpageQueue.mNextId).isValid = true
      · rw [if_pos hinUse] at hpush
        refine iff_of_true ((allOrNothing_thrown hpush).2 rfl) ⟨hzero, fun _ hfree => ?_⟩
        exact absurd (hfree.symm.trans hinUse) (by decide)
      rw [if_neg hinUse] at hpush
      rw [allOrNothing_accepted hpush rfl, inside_iff hcovered hcheck]
      exact ⟨fun hsum => ⟨hzero, fun _ _ => hsum⟩, fun hsums => hsums.2 (Bool.eq_false_of_not_eq_true hfull)
        (Bool.eq_false_of_not_eq_true hinUse)⟩

theorem Cru.sum_push (superpage : Superpage) : ∀ {links : List Link} {i : Nat} {link : Link}, links[i]? = some link →
    link.queue.length < LINK_QUEUE_CAPACITY →
    ((links.set i (CruChannel.Link.push link superpage)).map fun l => l.queue.length).sum =
      (links.map fun l => l.queue.length).sum + 1
  | [], _, _, h, _ => by cases h
  | l :: links, 0, link, h, hroom => by
    obtain rfl := Option.some.inj h
    simp only [List.set_cons_zero, List.map_cons, List.sum_cons, CruChannel.Link.push,
      CruSession.pushBack_of_lt hroom, List.length_append, List.length_singleton]
    omega
  | l :: links, i + 1, link, h, hroom => by
    have ih := @sum_push superpage links i _ h hroom
    simp only [List.set_cons_succ, List.map_cons, List.sum_cons, ih]
    omega

theorem Cru.CruChannel.allOrNothing_iff (hcovered : Covered cfg) (s : CruChannel) :
    AllOrNothing cfg s superpage ↔ s.Sums cfg superpage := by
  have hpush : DmaChannelInterface.pushSuperpage cfg s superpage =
    match s.pushSuperpage cfg superpage with
    | (some .noLink, _) => none
    | result            => some result := rfl
  rw [pushSuperpage] at hpush
  cases hcheck : Channel.checkSuperpage cfg superpage with
  | error e =>
    rw [hcheck] at hpush
    refine iff_of_true ((allOrNothing_thrown hpush).2 rfl) fun hok => ?_
    rw [hcheck] at hok
    cases hok
  | ok _ =>
    simp only [hcheck] at hpush
    by_cases hslot : s.mLinkQueuesTotalAvailable = 0
    · rw [if_pos hslot] at hpush
      exact iff_of_true ((allOrNothing_thrown hpush).2 rfl) fun _ hslot' => absurd hslot hslot'
    rw [if_neg hslot] at hpush
    cases hlink : s.mLinks[s.getNextLinkIndex]? with
    | none =>
      rw [hlink] at hpush
      refine iff_of_false ?_ fun hsums => ?_
      · rintro ⟨thrown, s', hresult, -⟩
        rw [hpush] at hresult
        cases hresult
      · obtain ⟨link, hsome, -⟩ := hsums hcheck hslot
        rw [hlink] at hsome
        cases hsome
    | some link =>
      simp only [hlink] at hpush
      have hsums : s.Sums cfg superpage ↔
          (link.queue.length < LINK_QUEUE_CAPACITY → superpage.offset + superpage.size < 2 ^ 64) := by
        constructor
        · intro h
          obtain ⟨link', hlink', hsum⟩ := h hcheck hslot
          obtain rfl := Option.some.inj (hlink.symm.trans hlink')
          exact hsum
        · exact fun h _ _ => ⟨link, hlink, h⟩
      rw [hsums]
      by_cases hroom : LINK_QUEUE_CAPACITY ≤ link.queue.length
      · rw [if_pos hroom] at hpush
        exact iff_of_true ((allOrNothing_thrown hpush).2 rfl) fun hlt => absurd hlt (Nat.not_lt_of_le hroom)
      rw [if_neg hroom] at hpush
      have hlt : link.queue.length < LINK_QUEUE_CAPACITY := Nat.lt_of_not_le hroom
      cases hbus : getBusOffsetAddress cfg.scatterGatherList superpage.offset with
      | none =>
        rw [hbus] at hpush
        refine iff_of_false (fun hall => ?_) fun hsum => ?_
        · -- the slot is gone
          have hsame := congrArg CruChannel.mLinkQueuesTotalAvailable ((allOrNothing_thrown hpush).1 hall)
          simp only at hsame
          omega
        · obtain ⟨busAddress, hfound⟩ := address_found hcovered hcheck (hsum hlt)
          rw [hbus] at hfound
          cases hfound
      | some busAddress =>
        rw [hbus] at hpush
        rw [allOrNothing_accepted hpush (Cru.sum_push superpage hlink hlt), inside_iff hcovered hcheck]
        exact ⟨fun hsum _ => hsum, fun hsum => hsum hlt⟩

/-- **A push is all or nothing and keeps to the buffer exactly as long as the sum of offset and size does not go
round**, in every state of each backend; in the C-RORC's pages also need a size. -/
theorem pushSuperpage_allOrNothing_iff (hcovered : Covered cfg) (hoffset : superpage.offset < 2 ^ 64) :
    (∀ s : Cru.CruChannel, AllOrNothing cfg s superpage ↔ s.Sums cfg superpage) ∧
      (∀ s : Channel, AllOrNothing cfg s superpage ↔ s.Sums cfg superpage) ∧
      ∀ s : DummyDmaChannel, AllOrNothing cfg s superpage ↔ s.Sums cfg superpage :=
  ⟨Cru.CruChannel.allOrNothing_iff hcovered, Channel.allOrNothing_iff hcovered hoffset,
    DummyDmaChannel.allOrNothing_iff hcovered⟩

end

open CrorcSession (smallBuffer powerOn)
open Cru.CruSession (twoLinksOff)

theorem covered_smallBuffer : Covered smallBuffer where
  user := ⟨2 ^ 20, ⟨rfl, trivial⟩, by decide⟩
  covers := Nat.le_refl _

/-- A superpage in front of the buffer, and one that begins in it and ends in front of it. -/
def inFront : Superpage := ⟨2 ^ 64 - 2 ^ 20, 2 ^ 20, 0, 0, false⟩

def roundTheEnd : Superpage := ⟨2 ^ 20, 2 ^ 64 - 2 ^ 20, 0, 0, false⟩

theorem pushSuperpage_allOrNothing_iff_inFront :
    (∀ s : Cru.CruChannel, AllOrNothing smallBuffer s inFront ↔ s.Sums smallBuffer inFront) ∧
      (∀ s : Channel, AllOrNothing smallBuffer s inFront ↔ s.Sums smallBuffer inFront) ∧
      ∀ s : DummyDmaChannel, AllOrNothing smallBuffer s inFront ↔ s.Sums smallBuffer inFront :=
  pushSuperpage_allOrNothing_iff covered_smallBuffer (by decide)

def dummyOn : DummyDmaChannel := ⟨⟨[], Nat.zero_le _⟩, ⟨[], Nat.zero_le _⟩⟩

/-- The CRU throws with the superpage in a link's queue; the others accept what is not in the buffer. -/
theorem roundTheEnd_not_allOrNothing : Covered smallBuffer ∧
    ¬AllOrNothing smallBuffer twoLinksOff.deviceStartDma inFront ∧
    ¬AllOrNothing smallBuffer powerOn.deviceStartDma roundTheEnd ∧ ¬AllOrNothing smallBuffer dummyOn inFront := by
  refine ⟨covered_smallBuffer, fun h => ?_, fun h => ?_, fun h => ?_⟩
  · have hsums := (Cru.CruChannel.allOrNothing_iff covered_smallBuffer _).1 h
    obtain ⟨link, hlink, hsum⟩ := hsums (by decide) (by decide)
    obtain rfl := Option.some.inj hlink
    exact absurd (hsum (by decide)) (by decide)
  · have hsums := (Channel.allOrNothing_iff covered_smallBuffer (by decide) _).1 h
    exact absurd ((hsums (by decide) (by decide) (by decide)).2 (by decide) (by decide)) (by decide)
  · have hsums := (DummyDmaChannel.allOrNothing_iff covered_smallBuffer _).1 h
    exact absurd (hsums (by decide) (by decide)) (by decide)

end Rorc
end Flp
