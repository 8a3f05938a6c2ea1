import FlpPrototype.Rorc.CrorcDmaChannel
/-!
# CruDmaChannel — the CRU's DMA channel

Each link has a queue of the superpages given to it; what the firmware reports as transferred is moved from the front of
the link's queue to a ready queue the links share (`CruDmaChannel.cxx`).  A call gives the exception it throws, if any,
and the channel behind it, since a call that throws may have changed it.
-/
namespace Flp
namespace Rorc
namespace Cru

def DMA_PAGE_SIZE : Nat := 8 * 1024
def MAX_LINKS : Nat := 24
def MAX_SUPERPAGE_DESCRIPTORS : Nat := 32
def LINK_QUEUE_CAPACITY : Nat := MAX_SUPERPAGE_DESCRIPTORS
def READY_QUEUE_CAPACITY : Nat := 32

/-- A counter of the links. -/
def wrap32 (n : Nat) : Nat := n % 2 ^ 32

/-- What the calls throw, and what they have no result for: an index behind the links, the front of an empty queue. -/
inductive CruFailure where
  | invalidLinkId (id : Nat)
  | check (e : Failure)
  | transferQueueFull
  | linkQueueFull
  | addressOutOfRange
  | readyQueueEmpty
  | tooManyReported
  | noLink
  | emptyFront
  deriving DecidableEq, Repr

def CruFailure.message : CruFailure → String
  | .invalidLinkId _   => "CRU does not support given link ID"
  | .check (.rejected r) => r.message
  | .check _           => ""
  | .transferQueueFull => "Could not push superpage, transfer queue was full"
  | .linkQueueFull     => "Could not push superpage, link queue was full"
  | .addressOutOfRange => "Physical offset address out of range"
  | .readyQueueEmpty   => "Could not pop superpage, ready queue was empty"
  | .tooManyReported   => "FATAL: Firmware reported more superpages available than should be present in FIFO"
  | .noLink            => ""
  | .emptyFront        => ""

/-- A link; `pushed` only records the superpages that were put into its queue. -/
structure Link where
  id : Nat
  superpageCounter : Nat
  queue : List Superpage
  pushed : List Superpage
  deriving DecidableEq, Repr

/-- An entry of the ready queue; `link` only records where it is from. -/
structure Arrival where
  link : Nat
  superpage : Superpage
  deriving DecidableEq, Repr

/-- What the card is told. -/
structure Descriptor where
  link : Nat
  pages : Nat
  busAddress : Nat
  deriving DecidableEq, Repr

/-- The channel's variables, what the card was told, and how often a full queue was pushed into. -/
structure CruChannel where
  mLinks : List Link
  mLinkQueuesTotalAvailable : Nat
  mReadyQueue : List Arrival
  descriptors : List Descriptor
  overwrites : Nat
  deriving DecidableEq, Repr

/-- A set of link ids, as it is gone through. -/
structure LinkMask where
  ids : List Nat
  ascending : ids.Pairwise (· < ·)

/-- `push_back` of a circular buffer: a full one loses its front. -/
def pushBack {α : Type} (capacity : Nat) (q : List α) (x : α) : List α :=
  (if q.length < capacity then q else q.tail) ++ [x]

/-- How many elements `push_back` overwrites. -/
def overwritten {α : Type} (capacity : Nat) (q : List α) : Nat := if q.length < capacity then 0 else 1

/-- The front superpage has arrived. -/
def arrived (superpage : Superpage) : Superpage := { superpage with ready := true, received := superpage.size }

namespace CruChannel

variable (cfg : Config)

/-- The constructor's loop over the link mask. -/
def insertLinks : List Nat → Except CruFailure (List Link)
  | []        => .ok []
  | id :: ids =>
    if MAX_LINKS ≤ id then .error (.invalidLinkId id)
    else
      match insertLinks ids with
      | .error e  => .error e
      | .ok links => .ok (⟨id, 0, [], []⟩ :: links)

def deviceStartDma (s : CruChannel) : CruChannel where
  mLinks := s.mLinks.map fun link => { link with queue := [], superpageCounter := 0, pushed := [] }
  mLinkQueuesTotalAvailable := LINK_QUEUE_CAPACITY * s.mLinks.length
  mReadyQueue := []
  descriptors := []
  overwrites := 0

/-! ### Pushing -/

/-- The loop of `getNextLinkIndex` from link `i` on; the index is 8 bits wide. -/
def smallestQueue : List Link → Nat → Nat × Nat → Nat × Nat
  | [], _, smallest            => smallest
  | link :: links, i, smallest =>
    smallestQueue links (i + 1)
      (if link.queue.length < smallest.2 then (i % 2 ^ 8, link.queue.length) else smallest)

def getNextLinkIndex (s : CruChannel) : Nat := (smallestQueue s.mLinks 0 (2 ^ 8 - 1, 2 ^ 64 - 1)).1

def Link.push (link : Link) (superpage : Superpage) : Link :=
  { link with
    queue := pushBack LINK_QUEUE_CAPACITY link.queue superpage
    pushed := link.pushed ++ [superpage] }

/-- `pushSuperpage`.  The address is looked up when the superpage is already in the queue. -/
def pushSuperpage (s : CruChannel) (superpage : Superpage) : Option CruFailure × CruChannel :=
  match Channel.checkSuperpage cfg superpage with
  | .error e => (some (.check e), s)
  | .ok _    =>
    if s.mLinkQueuesTotalAvailable = 0 then (some .transferQueueFull, s)
    else
      match s.mLinks[s.getNextLinkIndex]? with
      | none      => (some .noLink, s)
      | some link =>
        if LINK_QUEUE_CAPACITY ≤ link.queue.length then (some .linkQueueFull, s)
        else
          let s : CruChannel := { s with
            mLinkQueuesTotalAvailable := s.mLinkQueuesTotalAvailable - 1
            mLinks := s.mLinks.set s.getNextLinkIndex (Link.push link superpage)
            overwrites := s.overwrites + overwritten LINK_QUEUE_CAPACITY link.queue }
          match getBusOffsetAddress cfg.scatterGatherList superpage.offset with
          | none            => (some .addressOutOfRange, s)
          | some busAddress =>
            (none, { s with
              descriptors := s.descriptors ++ [⟨link.id, wrap32 (superpage.size / DMA_PAGE_SIZE), busAddress⟩] })

/-! ### Arrivals -/

/-- The loop over the superpages of one link that have arrived. -/
def fillLink : Nat → Link → CruChannel → Option CruFailure × Link × CruChannel
  | 0, link, s              => (none, link, s)
  | amountLeft + 1, link, s =>
    if READY_QUEUE_CAPACITY ≤ s.mReadyQueue.length then (none, link, s)
    else
      match link.queue with
      | []                 => (some .emptyFront, link, s)
      | superpage :: queue =>
        fillLink amountLeft { link with queue, superpageCounter := wrap32 (link.superpageCounter + 1) }
          { s with
            mReadyQueue := pushBack READY_QUEUE_CAPACITY s.mReadyQueue ⟨link.id, arrived superpage⟩
            overwrites := s.overwrites + overwritten READY_QUEUE_CAPACITY s.mReadyQueue
            mLinkQueuesTotalAvailable := wrap64 (s.mLinkQueuesTotalAvailable + 1) }

/-- The loop over the links, `superpageCount` being what the firmware reports for each id. -/
def fillLinks (superpageCount : Nat → Nat) : List Link → CruChannel → Option CruFailure × List Link × CruChannel
  | [], s            => (none, [], s)
  | link :: links, s =>
    let amountAvailable := superpageCount link.id - link.superpageCounter
    -- nothing is available if the count is not above the driver's
    if link.queue.length < amountAvailable then (some .tooManyReported, link :: links, s)
    else
      match fillLink amountAvailable link s with
      | (some e, link, s) => (some e, link :: links, s)
      | (none, link, s)   =>
        let rest := fillLinks superpageCount links s
        (rest.1, link :: rest.2.1, rest.2.2)

def fillSuperpages (s : CruChannel) (superpageCount : Nat → Nat) : Option CruFailure × CruChannel :=
  let result := fillLinks superpageCount s.mLinks s
  (result.1, { result.2.2 with mLinks := result.2.1 })

def popSuperpage (s : CruChannel) : Except CruFailure (Arrival × CruChannel) :=
  match s.mReadyQueue with
  | []               => .error .readyQueueEmpty
  | arrival :: queue => .ok (arrival, { s with mReadyQueue := queue })

end CruChannel
end Cru
end Rorc
end Flp
