import FlpPrototype.Lib.Run
import FlpPrototype.Rorc.CrorcRuns
/-!
# CrorcTrace — the C-RORC's channel with a record of its pages

The channel does not know which page a completion in its Ready FIFO is of: the card writes at the index it was given
with the page.  `Traced` is the channel with a record of the pages the card was given, of those it has completed, of
whose completion stands in each entry, and of what the channel took each arrival for.  The record decides nothing
(`fillSuperpages_channel`, `pushSuperpage_channel`, `popSuperpage_channel`).
-/
namespace Flp
namespace Rorc

/-- A page the card was given: page `number` of the superpage that was accepted as the `serial`-th, for an index. -/
structure GivenPage where
  serial : Nat
  number : Nat
  index : Nat
  address : Nat
  deriving DecidableEq

/-- An arrival that was taken: the superpage and offset it was credited to, and the page whose completion was read. -/
structure Taken where
  serial : Nat
  offset : Nat
  completion : Option GivenPage
  deriving DecidableEq

/-- A superpage that was popped. -/
structure Popped where
  serial : Nat
  superpage : Superpage
  deriving DecidableEq

structure Traced where
  channel : Channel
  /-- Which superpage has an id. -/
  owner : Nat → Nat
  accepted : List Superpage
  given : List GivenPage
  /-- The pages the card is not done with. -/
  card : List GivenPage
  /-- The pages the card has completed. -/
  done : List GivenPage
  /-- Whose completion stands in an entry of the Ready FIFO. -/
  stands : Nat → Option GivenPage
  taken : List Taken
  popped : List Popped

namespace Traced

variable (cfg : Config)

def onChannel (t : Traced) (r : Except Failure Channel) : Except Failure Traced :=
  match r with
  | .ok channel => .ok { t with channel }
  | .error e    => .error e

/-! ## The card -/

def cardWrite (t : Traced) (w : CardWrite) : Traced :=
  match t.card with
  | []         => { t with channel := t.channel.cardWrite w }
  | page :: card =>
    match w with
    | .part _    => { t with
        channel := t.channel.cardWrite w
        stands := Function.update t.stands page.index none }
    | .whole _ _ => { t with
        channel := t.channel.cardWrite w
        stands := Function.update t.stands page.index (some page)
        card
        done := if w.isWhole then t.done ++ [page] else t.done }

def cardWrites (t : Traced) (ws : List CardWrite) : Traced := ws.foldl cardWrite t

/-! ## Pushing -/

/-- The page that is pushed next into the superpage of an id. -/
def nextPage (t : Traced) (id : Nat) : GivenPage :=
  let entry := t.channel.mSuperpageQueue.mRegistry id
  ⟨t.owner id, entry.pushedPages.toNat, t.channel.getFifoFront, Channel.getNextSuperpageBusAddress cfg entry⟩

def pushIntoSuperpage (t : Traced) (id : Nat) : Except Failure Traced :=
  match t.channel.pushIntoSuperpage cfg id with
  | .error e    => .error e
  | .ok channel =>
    .ok { t with channel, given := t.given ++ [t.nextPage cfg id], card := t.card ++ [t.nextPage cfg id] }

def pushPages (id : Nat) : Nat → Traced → Except Failure Traced
  | 0, t     => .ok t
  | n + 1, t =>
    match pushIntoSuperpage cfg t id with
    | .ok t    => pushPages id n t
    | .error e => .error e

/-- An entry of the Ready FIFO is reset. -/
def resetEntry (t : Traced) (i : Nat) : Traced :=
  { t with
    channel := { t.channel with readyFifo := Function.update t.channel.readyFifo i .reset }
    stands := Function.update t.stands i none }

def pushInitialPages (id : Nat) : Nat → Nat → Traced → Except Failure Traced
  | _, 0, t     => .ok t
  | i, n + 1, t =>
    match pushIntoSuperpage cfg (t.resetEntry i) id with
    | .ok t    => pushInitialPages id (i + 1) n t
    | .error e => .error e

/-- The end of `startPendingDma`: the Ready FIFO is reset and the ring is empty. -/
def resetFifo (t : Traced) : Traced :=
  { t with
    channel := { t.channel with
      readyFifo := fun _ => .reset, mFifoBack := 0, mFifoSize := 0, mPendingDmaStart := false }
    stands := fun _ => none }

/-- The part of `startPendingDma` from the wait for the initial pages on. -/
def creditInitialPages (t : Traced) (id : Nat) (writes : List CardWrite) : Except Failure Traced :=
  let t := t.cardWrites writes
  match t.channel.dataArrived (READYFIFO_ENTRIES - 1) with
  | .error e => .error e
  | .ok _    =>
    match t.onChannel (t.channel.receive id (t.channel.mSuperpageQueue.mRegistry id)
        (READYFIFO_ENTRIES * cfg.pageSize)) with
    | .error e => .error e
    | .ok t    => .ok t.resetFifo

def startPendingDma (t : Traced) (id : Nat) (atStart : CardStart) : Except Failure Traced :=
  match Channel.command atStart.ready with
  | .error e => .error e
  | .ok _    =>
    -- the reset of the card empties its FIFO
    match pushInitialPages cfg id 0 READYFIFO_ENTRIES { t with
      channel := { t.channel with freeFifo := [] }, card := [] } with
    | .error e => .error e
    | .ok t    =>
      if (t.channel.mSuperpageQueue.mRegistry id).maxPages < (t.channel.mSuperpageQueue.mRegistry id).pushedPages then
        .error .assertion
      else
        match t.onChannel (t.channel.removePushed id) with
        | .error e => .error e
        | .ok t    =>
          match Channel.startGenerator cfg atStart with
          | .error e => .error e
          | .ok _    => creditInitialPages cfg t id atStart.writes

def fillPushing (t : Traced) (atStart : CardStart) : Except Failure Traced :=
  match t.channel.mSuperpageQueue.mPushing with
  | []      => .ok t
  | id :: _ =>
    match t.channel.mSuperpageQueue.getEntry id with
    | .error e  => .error (.queue e)
    | .ok entry =>
      if t.channel.mPendingDmaStart then startPendingDma cfg t id atStart
      else
        let freeDescriptors : Int := (READYFIFO_ENTRIES : Int) - t.channel.mFifoSize
        let possibleToPush := min freeDescriptors entry.getUnpushedPages
        match pushPages cfg id possibleToPush.toNat t with
        | .error e => .error e
        | .ok t    => t.onChannel (t.channel.removePushed id)

/-! ## Arrivals -/

def takeArrival (t : Traced) (id : Nat) (entry : Entry) : Except Failure Traced :=
  match t.channel.takeArrival cfg id entry with
  | .error e    => .error e
  | .ok channel =>
    .ok { t with
      channel
      taken := t.taken ++ [⟨t.owner id, entry.superpage.received, t.stands t.channel.mFifoBack⟩]
      stands := Function.update t.stands t.channel.mFifoBack none }

def fillArrivals : Nat → List (List CardWrite) → Traced → Except Failure Traced
  | 0, _, t             => .ok t
  | turns + 1, during, t =>
    if t.channel.mFifoSize = 0 then .ok t
    else
      let t := t.cardWrites (during.headD [])
      match t.channel.mSuperpageQueue.mArrivals with
      | []      => .error .emptyFront
      | id :: _ =>
        match t.channel.mSuperpageQueue.getEntry id with
        | .error e  => .error (.queue e)
        | .ok entry =>
          match t.channel.dataArrived t.channel.mFifoBack with
          | .error e         => .error e
          | .ok .noneArrived => .ok t
          | .ok .partArrived => .ok t
          | .ok .wholeArrived =>
            match takeArrival cfg t id entry with
            | .error e => .error e
            | .ok t    => fillArrivals turns during.tail t

def fillSuperpages (t : Traced) (atStart : CardStart) (during : List (List CardWrite)) : Except Failure Traced :=
  match fillPushing cfg t atStart with
  | .error e => .error e
  | .ok t    =>
    if t.channel.mSuperpageQueue.mArrivals = [] then .ok t else fillArrivals cfg t.channel.mFifoSize during t

/-! ## Superpages in and out -/

def pushSuperpage (t : Traced) (superpage : Superpage) : Except Failure Traced :=
  match t.channel.pushSuperpage cfg superpage with
  | .error e    => .error e
  | .ok channel =>
    .ok { t with
      channel
      owner := Function.update t.owner t.channel.mSuperpageQueue.mNextId t.accepted.length
      accepted := t.accepted ++ [superpage] }

def popSuperpage (t : Traced) : Except Failure Traced :=
  match t.channel.popSuperpage with
  | .error e                => .error e
  | .ok (superpage, channel) =>
    .ok { t with
      channel
      popped := t.popped ++ [⟨t.owner (t.channel.mSuperpageQueue.mFilled.headD 0), superpage⟩] }

/-- After `deviceStartDma`, with nothing on record. -/
def start (s : Channel) : Traced where
  channel := { s.deviceStartDma with credits := [] }
  owner _ := 0
  accepted := []
  given := []
  card := []
  done := []
  stands _ := none
  taken := []
  popped := []

/-- A call.  A superpage that is refused, or asked for when none is ready, leaves the channel as it was; the run ends at
any other exception. -/
def step (t : Traced) : Action → Option Traced
  | .push superpage =>
    match pushSuperpage cfg t superpage with
    | .ok t                    => some t
    | .error (.rejected _)     => some t
    | .error (.queue .full)    => some t
    | .error _                 => none
  | .fill atStart during =>
    match fillSuperpages cfg t atStart during with
    | .ok t    => some t
    | .error _ => none
  | .pop =>
    match popSuperpage t with
    | .ok t                        => some t
    | .error (.queue .filledEmpty) => some t
    | .error _                     => none
  | .card writes => some (t.cardWrites writes)

/-! ## The record decides nothing -/

variable {cfg} {t : Traced}

/-- The channel of a result. -/
def channelOf (r : Except Failure Traced) : Except Failure Channel :=
  match r with
  | .ok t    => .ok t.channel
  | .error e => .error e

theorem onChannel_channel (r : Except Failure Channel) : channelOf (t.onChannel r) = r := by
  cases r with
  | ok channel => rfl
  | error e => rfl

@[simp] theorem cardWrite_channel (w : CardWrite) : (t.cardWrite w).channel = t.channel.cardWrite w := by
  unfold cardWrite
  split
  · rfl
  · cases w with
    | part l => rfl
    | whole l st => rfl

@[simp] theorem cardWrites_channel : ∀ (ws : List CardWrite) (t : Traced),
    (t.cardWrites ws).channel = t.channel.cardWrites ws
  | [], _ => rfl
  | w :: ws, t => by
    have ih := cardWrites_channel ws (t.cardWrite w)
    rw [cardWrite_channel] at ih
    exact ih

theorem pushIntoSuperpage_channel (id : Nat) :
    channelOf (t.pushIntoSuperpage cfg id) = t.channel.pushIntoSuperpage cfg id := by
  unfold pushIntoSuperpage
  cases t.channel.pushIntoSuperpage cfg id with
  | ok channel => rfl
  | error e => rfl

theorem pushPages_channel (id : Nat) : ∀ (n : Nat) (t : Traced),
    channelOf (pushPages cfg id n t) = Channel.pushPages cfg id n t.channel
  | 0, _ => rfl
  | n + 1, t => by
    rw [pushPages, Channel.pushPages, ← pushIntoSuperpage_channel]
    cases t.pushIntoSuperpage cfg id with
    | ok t' => exact pushPages_channel id n t'
    | error e => rfl

theorem pushInitialPages_channel (id : Nat) : ∀ (i n : Nat) (t : Traced),
    channelOf (pushInitialPages cfg id i n t) = Channel.pushInitialPages cfg id i n t.channel
  | _, 0, _ => rfl
  | i, n + 1, t => by
    have hone : channelOf (pushIntoSuperpage cfg (t.resetEntry i) id) = Channel.pushIntoSuperpage cfg
        { t.channel with readyFifo := Function.update t.channel.readyFifo i .reset } id := pushIntoSuperpage_channel id
    rw [pushInitialPages, Channel.pushInitialPages, ← hone]
    cases pushIntoSuperpage cfg (t.resetEntry i) id with
    | ok t' => exact pushInitialPages_channel id (i + 1) n t'
    | error e => rfl

theorem creditInitialPages_channel (id : Nat) (writes : List CardWrite) :
    channelOf (t.creditInitialPages cfg id writes) =
      ((t.channel.cardWrites writes).dataArrived (READYFIFO_ENTRIES - 1) >>=
      fun _ => (t.channel.cardWrites writes).receive id ((t.channel.cardWrites writes).mSuperpageQueue.mRegistry id)
        (READYFIFO_ENTRIES * cfg.pageSize) >>= fun s => .ok { s with
          readyFifo := fun _ => .reset, mFifoBack := 0, mFifoSize := 0, mPendingDmaStart := false }) := by
  simp only [creditInitialPages, cardWrites_channel, bind, Except.bind]
  cases (t.channel.cardWrites writes).dataArrived (READYFIFO_ENTRIES - 1) with
  | error e => rfl
  | ok status =>
    simp only
    cases (t.channel.cardWrites writes).receive id ((t.channel.cardWrites writes).mSuperpageQueue.mRegistry id)
        (READYFIFO_ENTRIES * cfg.pageSize) with
    | error e => rfl
    | ok channel' => rfl

theorem startPendingDma_channel (id : Nat) (atStart : CardStart) :
    channelOf (t.startPendingDma cfg id atStart) = t.channel.startPendingDma cfg id atStart := by
  have hinitial : channelOf (pushInitialPages cfg id 0 READYFIFO_ENTRIES
      { t with channel := { t.channel with freeFifo := [] }, card := [] }) =
      Channel.pushInitialPages cfg id 0 READYFIFO_ENTRIES { t.channel with freeFifo := [] } :=
    pushInitialPages_channel id 0 _ _
  rw [startPendingDma, Channel.startPendingDma, ← hinitial]
  cases Channel.command atStart.ready with
  | error e => rfl
  | ok _ =>
  cases pushInitialPages cfg id 0 READYFIFO_ENTRIES { t with
    channel := { t.channel with freeFifo := [] }, card := [] } with
  | error e => rfl
  | ok t₁ =>
    simp only [channelOf, bind, Except.bind]
    by_cases hmax : (t₁.channel.mSuperpageQueue.mRegistry id).maxPages <
        (t₁.channel.mSuperpageQueue.mRegistry id).pushedPages
    · rw [if_pos hmax, if_pos hmax]
    rw [if_neg hmax, if_neg hmax]
    cases t₁.channel.removePushed id with
    | error e => rfl
    | ok channel =>
      simp only [onChannel]
      cases Channel.startGenerator cfg atStart with
      | error e => rfl
      | ok _ => exact creditInitialPages_channel id atStart.writes

theorem fillPushing_channel (atStart : CardStart) :
    channelOf (t.fillPushing cfg atStart) = t.channel.fillPushing cfg atStart := by
  rw [fillPushing, Channel.fillPushing]
  cases t.channel.mSuperpageQueue.mPushing with
  | nil => rfl
  | cons id ids =>
    simp only
    cases t.channel.mSuperpageQueue.getEntry id with
    | error e => rfl
    | ok entry =>
      simp only
      by_cases hpending : t.channel.mPendingDmaStart = true
      · rw [if_pos hpending, if_pos hpending]
        exact startPendingDma_channel id atStart
      · rw [if_neg hpending, if_neg hpending, ← pushPages_channel]
        cases pushPages cfg id (min ((READYFIFO_ENTRIES : Int) - t.channel.mFifoSize) entry.getUnpushedPages).toNat
          t with
        | error e => rfl
        | ok t₁ => exact onChannel_channel _

theorem takeArrival_channel (id : Nat) (entry : Entry) :
    channelOf (t.takeArrival cfg id entry) = t.channel.takeArrival cfg id entry := by
  unfold takeArrival
  cases t.channel.takeArrival cfg id entry with
  | ok channel => rfl
  | error e => rfl

theorem fillArrivals_channel : ∀ (turns : Nat) (during : List (List CardWrite)) (t : Traced),
    channelOf (fillArrivals cfg turns during t) = Channel.fillArrivals cfg turns during t.channel
  | 0, _, _ => rfl
  | turns + 1, during, t => by
    rw [fillArrivals, Channel.fillArrivals]
    by_cases hzero : t.channel.mFifoSize = 0
    · rw [if_pos hzero, if_pos hzero]
      rfl
    rw [if_neg hzero, if_neg hzero]
    simp only [← cardWrites_channel]
    generalize t.cardWrites (during.headD []) = t₁
    cases t₁.channel.mSuperpageQueue.mArrivals with
    | nil => rfl
    | cons id ids =>
      simp only
      cases t₁.channel.mSuperpageQueue.getEntry id with
      | error e => rfl
      | ok entry =>
        simp only
        cases t₁.channel.dataArrived t₁.channel.mFifoBack with
        | error e => rfl
        | ok status =>
          cases status with
          | noneArrived => rfl
          | partArrived => rfl
          | wholeArrived =>
            simp only [← takeArrival_channel]
            cases takeArrival cfg t₁ id entry with
            | error e => rfl
            | ok t₂ => exact fillArrivals_channel turns during.tail t₂

/-- **Filling** is the channel's. -/
theorem fillSuperpages_channel (atStart : CardStart) (during : List (List CardWrite)) :
    channelOf (t.fillSuperpages cfg atStart during) = t.channel.fillSuperpages cfg atStart during := by
  rw [fillSuperpages, Channel.fillSuperpages, ← fillPushing_channel]
  cases t.fillPushing cfg atStart with
  | error e => rfl
  | ok t₁ =>
    simp only [channelOf]
    by_cases hnil : t₁.channel.mSuperpageQueue.mArrivals = []
    · rw [if_pos hnil, if_pos hnil]
    · rw [if_neg hnil, if_neg hnil]
      exact fillArrivals_channel _ during t₁

/-- **Pushing a superpage** is the channel's. -/
theorem pushSuperpage_channel (superpage : Superpage) :
    channelOf (t.pushSuperpage cfg superpage) = t.channel.pushSuperpage cfg superpage := by
  unfold pushSuperpage
  cases t.channel.pushSuperpage cfg superpage with
  | ok channel => rfl
  | error e => rfl

/-- **Popping a superpage** is the channel's, and what is popped is recorded. -/
theorem popSuperpage_channel : t.popSuperpage.map (fun t' => (t'.popped.map Popped.superpage, t'.channel)) =
    t.channel.popSuperpage.map fun r => (t.popped.map Popped.superpage ++ [r.1], r.2) := by
  unfold popSuperpage
  cases t.channel.popSuperpage with
  | error e => rfl
  | ok r =>
    simp only [Except.map, List.map_append, List.map_cons, List.map_nil]

end Traced
end Rorc
end Flp
