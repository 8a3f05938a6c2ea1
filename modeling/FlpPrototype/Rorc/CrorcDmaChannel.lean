import FlpPrototype.Lib.CInt
import FlpPrototype.Rorc.SuperpageQueue
/-!
# CrorcDmaChannel — the C-RORC's DMA channel and its card

The channel gives the card free pages, each with the index of the Ready FIFO entry to be written when the page has been
transferred, and takes what arrived in that order (`CrorcDmaChannel.cxx`).  The card is what the channel sees of it: it
works on the pages it was given in order, writes any status word for each, and may write a completion in two parts; a
command to it may fail.
-/
namespace Flp
namespace Rorc

/-! ## The buffer -/

/-- An address or a size, after an addition. -/
def wrap64 (n : Nat) : Nat := n % 2 ^ 64

structure ScatterGatherEntry where
  size : Nat
  addressUser : Nat
  addressBus : Nat
  deriving DecidableEq, Repr

inductive LoopbackMode where
  | none | diu | siu | internal
  deriving DecidableEq, Repr

/-- The parameters of the data generator; by default it is used, on pages that it fills. -/
structure GeneratorParameters where
  generatorEnabled : Bool := true
  generatorLoopback : LoopbackMode := .internal
  generatorDataSize : Option Nat := none
  deriving DecidableEq, Repr

/-- What the channel is made for: the page size, the registered buffer, and the generator. -/
structure Config where
  pageSize : Nat
  bufferSize : Nat
  scatterGatherList : List ScatterGatherEntry
  generator : GeneratorParameters

def Config.mGeneratorDataSize (cfg : Config) : Nat := cfg.generator.generatorDataSize.getD cfg.pageSize

def getBusOffsetAddress (list : List ScatterGatherEntry) (offset : Nat) : Option Nat :=
  match list with
  | []         => none
  | first :: _ =>
    let userWithOffset := wrap64 (first.addressUser + offset)
    (list.find? (fun e =>
        decide (e.addressUser ≤ userWithOffset ∧ userWithOffset < wrap64 (e.addressUser + e.size)))).map
      (fun e => wrap64 (e.addressBus + (userWithOffset - e.addressUser)))

/-! ## The card -/

/-- An entry of the Ready FIFO. -/
structure ReadyEntry where
  length : Int32
  status : Int32
  deriving DecidableEq

def ReadyEntry.reset : ReadyEntry := ⟨-1, -1⟩

def DTSW : Int32 := 0x82
def errorBit : Int32 := (1 : Int32) <<< (31 : Int32)

/-- A status word for a page that has been transferred without an error. -/
structure WholeStatus where
  word : Int32
  dtsw : word &&& 0xff = DTSW
  noError : word &&& errorBit = 0

/-- A page given to the card: the address, and which page of which superpage it is. -/
structure Page where
  id : Nat
  offset : Nat
  address : Nat
  deriving DecidableEq, Repr

/-- What the card writes for its oldest page: that a part has arrived, or, when it is done with the page, any status
word. -/
inductive CardWrite where
  | part (length : Int32)
  | whole (length : Int32) (status : Int32)

/-- The page has been transferred without an error. -/
def CardWrite.isWhole : CardWrite → Bool
  | .part _         => false
  | .whole _ status => decide (status &&& 0xff = DTSW ∧ status &&& errorBit = 0)

/-- An arrival, in part or whole. -/
def CardWrite.isArrival : CardWrite → Bool
  | .part _              => true
  | .whole length status => (CardWrite.whole length status).isWhole

/-- What the card does during a start: whether it carries out the commands that reset it and make it ready to receive,
the trigger, and the loopback through the SIU; and what it writes during the wait for the initial pages. -/
structure CardStart where
  ready : Bool
  trigger : Bool
  siuLoopback : Bool
  writes : List CardWrite

/-- An arrival the channel took: the entry's index, the page that had been pushed for it, and the superpage and offset
it was credited to. -/
structure Credit where
  index : Nat
  pushed : Page
  id : Nat
  offset : Nat
  busAddress : Nat
  eventSize : Int32

/-! ## The channel -/

def READYFIFO_ENTRIES : Nat := 128
def MAX_SUPERPAGES : Nat := 32

/-- The channel's variables, the Ready FIFO, the card's free FIFO and the page last pushed for each index. -/
structure Channel where
  mFifoBack : Nat
  mFifoSize : Nat
  mSuperpageQueue : SuperpageQueue
  mPendingDmaStart : Bool
  readyFifo : Nat → ReadyEntry
  freeFifo : List Nat
  slot : Nat → Page
  credits : List Credit

/-- Why a superpage is not accepted. -/
inductive Rejection where
  | sizeZero | sizeNotMultiple | outOfRange | offsetNotAligned | notMultipleOfMiB | addressOutOfRange
  deriving DecidableEq, Repr

def Rejection.message : Rejection → String
  | .sizeZero          => "Could not enqueue superpage, size == 0"
  | .sizeNotMultiple   => "Could not enqueue superpage, size not a multiple of 32 KiB"
  | .outOfRange        => "Superpage out of range"
  | .offsetNotAligned  => "Superpage offset not 32-bit aligned"
  | .notMultipleOfMiB  => "Could not enqueue superpage, C-RORC backend requires superpage size multiple of 1 MiB"
  | .addressOutOfRange => "Physical offset address out of range"

/-- How a call fails: an exception of the queue, a rejected superpage, a command to the card, the data generator, a bad
status word, an assertion, the front of an empty queue, a division by zero. -/
inductive Failure where
  | queue (e : QueueError)
  | rejected (r : Rejection)
  | command
  | eventLength (eventLen : Int)
  | errorBits (index : Nat)
  | unrecognizedStatus (index : Nat)
  | assertion
  | emptyFront
  | divisionByZero
  deriving DecidableEq, Repr

inductive DataArrivalStatus where
  | noneArrived | partArrived | wholeArrived
  deriving DecidableEq, Repr

namespace Channel

variable (cfg : Config)

/-- An operation of the queue, within the channel. -/
def onQueue (s : Channel) (r : Except QueueError SuperpageQueue) : Except Failure Channel :=
  match r with
  | .ok q    => .ok { s with mSuperpageQueue := q }
  | .error e => .error (.queue e)

def setEntry (s : Channel) (id : Nat) (e : Entry) : Channel :=
  { s with mSuperpageQueue := s.mSuperpageQueue.setEntry id e }

def deviceStartDma (s : Channel) : Channel :=
  { s with mFifoBack := 0, mFifoSize := 0, mSuperpageQueue := s.mSuperpageQueue.clear, mPendingDmaStart := true }

def getFifoFront (s : Channel) : Nat := (s.mFifoBack + s.mFifoSize) % READYFIFO_ENTRIES

def getReadyQueueSize (s : Channel) : Nat := s.mSuperpageQueue.mFilled.length

def dataArrived (s : Channel) (index : Nat) : Except Failure DataArrivalStatus :=
  let status := (s.readyFifo index).status
  if status = -1 then .ok .noneArrived
  else if status = 0 then .ok .partArrived
  else if status &&& 0xff = DTSW then
    if status &&& errorBit ≠ 0 then .error (.errorBits index) else .ok .wholeArrived
  else .error (.unrecognizedStatus index)

/-- The card writes for its oldest page; with no page it writes nothing. -/
def cardWrite (s : Channel) (w : CardWrite) : Channel :=
  match s.freeFifo with
  | []         => s
  | index :: rest =>
    match w with
    | .part length         => { s with readyFifo := Function.update s.readyFifo index ⟨length, 0⟩ }
    | .whole length status =>
      { s with readyFifo := Function.update s.readyFifo index ⟨length, status⟩, freeFifo := rest }

def cardWrites (s : Channel) (ws : List CardWrite) : Channel := ws.foldl cardWrite s

/-! ### Pushing -/

def getNextSuperpageBusAddress (entry : Entry) : Nat :=
  wrap64 (entry.busAddress + cfg.pageSize * entry.pushedPages.toNat)

/-- `pushIntoSuperpage` for the entry of an id. -/
def pushIntoSuperpage (s : Channel) (id : Nat) : Except Failure Channel :=
  let entry := s.mSuperpageQueue.mRegistry id
  if s.mFifoSize < READYFIFO_ENTRIES ∧ entry.pushedPages < entry.maxPages then
    let page : Page := ⟨id, cfg.pageSize * entry.pushedPages.toNat, getNextSuperpageBusAddress cfg entry⟩
    .ok { s with
      freeFifo := s.freeFifo ++ [s.getFifoFront]
      slot := Function.update s.slot s.getFifoFront page
      mFifoSize := s.mFifoSize + 1
      mSuperpageQueue := s.mSuperpageQueue.setEntry id { entry with pushedPages := entry.pushedPages + 1 } }
  else .error .assertion

def pushPages (id : Nat) : Nat → Channel → Except Failure Channel
  | 0, s     => .ok s
  | n + 1, s =>
    match pushIntoSuperpage cfg s id with
    | .ok s    => pushPages id n s
    | .error e => .error e

/-- The initial pages: entry `i` of the Ready FIFO is reset, then a page is pushed. -/
def pushInitialPages (id : Nat) : Nat → Nat → Channel → Except Failure Channel
  | _, 0, s     => .ok s
  | i, n + 1, s =>
    match pushIntoSuperpage cfg { s with readyFifo := Function.update s.readyFifo i .reset } id with
    | .ok s    => pushInitialPages id (i + 1) n s
    | .error e => .error e

/-- A superpage that is completely pushed is removed from the pushing queue. -/
def removePushed (s : Channel) (id : Nat) : Except Failure Channel :=
  if (s.mSuperpageQueue.mRegistry id).isPushed then s.onQueue s.mSuperpageQueue.removeFromPushingQueue else .ok s

/-- The superpage of an entry received so many bytes more; when it is filled it is moved to the filled queue. -/
def receive (s : Channel) (id : Nat) (entry : Entry) (bytes : Nat) : Except Failure Channel :=
  let received := wrap64 (entry.superpage.received + bytes)
  let filled := decide (received = entry.superpage.size)
  let s := s.setEntry id { entry with superpage := { entry.superpage with
    received := received, ready := entry.superpage.ready || filled } }
  if filled then s.onQueue (s.mSuperpageQueue.moveFromArrivalsToFilledQueue MAX_SUPERPAGES) else .ok s

/-! ### The start -/

/-- A command, or a group of them, that the card carries out or not. -/
def command (carriedOut : Bool) : Except Failure Unit := if carriedOut then .ok () else .error .command

/-- What `armDataGenerator` checks: `dataSize` is an `int`. -/
def armDataGenerator (dataSize : Int) : Except Failure Unit :=
  let eventLen := dataSize.tdiv 4
  if eventLen < 1 ∨ 0x00080000 ≤ eventLen then .error (.eventLength eventLen) else .ok ()

def startDataGenerator (atStart : CardStart) : Except Failure Unit := do
  if cfg.generator.generatorLoopback = .none then command atStart.trigger
  armDataGenerator (toSigned 32 cfg.mGeneratorDataSize)
  if cfg.generator.generatorLoopback = .siu then command atStart.siuLoopback

/-- The commands between the initial pages and the wait for them.  Without the generator there is none: `mNoRDYRX` is
always true. -/
def startGenerator (atStart : CardStart) : Except Failure Unit :=
  if cfg.generator.generatorEnabled then startDataGenerator cfg atStart else .ok ()

/-- `startPendingDma`.  Where it throws behind the initial pages, these have been pushed and `mPendingDmaStart` is still
true: the next start would fail at its first page. -/
def startPendingDma (s : Channel) (id : Nat) (atStart : CardStart) : Except Failure Channel := do
  command atStart.ready
  let s ← pushInitialPages cfg id 0 READYFIFO_ENTRIES { s with freeFifo := [] }
  let entry := s.mSuperpageQueue.mRegistry id
  if entry.maxPages < entry.pushedPages then .error .assertion
  else
    let s ← s.removePushed id
    startGenerator cfg atStart
    let s := s.cardWrites atStart.writes
    -- a page that is missing is only logged
    let _ ← s.dataArrived (READYFIFO_ENTRIES - 1)
    let s ← s.receive id (s.mSuperpageQueue.mRegistry id) (READYFIFO_ENTRIES * cfg.pageSize)
    .ok { s with readyFifo := fun _ => .reset, mFifoBack := 0, mFifoSize := 0, mPendingDmaStart := false }

/-- The first part of `fillSuperpages`: pages are pushed into the oldest superpage that has some left. -/
def fillPushing (s : Channel) (atStart : CardStart) : Except Failure Channel :=
  match s.mSuperpageQueue.mPushing with
  | []      => .ok s
  | id :: _ =>
    match s.mSuperpageQueue.getEntry id with
    | .error e  => .error (.queue e)
    | .ok entry =>
      if s.mPendingDmaStart then startPendingDma cfg s id atStart
      else
        let freeDescriptors : Int := (READYFIFO_ENTRIES : Int) - s.mFifoSize
        let possibleToPush := min freeDescriptors entry.getUnpushedPages
        match pushPages cfg id possibleToPush.toNat s with
        | .error e => .error e
        | .ok s    => s.removePushed id

/-! ### Arrivals -/

/-- An arrival is taken: the length is written into the page, the descriptor reset, the page credited to the oldest
superpage that waits, which may be filled by it. -/
def takeArrival (s : Channel) (id : Nat) (entry : Entry) : Except Failure Channel :=
  let index := s.mFifoBack
  let s : Channel :=
    { s with
      credits := s.credits ++ [⟨index, s.slot index, id, entry.superpage.received, entry.busAddress,
        (s.readyFifo index).length * 4⟩]
      readyFifo := Function.update s.readyFifo index .reset
      mFifoSize := s.mFifoSize - 1
      mFifoBack := (s.mFifoBack + 1) % READYFIFO_ENTRIES }
  s.receive id entry cfg.pageSize

/-- The loop over the arrivals; `during` is what the card writes before each check.  Each turn takes one from
`mFifoSize`, so that many turns are enough. -/
def fillArrivals : Nat → List (List CardWrite) → Channel → Except Failure Channel
  | 0, _, s             => .ok s
  | turns + 1, during, s =>
    if s.mFifoSize = 0 then .ok s
    else
      let s := s.cardWrites (during.headD [])
      match s.mSuperpageQueue.mArrivals with
      | []      => .error .emptyFront
      | id :: _ =>
        match s.mSuperpageQueue.getEntry id with
        | .error e  => .error (.queue e)
        | .ok entry =>
          match s.dataArrived s.mFifoBack with
          | .error e         => .error e
          | .ok .noneArrived => .ok s
          | .ok .partArrived => .ok s
          | .ok .wholeArrived =>
            match takeArrival cfg s id entry with
            | .error e => .error e
            | .ok s    => fillArrivals turns during.tail s

def fillSuperpages (s : Channel) (atStart : CardStart) (during : List (List CardWrite)) : Except Failure Channel :=
  match fillPushing cfg s atStart with
  | .error e => .error e
  | .ok s    => if s.mSuperpageQueue.mArrivals = [] then .ok s else fillArrivals cfg s.mFifoSize during s

/-! ### Superpages in and out -/

/-- `isMultiple`. -/
def isMultiple (x y : Nat) : Bool := decide (y ≤ x ∧ x % y = 0)

def checkSuperpage (superpage : Superpage) : Except Failure Unit :=
  if superpage.size = 0 then .error (.rejected .sizeZero)
  else if isMultiple superpage.size (32 * 1024) = false then .error (.rejected .sizeNotMultiple)
  else if cfg.bufferSize < wrap64 (superpage.offset + superpage.size) then .error (.rejected .outOfRange)
  else if superpage.offset % 4 ≠ 0 then .error (.rejected .offsetNotAligned)
  else .ok ()

/-- `pushSuperpage`; when it throws, nothing has been changed. -/
def pushSuperpage (s : Channel) (superpage : Superpage) : Except Failure Channel := do
  checkSuperpage cfg superpage
  if isMultiple superpage.size (1 * 1024 * 1024) = false then .error (.rejected .notMultipleOfMiB)
  else
    match getBusOffsetAddress cfg.scatterGatherList superpage.offset with
    | none            => .error (.rejected .addressOutOfRange)
    | some busAddress =>
      -- an integer division by zero has no result
      if cfg.pageSize = 0 then .error .divisionByZero
      else
        let entry : Entry :=
          { superpage := { superpage with received := 0 }
            busAddress
            pushedPages := 0
            maxPages := toSigned 32 (superpage.size / cfg.pageSize) }
        s.onQueue (s.mSuperpageQueue.addToQueue MAX_SUPERPAGES entry)

def popSuperpage (s : Channel) : Except Failure (Superpage × Channel) :=
  match s.mSuperpageQueue.removeFromFilledQueue with
  | .error e       => .error (.queue e)
  | .ok (entry, q) => .ok (entry.superpage, { s with mSuperpageQueue := q })

end Channel
end Rorc
end Flp
