import FlpPrototype.Lib.CInt
import FlpPrototype.Lib.Places
import FlpPrototype.Lib.Run
import Mathlib.Data.List.Nodup
/-!
# DmaBench — the two threads of `ProgramDmaBench::dmaLoop`

The push thread gives free superpages to the driver and publishes ready ones in `readoutQueue`; the readout thread reads
them out, page by page, and puts them back into `freeQueue`.  A step is one call of a queue or of the driver, or the
readout of a page; the steps of the threads and of the driver come in any order, and a thread may stop at the head of
its loop at any time.

A queue of size `n` holds `n - 1` offsets.  The driver keeps what it accepted and makes it ready once.
-/
namespace Flp
namespace DmaBench

/-- `Utilities::isMultiple`; a remainder by 0 has no result. -/
def isMultiple (x y : Nat) : Bool := y ≠ 0 && x ≥ y && x % y = 0

/-- The size of the huge pages asked for. -/
def hugePageSize (bufferSize : Nat) : Nat := if isMultiple bufferSize (2 ^ 30) then 2 ^ 30 else 2 ^ 21

/-- What `run` checks before it starts. -/
def Admitted (bufferSize superpageSize pageSize : Nat) (iommu : Bool) : Prop :=
  isMultiple bufferSize (2 ^ 21) ∧ (iommu ∨ isMultiple (hugePageSize bufferSize) superpageSize) ∧
    superpageSize ≤ bufferSize ∧ isMultiple superpageSize pageSize

def maxSuperpages (bufferSize superpageSize : Nat) : Nat := bufferSize / superpageSize

/-- `static_cast<uint32_t>(mMaxSuperpages) + 1` -/
def queueSize (maxSuperpages : Nat) : Nat := (maxSuperpages % 2 ^ 32 + 1) % 2 ^ 32

/-- `ProducerConsumerQueue::write`: refused when all usable slots are taken. -/
def write (size : Nat) (q : List Nat) (offset : Nat) : Option (List Nat) :=
  if q.length < size - 1 then some (q ++ [offset]) else none

/-- A superpage in the driver's ready queue, the front one possibly still filling. -/
structure Superpage where
  offset : Nat
  size : Nat
  ready : Bool
deriving DecidableEq

/-- Where the push thread is. -/
inductive PushPc where
  | loop
  | fillSuperpages
  | transferAvailable
  | readFree
  | pushSuperpage (offset : Nat)
  | readySize
  | getSuperpage
  | writeReadout (sp : Superpage)
  | popSuperpage
  | stopped
deriving DecidableEq

/-- Where the readout thread is. -/
inductive ReadoutPc where
  | loop
  | readReadout
  | readoutPage (offset : Nat) (i : Int)
  | writeFree (offset : Nat)
  | stopped
deriving DecidableEq

structure Bench where
  freeQueue : List Nat
  readoutQueue : List Nat
  transfer : List Superpage
  ready : List Superpage
  push : PushPc
  readout : ReadoutPc
  failedWrites : Nat

/-- The sizes `dmaLoop` works with. -/
structure Sizes where
  queueSize : Nat
  superpageSize : Nat
  pageSize : Nat

/-- The first loop of `dmaLoop`: every offset into the free queue; an exception when that has no room. -/
def fill (size superpageSize maxSuperpages : Nat) : Option (List Nat) :=
  (List.range maxSuperpages).foldlM (fun q i => write size q (i * superpageSize)) []

/-- `dmaLoop` up to the start of its threads.  A queue has at least two slots. -/
def dmaLoop (bufferSize superpageSize : Nat) : Option Bench := do
  let n := maxSuperpages bufferSize superpageSize
  guard (1 ≤ n)
  guard (2 ≤ queueSize n)
  let free ← fill (queueSize n) superpageSize n
  return ⟨free, [], [], [], .loop, .loop, 0⟩

/-- What the surroundings answer: whether the thread stops, and what the driver's transfer queue has room for. -/
structure Env where
  stop : Bool
  transferQueueAvailable : Nat
deriving DecidableEq

def stepPush (S : Sizes) (s : Bench) (env : Env) : Option Bench :=
  match s.push with
  | .stopped => none
  | .loop => some { s with push := if env.stop then .stopped else .fillSuperpages }
  | .fillSuperpages => some { s with push := .transferAvailable }
  | .transferAvailable =>
    some { s with push := if env.transferQueueAvailable ≠ 0 then .readFree else .readySize }
  | .readFree =>
    match s.freeQueue with
    | []             => some { s with push := .readySize }
    | offset :: rest => some { s with freeQueue := rest, push := .pushSuperpage offset }
  | .pushSuperpage offset =>
    some { s with transfer := s.transfer ++ [⟨offset, S.superpageSize, false⟩], push := .transferAvailable }
  | .readySize => some { s with push := if s.ready.length ≠ 0 then .getSuperpage else .loop }
  | .getSuperpage => s.ready.head?.map fun sp => { s with push := .writeReadout sp }
  | .writeReadout sp =>
    if sp.ready then
      match write S.queueSize s.readoutQueue sp.offset with
      | some q => some { s with readoutQueue := q, push := .popSuperpage }
      | none   => some { s with failedWrites := s.failedWrites + 1, push := .loop }
    else some { s with push := .loop }
  | .popSuperpage => some { s with ready := s.ready.tail, push := .readySize }

/-- `int pages = mSuperpageSize / mPageSize` -/
def Sizes.pages (S : Sizes) : Int := toSigned 32 (S.superpageSize / S.pageSize)

def stepReadout (S : Sizes) (s : Bench) (env : Env) : Option Bench :=
  match s.readout with
  | .stopped => none
  | .loop => some { s with readout := if env.stop then .stopped else .readReadout }
  | .readReadout =>
    match s.readoutQueue with
    | []             => some { s with readout := .loop }
    | offset :: rest => some { s with readoutQueue := rest, readout := .readoutPage offset 0 }
  | .readoutPage offset i =>
    some { s with readout := if i < S.pages then .readoutPage offset (i + 1) else .writeFree offset }
  | .writeFree offset =>
    match write S.queueSize s.freeQueue offset with
    | some q => some { s with freeQueue := q, readout := .loop }
    | none   => some { s with failedWrites := s.failedWrites + 1, readout := .stopped }

inductive Action where
  | push (env : Env)
  | readout (env : Env)
  | drive (k : Nat) (ready : Bool)
  | complete (k : Nat)
deriving DecidableEq

/-- A step of a thread or of the driver, which moves a superpage to its ready queue or marks one there as ready. -/
def step (S : Sizes) (s : Bench) : Action → Option Bench
  | .push env      => stepPush S s env
  | .readout env   => stepReadout S s env
  | .drive k ready => s.transfer[k]?.map fun sp =>
      { s with transfer := s.transfer.eraseIdx k, ready := s.ready ++ [{ sp with ready := ready }] }
  | .complete k    => s.ready[k]?.map fun sp => { s with ready := s.ready.set k { sp with ready := true } }

def Proper (s : Bench) : Action → Prop
  | .push _     => s.push ≠ .stopped
  | .readout _  => s.readout ≠ .stopped
  | .drive k _  => k < s.transfer.length
  | .complete k => k < s.ready.length

instance (s : Bench) : (a : Action) → Decidable (Proper s a)
  | .push _     => inferInstanceAs (Decidable (_ ≠ _))
  | .readout _  => inferInstanceAs (Decidable (_ ≠ _))
  | .drive _ _  => inferInstanceAs (Decidable (_ < _))
  | .complete _ => inferInstanceAs (Decidable (_ < _))

/-! ## Where the superpages are -/

/-- The offset the push thread has read from the free queue. -/
def PushPc.offsets : PushPc → List Nat
  | .pushSuperpage offset => [offset]
  | _                     => []

/-- The offset the readout thread is at. -/
def ReadoutPc.offsets : ReadoutPc → List Nat
  | .readoutPage offset _ | .writeFree offset => [offset]
  | _                                         => []

/-- What the driver has, less the superpage that was published and is about to be popped. -/
def Bench.driver (s : Bench) : List Superpage :=
  s.transfer ++ if s.push = .popSuperpage then s.ready.tail else s.ready

/-- Every offset, once for each place it is in. -/
def Bench.places (s : Bench) : List Nat :=
  s.freeQueue ++ s.driver.map Superpage.offset ++ s.readoutQueue ++ s.push.offsets ++ s.readout.offsets

theorem count_places (s : Bench) (o : Nat) : s.places.count o = s.freeQueue.count o +
    countBy Superpage.offset o s.transfer +
    countBy Superpage.offset o (if s.push = .popSuperpage then s.ready.tail else s.ready) + s.readoutQueue.count o +
    s.push.offsets.count o + s.readout.offsets.count o := by
  simp only [Bench.places, Bench.driver, List.map_append, List.count_append, countBy]
  omega

end DmaBench
end Flp
