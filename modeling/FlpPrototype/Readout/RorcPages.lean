import FlpPrototype.Lib.CInt
import FlpPrototype.Lib.Places
import FlpPrototype.Readout.Aggregator
/-!
# RorcPages — the pages of `ReadoutEquipmentRORC`

The memory handler cuts its buffer into pages and keeps the offsets of the free ones in `pagesAvailable`.
`populateFifoOut` gives free pages to the driver and makes a container of each page that comes back; destroying the
container frees the page.  A step is one call of a FIFO or of the driver.  Between the steps consumers take containers
from the output and destroy them, and the driver completes pages.

The driver is known by its interface: it keeps the superpages it accepted and hands each one back once.  What its
calls answer, and whether an allocation fails, is given from outside (`Env`).
-/
namespace Flp
namespace RorcPages

open Readout (CallbackResult)

/-! ## The memory handler -/

def hugePageSize : Nat := 2 * 1024 * 1024

def baseAlignment : Nat := 1024 * 1024

/-- The size of the buffer behind the first aligned address: the size asked for, rounded up to huge pages, less the
bytes skipped. -/
def memorySize (vMemorySize baseAddress : Nat) : Nat :=
  let r := vMemorySize % hugePageSize
  let size := if r ≠ 0 then vMemorySize + (hugePageSize - r) else vMemorySize
  let r := baseAddress % baseAlignment
  if r ≠ 0 then size - (baseAlignment - r) else size

/-- `i * pageSize` on `int`s -/
def pageOffset (pageSize i : Nat) : Option Nat := if i * pageSize ≤ intMax then some (i * pageSize) else none

/-- `int nPages = memorySize / pageSize` -/
def numberOfPages (memorySize pageSize : Nat) : Int := toSigned 32 (memorySize / pageSize)

/-- `ReadoutMemoryHandler`: the offsets it puts into `pagesAvailable`.  No result when an index, an offset or the size
of the FIFO overflows. -/
def memoryHandler (vMemorySize pageSize baseAddress : Nat) : Option (List Nat) := do
  let nPages := (numberOfPages (memorySize vMemorySize baseAddress) pageSize).toNat
  let _ ← intAdd nPages 1
  (List.range nPages).mapM (pageOffset pageSize)

/-! ## The equipment -/

structure Superpage where
  offset : Nat
  size : Nat
  received : Nat
deriving DecidableEq

def Superpage.isFilled (sp : Superpage) : Bool := sp.received = sp.size

/-- What the surroundings answer to a call. -/
structure Env where
  transferQueueAvailable : Nat
  pushThrows : Bool
  allocated : Bool
deriving DecidableEq

/-- Where `populateFifoOut` is: the call it makes next. -/
inductive Pc where
  | idle
  | fillSuperpages
  | transferAvailable (isActive : Bool)
  | popPage (isActive : Bool)
  | pushSuperpage (isActive : Bool) (sp : Superpage)
  | outFull (isActive : Bool)
  | readySize (isActive : Bool)
  | getSuperpage (isActive : Bool)
  | construct (isActive : Bool) (sp : Superpage)
  | popSuperpage (d : Superpage)
  | pushOut (d : Superpage)
deriving DecidableEq

structure Equipment where
  pagesAvailable : List Nat
  transfer : List Superpage
  ready : List Superpage
  dataOut : List Superpage
  held : List Superpage
  result : CallbackResult
  pc : Pc
  lost : List Nat

/-- A handler's FIFO and output, and the size of a page. -/
structure Sizes where
  nPages : Nat
  pageSize : Nat
  outFifoSize : Nat

def Equipment.start (offsets : List Nat) : Equipment := ⟨offsets, [], [], [], [], .Idle, .idle, []⟩

/-- `~DataBlockContainerFromRORC`: a page that finds no room in the FIFO is lost. -/
def Equipment.release (S : Sizes) (s : Equipment) (d : Superpage) : Equipment :=
  if s.pagesAvailable.length < S.nPages then { s with pagesAvailable := s.pagesAvailable ++ [d.offset] }
  else { s with lost := s.lost ++ [d.offset] }

def Equipment.goto (s : Equipment) (p : Pc) : Equipment := { s with pc := p }

/-- The next call of `populateFifoOut`.  A page popped from `pagesAvailable` is a local variable until `pushSuperpage`
returns: when that throws, it is gone. -/
def stepPopulate (S : Sizes) (s : Equipment) (env : Env) : Option Equipment :=
  match s.pc with
  | .idle => none
  | .fillSuperpages => some (s.goto (.transferAvailable false))
  | .transferAvailable isActive =>
    if env.transferQueueAvailable ≠ 0 then some (s.goto (.popPage isActive)) else some (s.goto (.outFull isActive))
  | .popPage isActive =>
    match s.pagesAvailable with
    | []             => some (s.goto (.outFull isActive))
    | offset :: rest =>
      some { s with pagesAvailable := rest, pc := .pushSuperpage isActive ⟨offset, S.pageSize, 0⟩ }
  | .pushSuperpage _ sp =>
    if env.pushThrows then some { s with lost := s.lost ++ [sp.offset], pc := .idle }
    else some { s with transfer := s.transfer ++ [sp], pc := .transferAvailable true }
  | .outFull isActive =>
    if s.dataOut.length < S.outFifoSize then some (s.goto (.readySize isActive))
    else some { s with pc := .idle, result := if isActive then .Ok else .Idle }
  | .readySize isActive =>
    if s.ready.length > 0 then some (s.goto (.getSuperpage isActive))
    else some { s with pc := .idle, result := if isActive then .Ok else .Idle }
  | .getSuperpage isActive => s.ready.head?.map fun sp =>
      if sp.isFilled then s.goto (.construct isActive sp)
      else { s with pc := .idle, result := if isActive then .Ok else .Idle }
  | .construct isActive sp =>
    if env.allocated then some (s.goto (.popSuperpage sp))
    else some { s with pc := .idle, result := if isActive then .Ok else .Idle }
  | .popSuperpage d => some { s with ready := s.ready.tail, pc := .pushOut d }
  | .pushOut d =>
    if s.dataOut.length < S.outFifoSize then some { s with dataOut := s.dataOut ++ [d], pc := .outFull true }
    else some ((s.goto (.outFull true)).release S d)

inductive Action where
  | populateFifoOut
  | step (env : Env)
  | drive (k received : Nat)
  | consume
  | destroy (k : Nat)
deriving DecidableEq

/-- One step of `populateFifoOut`, the driver or a consumer. -/
def step (S : Sizes) (s : Equipment) : Action → Option Equipment
  | .populateFifoOut  => some (s.goto .fillSuperpages)
  | .step env         => stepPopulate S s env
  | .drive k received => s.transfer[k]?.map fun sp =>
      { s with transfer := s.transfer.eraseIdx k, ready := s.ready ++ [{ sp with received := received }] }
  | .consume          =>
    match s.dataOut with
    | []        => some s
    | d :: rest => some { s with dataOut := rest, held := s.held ++ [d] }
  | .destroy k        => s.held[k]?.map fun d => { s with held := s.held.eraseIdx k }.release S d

/-- One thread runs `populateFifoOut`; the driver completes what it accepted, a consumer destroys what it holds. -/
def Proper (s : Equipment) : Action → Prop
  | .populateFifoOut => s.pc = .idle
  | .step _          => s.pc ≠ .idle
  | .drive k _       => k < s.transfer.length
  | .consume         => True
  | .destroy k       => k < s.held.length

instance (s : Equipment) : (a : Action) → Decidable (Proper s a)
  | .populateFifoOut => inferInstanceAs (Decidable (_ = _))
  | .step _          => inferInstanceAs (Decidable (_ ≠ _))
  | .drive _ _       => inferInstanceAs (Decidable (_ < _))
  | .consume         => isTrue trivial
  | .destroy _       => inferInstanceAs (Decidable (_ < _))

/-- The call throws. -/
def Throws (s : Equipment) : Action → Prop
  | .step env => env.pushThrows = true ∧ ∃ isActive sp, s.pc = .pushSuperpage isActive sp
  | _         => False

/-! ## Where the pages are -/

/-- The page `populateFifoOut` has in a local variable only. -/
def Pc.page : Pc → List Superpage
  | .pushSuperpage _ sp => [sp]
  | .pushOut d          => [d]
  | _                   => []

/-- Every page, once for each place it is in. -/
def Equipment.places (s : Equipment) : List Nat :=
  s.pagesAvailable ++ (s.transfer ++ s.ready ++ s.dataOut ++ s.held ++ s.pc.page).map Superpage.offset ++ s.lost

theorem count_places (s : Equipment) (o : Nat) : s.places.count o = s.pagesAvailable.count o +
    countBy Superpage.offset o s.transfer + countBy Superpage.offset o s.ready + countBy Superpage.offset o s.dataOut +
    countBy Superpage.offset o s.held + countBy Superpage.offset o s.pc.page + s.lost.count o := by
  simp only [Equipment.places, List.map_append, List.count_append, countBy]
  omega

end RorcPages
end Flp
