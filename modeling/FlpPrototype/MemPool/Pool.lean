import FlpPrototype.Lib.CInt
import FlpPrototype.Lib.Run
import Mathlib.Logic.Function.Basic
import Mathlib.Tactic.ByContra
/-!
# Pool — `MemPool` under concurrent callers

A pool keeps a flag for each of its pages and two cached positions, all atomic.  `getPage` and `releasePage` scan the
table from the cached position on, reading the position again in each iteration.  A step here is one such access: a
load or store of a position, a `test_and_set`, a `clear`; between its steps a thread is at a `Pc`.  The steps of any
number of threads come in any order.

What the callers hold is kept beside the pool (`owned`), with the calls that ended (`history`).  Both only record.
-/
namespace Flp
namespace MemPool

/-- What the constructor leaves unchanged from then on: the pages `posix_memalign` gave, no two the same, as many as an
`int` counts. -/
structure Table where
  pages : List Nat
  nodup : pages.Nodup
  small : pages.length ≤ intMax

def Table.numberOfPages (T : Table) : Nat := T.pages.length

/-- An index the table has. -/
def Table.Has (T : Table) (ix : Int) : Prop := 0 ≤ ix ∧ ix < T.numberOfPages

instance (T : Table) (ix : Int) : Decidable (T.Has ix) := inferInstanceAs (Decidable (_ ∧ _))

/-- `pageTable[ix]`: no defined result outside the table. -/
def Table.page (T : Table) (ix : Int) : Option Nat := if T.Has ix then T.pages[ix.toNat]? else none

/-- `(lastPageIndexGet + 1 + i) % numberOfPages` -/
def Table.getIndex (T : Table) (lastPageIndexGet : Int) (i : Nat) : Option Int := do
  let a ← intPlus lastPageIndexGet 1
  let b ← intPlus a i
  return b.tmod T.numberOfPages

/-- `(lastPageIndexRelease + i + 1) % numberOfPages` -/
def Table.releaseIndex (T : Table) (lastPageIndexRelease : Int) (i : Nat) : Option Int := do
  let a ← intPlus lastPageIndexRelease i
  let b ← intPlus a 1
  return b.tmod T.numberOfPages

/-- Where a thread is.  `found` records the pages this `getPage` found in use. -/
inductive Pc where
  | idle
  | getLoop (i : Nat) (found : List Int)
  | getTest (i : Nat) (newIx : Int) (found : List Int)
  | getStore (newIx : Int)
  | releaseLoop (pagePtr : Nat) (i : Nat)
  | releaseClear (pagePtr : Nat) (pageIx : Int)
  | releaseStore (pagePtr : Nat) (pageIx : Int)
deriving DecidableEq

/-- A call that ended: a page returned, `NULL` returned, a release with or without its `clear`. -/
inductive Event where
  | got (t page : Nat)
  | exhausted (t : Nat) (found : List Int)
  | released (t page : Nat) (cleared : Bool)
deriving DecidableEq

structure State where
  pageIsUsed : Int → Bool
  lastPageIndexGet : Int
  lastPageIndexRelease : Int
  pc : Nat → Pc
  owned : List Nat
  history : List Event

/-- The pool as it is constructed, no thread using it yet. -/
def State.start : State := ⟨fun _ => false, -1, -1, fun _ => .idle, [], []⟩

/-- What a thread may call. -/
inductive Call where
  | getPage
  | releasePage (page : Nat)
  | construct (v_data : Option Nat)
  | destroy (data : Option Nat)
deriving DecidableEq

/-- Where a call starts.  `DataBlockContainerFromMemPool` takes over the page it is given or calls `getPage` (throwing
when that returns `NULL`), and its destructor calls `releasePage`. -/
def Call.entry : Call → Pc
  | .getPage            => .getLoop 0 []
  | .releasePage p      => .releaseLoop p 0
  | .construct none     => .getLoop 0 []
  | .construct (some _) => .idle
  | .destroy (some p)   => .releaseLoop p 0
  | .destroy none       => .idle

def Call.released : Call → Option Nat
  | .releasePage p | .destroy (some p) => some p
  | _                                  => none

def Call.page : Call → Option Nat
  | .releasePage p | .destroy (some p) | .construct (some p) => some p
  | _                                                        => none

inductive Action where
  | call (t : Nat) (c : Call)
  | step (t : Nat)
deriving DecidableEq

/-- Thread `t` moves to `p`. -/
def State.goto (s : State) (t : Nat) (p : Pc) : State := { s with pc := Function.update s.pc t p }

/-- The next access of a thread that is at the place given. -/
def stepAt (T : Table) (s : State) (t : Nat) : Pc → Option State
  | .idle => none
  | .getLoop i found =>
    if i < T.numberOfPages then
      (T.getIndex s.lastPageIndexGet i).map fun newIx => s.goto t (.getTest i newIx found)
    else some { s with pc := Function.update s.pc t .idle, history := s.history ++ [.exhausted t found] }
  | .getTest i newIx found =>
    if T.Has newIx then
      if s.pageIsUsed newIx then some (s.goto t (.getLoop (i + 1) (newIx :: found)))
      else some { s with
          pc := Function.update s.pc t (.getStore newIx), pageIsUsed := Function.update s.pageIsUsed newIx true }
    else none
  | .getStore newIx => (T.page newIx).map fun p =>
      { s with
        pc := Function.update s.pc t .idle, lastPageIndexGet := newIx, owned := p :: s.owned,
        history := s.history ++ [.got t p] }
  | .releaseLoop pagePtr i =>
    if i < T.numberOfPages then
      (T.releaseIndex s.lastPageIndexRelease i).bind fun pageIx => (T.page pageIx).map fun p =>
        if pagePtr = p then s.goto t (.releaseClear pagePtr pageIx) else s.goto t (.releaseLoop pagePtr (i + 1))
    else some { s with pc := Function.update s.pc t .idle, history := s.history ++ [.released t pagePtr false] }
  | .releaseClear pagePtr pageIx =>
    if T.Has pageIx then
      some { s with
        pc := Function.update s.pc t (.releaseStore pagePtr pageIx),
        pageIsUsed := Function.update s.pageIsUsed pageIx false }
    else none
  | .releaseStore pagePtr pageIx =>
    some { s with
      pc := Function.update s.pc t .idle, lastPageIndexRelease := pageIx,
      history := s.history ++ [.released t pagePtr true] }

def step (T : Table) (s : State) : Action → Option State
  | .call t c =>
    if s.pc t = .idle then
      some { s with pc := Function.update s.pc t c.entry, owned := s.owned.filter (some · ≠ c.released) }
    else none
  | .step t => stepAt T s t (s.pc t)

/-- A thread makes one call at a time, and hands over a page of the pool only while it is owned. -/
def Proper (T : Table) (s : State) : Action → Prop
  | .call t c => s.pc t = .idle ∧ ∀ p ∈ c.page, p ∈ T.pages → p ∈ s.owned
  | .step t   => s.pc t ≠ .idle

instance (T : Table) (s : State) : (a : Action) → Decidable (Proper T s a)
  | .call _ _ => inferInstanceAs (Decidable (_ ∧ _))
  | .step _   => inferInstanceAs (Decidable (_ ≠ _))

/-! ## Indices -/

variable {T : Table}

/-- The `i`-th index of a scan from the position `last`. -/
def Table.index (T : Table) (last : Int) (i : Nat) : Int := (last + 1 + i) % T.numberOfPages

/-- The values a cached position takes. -/
def Table.Position (T : Table) (last : Int) : Prop := -1 ≤ last ∧ last < T.numberOfPages

theorem Table.getIndex_eq {last : Int} {i : Nat} (hl : -1 ≤ last) (hi : last + 1 + i ≤ intMax) :
    T.getIndex last i = some (T.index last i) := by
  rw [getIndex, intPlus_of_le (by omega) (by omega), Option.bind_eq_bind, Option.bind_some,
    intPlus_of_le (by omega) hi, Option.bind_some, Int.tmod_eq_emod_of_nonneg (by omega)]
  rfl

theorem Table.releaseIndex_eq {last : Int} {i : Nat} (hl : -1 ≤ last) (hi : last + 1 + i ≤ intMax) :
    T.releaseIndex last i = some (T.index last i) := by
  rw [releaseIndex, intPlus_of_le (by omega) (by omega), Option.bind_eq_bind, Option.bind_some,
    intPlus_of_le (by omega) (by omega), Option.bind_some, Int.tmod_eq_emod_of_nonneg (by omega),
    Int.add_right_comm]
  rfl

/-- **With at most `2^30` pages** no index computation overflows. -/
theorem Table.Position.sum_le {last : Int} {i : Nat} (hl : T.Position last) (hn : T.numberOfPages ≤ 2 ^ 30)
    (hi : i < T.numberOfPages) : last + 1 + i ≤ intMax := by
  have := hl.2
  unfold intMax
  omega

theorem Table.index_has {last : Int} {i : Nat} (hi : i < T.numberOfPages) : T.Has (T.index last i) :=
  ⟨Int.emod_nonneg _ (by omega), Int.emod_lt_of_pos _ (by omega)⟩

theorem Table.Has.position {ix : Int} (h : T.Has ix) : T.Position ix := ⟨by have := h.1; omega, h.2⟩

theorem Table.position_start : T.Position (-1) := ⟨by omega, by omega⟩

/-- A scan that keeps its position meets every page. -/
theorem Table.index_covers {ix : Int} (last : Int) (h : T.Has ix) : ∃ i < T.numberOfPages, T.index last i = ix := by
  obtain ⟨h₁, h₂⟩ := h
  have hpos : (0 : Int) < T.numberOfPages := by omega
  have hnn := Int.emod_nonneg (ix - last - 1) (by omega : (T.numberOfPages : Int) ≠ 0)
  have hlt := Int.emod_lt_of_pos (ix - last - 1) hpos
  refine ⟨((ix - last - 1) % T.numberOfPages).toNat, by omega, ?_⟩
  rw [index, Int.toNat_of_nonneg hnn, Int.add_emod_emod, show last + 1 + (ix - last - 1) = ix by omega,
    Int.emod_eq_of_lt h₁ h₂]

theorem Table.page_has {ix : Int} (h : T.Has ix) : ∃ p ∈ T.pages, T.page ix = some p := by
  obtain ⟨h₁, h₂⟩ := h
  have hlt : ix.toNat < T.pages.length := by unfold numberOfPages at h₂; omega
  exact ⟨T.pages[ix.toNat], List.getElem_mem hlt, by rw [page, if_pos ⟨h₁, h₂⟩, List.getElem?_eq_getElem hlt]⟩

theorem Table.has_of_page {ix : Int} {p : Nat} (h : T.page ix = some p) : T.Has ix := by
  by_contra hn
  rw [page, if_neg hn] at h
  cases h

theorem Table.mem_of_page {ix : Int} {p : Nat} (h : T.page ix = some p) : p ∈ T.pages := by
  rw [page, if_pos (has_of_page h)] at h
  exact List.mem_of_getElem? h

theorem Table.page_of_mem {p : Nat} (h : p ∈ T.pages) : ∃ ix, T.page ix = some p := by
  obtain ⟨k, hk⟩ := List.mem_iff_getElem?.1 h
  have hlt : k < T.pages.length := (List.getElem?_eq_some_iff.1 hk).1
  exact ⟨k, by rw [page, if_pos ⟨by omega, by unfold numberOfPages; omega⟩, Int.toNat_natCast, hk]⟩

theorem Table.page_inj {ix jx : Int} {p : Nat} (h : T.page ix = some p) (h' : T.page jx = some p) : ix = jx := by
  have hx := (has_of_page h).1
  have hj := (has_of_page h').1
  rw [page, if_pos (has_of_page h)] at h
  rw [page, if_pos (has_of_page h')] at h'
  have := (List.getElem?_inj (List.getElem?_eq_some_iff.1 h).1 T.nodup).1 (h.trans h'.symm)
  omega

end MemPool
end Flp
