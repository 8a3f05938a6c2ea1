import FlpPrototype.Lib.Places
import FlpPrototype.Rorc.SuperpageQueue
import Mathlib.Data.List.Perm.Basic
/-!
# SuperpageRuns — every run of a superpage queue

A user adds superpages, assigns the entries of those in the queue, and moves them on; calls that throw are part of a
run.  Beside the queue stands what the user can note down (`Watched`): which superpage an id stands for, counted in the
order they were added, and the data last stored for it.  The invariant is that of `SuperpageQueue` with the notes
attached (`Kept`), and what follows for the user is `Sound`.
-/
namespace Flp
namespace Rorc
namespace SuperpageQueue

/-- The queue, and the notes of its user. -/
structure Watched where
  queue : SuperpageQueue
  /-- How many superpages have been added. -/
  added : Nat
  /-- The superpage an id was given to last. -/
  serial : Nat → Nat
  /-- The data last stored for a superpage. -/
  stored : Nat → Entry
  /-- The superpages `removeFromFilledQueue` returned, with their data. -/
  left : List (Nat × Entry)
  /-- The superpages `clear` dropped. -/
  dropped : List Nat

inductive Call where
  | addToQueue (entry : Entry)
  | removeFromPushingQueue
  | moveFromArrivalsToFilledQueue
  | removeFromFilledQueue
  | clear
  /-- An assignment through the reference `getEntry` returns. -/
  | assign (id : Nat) (entry : Entry)

def liveIds (q : SuperpageQueue) : List Nat := q.mFilled ++ q.mArrivals

variable (MAX_SUPERPAGES : Nat)

def call (w : Watched) : Call → Except QueueError Watched
  | .addToQueue entry =>
    (w.queue.addToQueue MAX_SUPERPAGES entry).map fun q =>
      { w with
        queue := q
        added := w.added + 1
        serial := Function.update w.serial w.queue.mNextId w.added
        stored := Function.update w.stored w.added entry }
  | .removeFromPushingQueue => w.queue.removeFromPushingQueue.map fun q => { w with queue := q }
  | .moveFromArrivalsToFilledQueue =>
    (w.queue.moveFromArrivalsToFilledQueue MAX_SUPERPAGES).map fun q => { w with queue := q }
  | .removeFromFilledQueue =>
    w.queue.removeFromFilledQueue.map fun r =>
      { w with queue := r.2, left := w.left ++ [(w.serial (w.queue.mFilled.headD 0), r.1)] }
  | .clear => .ok { w with queue := w.queue.clear, dropped := w.dropped ++ w.queue.liveIds.map w.serial }
  | .assign id entry =>
    (w.queue.getEntry id).map fun _ =>
      { w with queue := w.queue.setEntry id entry, stored := Function.update w.stored (w.serial id) entry }

/-- A call that throws has changed nothing. -/
def after (w : Watched) (c : Call) : Watched :=
  match call MAX_SUPERPAGES w c with
  | .error _ => w
  | .ok w'   => w'

/-- An entry in the queue has valid `pushedPages`, and is not ready while it is in the pushing queue. -/
def Allowed (w : Watched) : Call → Prop
  | .addToQueue entry => entry.isValid = true ∧ entry.superpage.ready = false
  | .assign id entry  =>
    id ∈ w.queue.liveIds ∧ entry.isValid = true ∧ (id ∈ w.queue.mPushing → entry.superpage.ready = false)
  | _ => True

/-- A new queue has been cleared, whatever was in its memory, and nothing is noted. -/
def new (memory : SuperpageQueue) (serial : Nat → Nat) (stored : Nat → Entry) : Watched :=
  ⟨memory.clear, 0, serial, stored, [], []⟩

inductive Reachable : Watched → Prop where
  | new (memory : SuperpageQueue) (serial : Nat → Nat) (stored : Nat → Entry) : Reachable (new memory serial stored)
  | after {w : Watched} {c : Call} (hw : Reachable w) (hc : Allowed w c) : Reachable (after MAX_SUPERPAGES w c)

/-- What a user relies on. -/
structure Sound (w : Watched) : Prop where
  /-- The ids in the queue are a run that ends before the next one. -/
  contiguous : ∃ first, w.queue.liveIds = ids MAX_SUPERPAGES first w.queue.mNumberOfEntries ∧
    w.queue.mNextId = (first + w.queue.mNumberOfEntries) % MAX_SUPERPAGES
  fits : w.queue.mNumberOfEntries ≤ MAX_SUPERPAGES
  suffix : w.queue.mPushing <:+ w.queue.liveIds
  valid : ∀ id < MAX_SUPERPAGES, (w.queue.mRegistry id).isValid = true ↔ id ∈ w.queue.liveIds
  /-- `Id` is an 8-bit type. -/
  nextId : w.queue.mNextId < MAX_SUPERPAGES ∧ w.queue.mNextId < 2 ^ 8
  /-- An added superpage overwrites none, and finds room in both buffers. -/
  addRoom : w.queue.isFull MAX_SUPERPAGES = false → (w.queue.mRegistry w.queue.mNextId).isValid = false ∧
    w.queue.mPushing.length < MAX_SUPERPAGES ∧ w.queue.mArrivals.length < MAX_SUPERPAGES
  moveRoom : w.queue.mArrivals ≠ [] → w.queue.mFilled.length < MAX_SUPERPAGES
  /-- The checks that a build with `NDEBUG` does without never fail. -/
  checks : ∀ c, Allowed w c →
    call MAX_SUPERPAGES w c ≠ .error .idInUse ∧ call MAX_SUPERPAGES w c ≠ .error .invalidEntry
  /-- Superpages leave in the order they were added. -/
  order : (w.left.map Prod.fst).Pairwise (· < ·)
  /-- Each one added has left once, was dropped once, or is in the queue once. -/
  once : (w.left.map Prod.fst ++ w.dropped ++ w.queue.liveIds.map w.serial).Perm (List.range w.added)
  /-- Those in the queue were added last, in this order. -/
  oldest : w.queue.liveIds.map w.serial =
    List.range' (w.added - w.queue.mNumberOfEntries) w.queue.mNumberOfEntries
  current : ∀ id ∈ w.queue.liveIds, w.queue.mRegistry id = w.stored (w.serial id)
  data : ∀ p ∈ w.left, p.2 = w.stored p.1

/-- The invariant: `base` superpages are gone, and the next ones are in the queue. -/
structure Kept (w : Watched) (first base : Nat) (filled arrivals : List Entry) (k : Nat) : Prop where
  queue : Represents MAX_SUPERPAGES w.queue first filled arrivals k
  pushing : ∀ i e, (filled ++ arrivals)[i]? = some e → filled.length + arrivals.length ≤ i + k →
    e.superpage.ready = false
  added : w.added = base + (filled.length + arrivals.length)
  serials : ∀ i < filled.length + arrivals.length, w.serial ((first + i) % MAX_SUPERPAGES) = base + i
  stored : ∀ i e, (filled ++ arrivals)[i]? = some e → w.stored (base + i) = e
  order : (w.left.map Prod.fst).Pairwise (· < ·)
  gone : (w.left.map Prod.fst ++ w.dropped).Perm (List.range base)
  data : ∀ p ∈ w.left, p.2 = w.stored p.1

/-- A call that returns keeps the invariant, and one that throws does so for a reason other than its own checks. -/
def Fine : Except QueueError Watched → Prop
  | .error e => e ≠ .idInUse ∧ e ≠ .invalidEntry
  | .ok w    => ∃ first base filled arrivals k, Kept MAX_SUPERPAGES w first base filled arrivals k

variable {MAX_SUPERPAGES} {w : Watched} {first base k : Nat} {filled arrivals : List Entry}

theorem after_ok {c : Call} {w' : Watched} (h : call MAX_SUPERPAGES w c = .ok w') : after MAX_SUPERPAGES w c = w' := by
  rw [after, h]

theorem after_error {c : Call} {e : QueueError} (h : call MAX_SUPERPAGES w c = .error e) :
    after MAX_SUPERPAGES w c = w := by
  rw [after, h]

theorem Represents.liveIds (h : Represents MAX_SUPERPAGES w.queue first filled arrivals k) :
    w.queue.liveIds = ids MAX_SUPERPAGES first (filled.length + arrivals.length) := by
  rw [SuperpageQueue.liveIds, h.filledIds, h.arrivalIds, ids_append]

theorem fine_refused {α : Type} {result : Except QueueError α} {e : QueueError} (h : result = .error e)
    (he : e ≠ .idInUse ∧ e ≠ .invalidEntry) (f : α → Watched) : Fine MAX_SUPERPAGES (result.map f) := by
  rw [h]
  exact he

namespace Kept

theorem serials_live (h : Kept MAX_SUPERPAGES w first base filled arrivals k) :
    w.queue.liveIds.map w.serial = List.range' base (filled.length + arrivals.length) := by
  rw [h.queue.liveIds]
  refine List.ext_getElem (by simp) fun i hi hi' => ?_
  have hlt : i < filled.length + arrivals.length := by simpa using hi'
  simp [ids, h.serials i hlt]

/-- Those that are gone and those in the queue are all that were added. -/
theorem accounted (h : Kept MAX_SUPERPAGES w first base filled arrivals k) :
    (w.left.map Prod.fst ++ w.dropped ++ w.queue.liveIds.map w.serial).Perm
      (List.range (base + (filled.length + arrivals.length))) := by
  have split : ∀ n, List.range (base + n) = List.range base ++ List.range' base n := fun n => by
    rw [List.range_eq_range', List.range_eq_range', ← List.range'_append_1, Nat.zero_add]
  rw [h.serials_live, split]
  exact h.gone.append_right _

theorem left_lt (h : Kept MAX_SUPERPAGES w first base filled arrivals k) {n : Nat} (hn : n ∈ w.left.map Prod.fst) :
    n < base :=
  List.mem_range.1 (h.gone.mem_iff.1 (List.mem_append_left _ hn))

theorem data_update (h : Kept MAX_SUPERPAGES w first base filled arrivals k) {n : Nat} (hn : base ≤ n) (e : Entry) :
    ∀ p ∈ w.left, p.2 = Function.update w.stored n e p.1 := by
  intro p hp
  have := h.left_lt (List.mem_map_of_mem hp)
  rw [Function.update_of_ne (by omega), h.data p hp]

/-! ## The calls -/

theorem addToQueue (h : Kept MAX_SUPERPAGES w first base filled arrivals k) {entry : Entry} (he : entry.isValid = true)
    (hready : entry.superpage.ready = false) : Fine MAX_SUPERPAGES (call MAX_SUPERPAGES w (.addToQueue entry)) := by
  have hfits := h.queue.fits
  rw [call]
  by_cases hfull : filled.length + arrivals.length = MAX_SUPERPAGES
  · exact fine_refused (addToQueue_full h.queue hfull) (by decide) _
  · obtain ⟨q', hq', hrep⟩ := addToQueue_spec h.queue (by omega) he
    rw [hq']
    have hl : (arrivals ++ [entry]).length = arrivals.length + 1 := by simp
    -- the superpage behind the last one is the new one
    have hlast : ∀ {i e}, (filled ++ (arrivals ++ [entry]))[i]? = some e →
        (filled ++ arrivals)[i]? = some e ∧ i < filled.length + arrivals.length ∨
          i = filled.length + arrivals.length ∧ e = entry := by
      intro i e hi
      rw [← List.append_assoc] at hi
      rcases getElem?_concat_cases hi with hi | ⟨rfl, rfl⟩
      · exact .inl ⟨hi, by simpa using (List.getElem?_eq_some_iff.1 hi).1⟩
      · exact .inr ⟨List.length_append, rfl⟩
    refine ⟨first, base, filled, arrivals ++ [entry], k + 1, hrep, ?_, ?_, ?_, ?_, h.order, h.gone, ?_⟩
    · intro i e hi hk
      rcases hlast hi with ⟨hi, -⟩ | ⟨-, rfl⟩
      · exact h.pushing i e hi (by omega)
      · exact hready
    · show w.added + 1 = _
      rw [h.added, hl]
      rfl
    · intro i hi
      show Function.update w.serial w.queue.mNextId w.added _ = _
      rw [hl] at hi
      by_cases hlt : i < filled.length + arrivals.length
      · rw [h.queue.next, Function.update_of_ne, h.serials i hlt]
        intro heq
        have := id_inj (n := filled.length + arrivals.length + 1) (by omega) (by omega) (by omega) heq
        omega
      · obtain rfl : i = filled.length + arrivals.length := by omega
        rw [h.queue.next, Function.update_self, h.added]
    · intro i e hi
      show Function.update w.stored w.added entry _ = e
      rcases hlast hi with ⟨hi, hlt⟩ | ⟨rfl, rfl⟩
      · rw [Function.update_of_ne (by rw [h.added]; omega), h.stored i e hi]
      · rw [← h.added, Function.update_self]
    · exact h.data_update (by rw [h.added]; omega) entry

theorem removeFromPushingQueue (h : Kept MAX_SUPERPAGES w first base filled arrivals k) :
    Fine MAX_SUPERPAGES (call MAX_SUPERPAGES w .removeFromPushingQueue) := by
  rw [call]
  have hle := h.queue.le
  by_cases hk : 0 < k
  · obtain ⟨rest, hfront⟩ := pushing_front h.queue hk
    have hlt : arrivals.length - k < arrivals.length := by omega
    have hentry : (filled ++ arrivals)[filled.length + (arrivals.length - k)]? =
        some arrivals[arrivals.length - k] := by
      rw [List.getElem?_append_right (Nat.le_add_right _ _), Nat.add_sub_cancel_left, List.getElem?_eq_getElem hlt]
    by_cases hpushed : arrivals[arrivals.length - k].isPushed = true
    · obtain ⟨q', hq', hrep⟩ := removeFromPushingQueue_spec h.queue hk (List.getElem?_eq_getElem hlt) hpushed
      rw [hq']
      exact ⟨first, base, filled, arrivals, k - 1, hrep, fun i e hi hle => h.pushing i e hi (by omega), h.added,
        h.serials, h.stored, h.order, h.gone, h.data⟩
    · have hget := getEntry_of h.queue hentry
      rw [← Nat.add_assoc] at hget
      have hrefused : w.queue.removeFromPushingQueue = .error .notPushed := by
        simp only [SuperpageQueue.removeFromPushingQueue, hfront, hget, if_neg hpushed]
      exact fine_refused hrefused (by decide) _
  · have hempty : w.queue.mPushing = [] := by
      rw [h.queue.pushingIds, show k = 0 by omega, ids_zero]
    have hrefused : w.queue.removeFromPushingQueue = .error .pushingEmpty := by
      simp only [SuperpageQueue.removeFromPushingQueue, hempty]
    exact fine_refused hrefused (by decide) _

theorem moveFromArrivalsToFilledQueue (h : Kept MAX_SUPERPAGES w first base filled arrivals k) :
    Fine MAX_SUPERPAGES (call MAX_SUPERPAGES w .moveFromArrivalsToFilledQueue) := by
  rw [call]
  cases arrivals with
  | nil =>
    have hrefused : w.queue.moveFromArrivalsToFilledQueue MAX_SUPERPAGES = .error .arrivalsEmpty := by
      have hempty : w.queue.mArrivals = [] := h.queue.arrivalIds
      simp only [SuperpageQueue.moveFromArrivalsToFilledQueue, hempty]
    exact fine_refused hrefused (by decide) _
  | cons e rest =>
    obtain ⟨tail, hfront⟩ := arrivals_front h.queue
    have hentry : (filled ++ e :: rest)[filled.length]? = some e := by simp
    cases hready : e.superpage.ready with
    | false =>
      have hrefused : w.queue.moveFromArrivalsToFilledQueue MAX_SUPERPAGES = .error .notReady := by
        simp only [SuperpageQueue.moveFromArrivalsToFilledQueue, hfront, getEntry_of h.queue hentry, hready,
          Bool.false_eq_true, if_false]
      exact fine_refused hrefused (by decide) _
    | true =>
      -- a ready superpage has left the pushing queue
      have hk : k ≤ rest.length := by
        have hle := h.queue.le
        by_contra hgt
        have := h.pushing _ e hentry (by rw [List.length_cons] at hle ⊢; omega)
        rw [hready] at this
        cases this
      obtain ⟨q', hq', hrep⟩ := moveFromArrivalsToFilledQueue_spec h.queue hk hready
      rw [hq']
      have hsame : filled ++ [e] ++ rest = filled ++ e :: rest := by simp
      have hl : (filled ++ [e]).length + rest.length = filled.length + (e :: rest).length := by simp; omega
      refine ⟨first, base, filled ++ [e], rest, k, hrep, ?_, ?_, ?_, ?_, h.order, h.gone, h.data⟩
      · rw [hsame, hl]
        exact h.pushing
      · rw [hl]
        exact h.added
      · rw [hl]
        exact h.serials
      · rw [hsame]
        exact h.stored

theorem removeFromFilledQueue (h : Kept MAX_SUPERPAGES w first base filled arrivals k) :
    Fine MAX_SUPERPAGES (call MAX_SUPERPAGES w .removeFromFilledQueue) := by
  rw [call]
  cases filled with
  | nil =>
    have hrefused : w.queue.removeFromFilledQueue = .error .filledEmpty := by
      have hempty : w.queue.mFilled = [] := h.queue.filledIds
      simp only [SuperpageQueue.removeFromFilledQueue, hempty]
    exact fine_refused hrefused (by decide) _
  | cons e rest =>
    obtain ⟨q', hq', hrep⟩ := removeFromFilledQueue_spec h.queue
    rw [hq']
    have hserial : w.serial (w.queue.mFilled.headD 0) = base := by
      rw [h.queue.filledIds, List.length_cons, ids_succ]
      exact h.serials 0 (by rw [List.length_cons]; omega)
    have hstored : w.stored base = e := h.stored 0 e rfl
    rw [Except.map, hserial]
    refine ⟨first + 1, base + 1, rest, arrivals, k, hrep, ?_, ?_, ?_, ?_, ?_, ?_, ?_⟩
    · intro i e' hi hle
      exact h.pushing (i + 1) e' (by rwa [List.cons_append, List.getElem?_cons_succ])
        (by rw [List.length_cons]; omega)
    · show w.added = _
      rw [h.added, List.length_cons]
      omega
    · intro i hi
      show w.serial _ = _
      rw [show first + 1 + i = first + (i + 1) by omega, h.serials (i + 1) (by rw [List.length_cons]; omega)]
      omega
    · intro i e' hi
      show w.stored _ = _
      rw [show base + 1 + i = base + (i + 1) by omega]
      exact h.stored (i + 1) e' (by rwa [List.cons_append, List.getElem?_cons_succ])
    · show ((w.left ++ [(base, e)]).map Prod.fst).Pairwise (· < ·)
      rw [List.map_append, List.pairwise_append]
      refine ⟨h.order, List.pairwise_singleton _ _, fun n hn m hm => ?_⟩
      rw [List.map_singleton, List.mem_singleton] at hm
      rw [hm]
      exact h.left_lt hn
    · show ((w.left ++ [(base, e)]).map Prod.fst ++ w.dropped).Perm _
      rw [List.map_append, List.map_singleton, List.append_assoc, List.range_succ]
      have behind :
          (w.left.map Prod.fst ++ ([base] ++ w.dropped)).Perm (w.left.map Prod.fst ++ w.dropped ++ [base]) := by
        rw [List.append_assoc]
        exact List.perm_append_comm.append_left _
      exact behind.trans (h.gone.append_right [base])
    · intro p hp
      rcases List.mem_append.1 hp with hp | hp
      · exact h.data p hp
      · rw [List.mem_singleton.1 hp]
        exact hstored.symm

theorem clear (h : Kept MAX_SUPERPAGES w first base filled arrivals k) :
    Fine MAX_SUPERPAGES (call MAX_SUPERPAGES w .clear) := by
  refine ⟨0, base + (filled.length + arrivals.length), [], [], 0, represents_clear w.queue, nofun, ?_, ?_, nofun,
    h.order, ?_, h.data⟩
  · show w.added = _
    rw [h.added]
    rfl
  · intro i hi
    cases hi
  · show (w.left.map Prod.fst ++ (w.dropped ++ w.queue.liveIds.map w.serial)).Perm _
    rw [← List.append_assoc]
    exact h.accounted

theorem assign (h : Kept MAX_SUPERPAGES w first base filled arrivals k) {id : Nat} {entry : Entry}
    (hid : id ∈ w.queue.liveIds) (he : entry.isValid = true)
    (hready : id ∈ w.queue.mPushing → entry.superpage.ready = false) :
    Fine MAX_SUPERPAGES (call MAX_SUPERPAGES w (.assign id entry)) := by
  have hle := h.queue.le
  rw [h.queue.liveIds, mem_ids] at hid
  obtain ⟨j, hj, rfl⟩ := hid
  have hj' : j < (filled ++ arrivals).length := by simpa using hj
  -- the superpages in the queue, cut where they were
  obtain ⟨filled', arrivals', hset, hl⟩ : ∃ filled' arrivals' : List Entry,
      filled' ++ arrivals' = (filled ++ arrivals).set j entry ∧ filled'.length = filled.length :=
    ⟨_, _, List.take_append_drop filled.length _, by simp⟩
  have hl' : arrivals'.length = arrivals.length := by
    have := congrArg List.length hset
    rw [List.length_set, List.length_append, List.length_append] at this
    omega
  have entry_at : ∀ {i e}, (filled' ++ arrivals')[i]? = some e → i = j ∧ e = entry ∨
      i ≠ j ∧ (filled ++ arrivals)[i]? = some e := by
    intro i e hi
    rw [hset] at hi
    by_cases hij : i = j
    · rw [hij, List.getElem?_set_self hj'] at hi
      exact .inl ⟨hij, (Option.some.inj hi).symm⟩
    · rw [List.getElem?_set_ne (Ne.symm hij)] at hi
      exact .inr ⟨hij, hi⟩
  rw [call, getEntry_of h.queue (List.getElem?_eq_getElem hj')]
  refine ⟨first, base, filled', arrivals', k, setEntry_live h.queue hj he hl hset, ?_, ?_, ?_, ?_, h.order, h.gone, ?_⟩
  · intro i e hi hk
    rw [hl, hl'] at hk
    rcases entry_at hi with ⟨rfl, rfl⟩ | ⟨-, hi⟩
    · refine hready ?_
      rw [h.queue.pushingIds, mem_ids]
      refine ⟨i - (filled.length + (arrivals.length - k)), by omega, ?_⟩
      rw [show first + filled.length + (arrivals.length - k) + (i - (filled.length + (arrivals.length - k))) =
        first + i by omega]
    · exact h.pushing i e hi hk
  · rw [hl, hl']
    exact h.added
  · rw [hl, hl']
    exact h.serials
  · intro i e hi
    show Function.update w.stored (w.serial _) entry _ = e
    rw [h.serials j hj]
    rcases entry_at hi with ⟨rfl, rfl⟩ | ⟨hij, hi⟩
    · rw [Function.update_self]
    · rw [Function.update_of_ne (by omega), h.stored i e hi]
  · show ∀ p ∈ w.left, p.2 = Function.update w.stored (w.serial _) entry p.1
    rw [h.serials j hj]
    exact h.data_update (Nat.le_add_right _ _) entry

theorem fine (h : Kept MAX_SUPERPAGES w first base filled arrivals k) {c : Call} (hc : Allowed w c) :
    Fine MAX_SUPERPAGES (call MAX_SUPERPAGES w c) := by
  cases c with
  | addToQueue entry              => exact h.addToQueue hc.1 hc.2
  | removeFromPushingQueue        => exact h.removeFromPushingQueue
  | moveFromArrivalsToFilledQueue => exact h.moveFromArrivalsToFilledQueue
  | removeFromFilledQueue         => exact h.removeFromFilledQueue
  | clear                         => exact h.clear
  | assign id entry               => exact h.assign hc.1 hc.2.1 hc.2.2

/-! ## What follows -/

theorem sound (h1 : 1 ≤ MAX_SUPERPAGES) (h256 : MAX_SUPERPAGES ≤ 256)
    (h : Kept MAX_SUPERPAGES w first base filled arrivals k) : Sound MAX_SUPERPAGES w := by
  have hcount := h.queue.count
  have hfits := h.queue.fits
  have hle := h.queue.le
  have hnext : w.queue.mNextId < MAX_SUPERPAGES := by
    rw [h.queue.next]
    exact Nat.mod_lt _ h1
  refine ⟨⟨first, ?_, ?_⟩, by omega, ?_, ?_, ⟨hnext, Nat.lt_of_lt_of_le hnext h256⟩, ?_, ?_, ?_, h.order, ?_, ?_, ?_,
    h.data⟩
  · rw [hcount, h.queue.liveIds]
  · rw [hcount, h.queue.next]
  · refine ⟨ids MAX_SUPERPAGES first (filled.length + (arrivals.length - k)), ?_⟩
    rw [h.queue.liveIds, h.queue.pushingIds, Nat.add_assoc first, ids_append,
      show filled.length + (arrivals.length - k) + k = filled.length + arrivals.length by omega]
  · intro id hid
    rw [h.queue.liveIds, mem_ids]
    constructor
    · intro hv
      by_contra hnot
      have := h.queue.free id hid fun i hi heq => hnot ⟨i, hi, heq⟩
      rw [hv] at this
      cases this
    · rintro ⟨i, hi, rfl⟩
      have hi' : i < (filled ++ arrivals).length := by simpa using hi
      have hentry := List.getElem?_eq_getElem hi'
      rw [h.queue.entries i _ hentry]
      exact h.queue.live _ (List.mem_of_getElem? hentry)
  · intro hroom
    rw [isFull, decide_eq_false_iff_not, hcount] at hroom
    refine ⟨h.queue.free _ hnext fun i hi heq => ?_, ?_, ?_⟩
    · rw [h.queue.next] at heq
      have := id_inj (n := filled.length + arrivals.length + 1) (by omega) (by omega) (by omega) heq
      omega
    · rw [h.queue.pushingIds, length_ids]
      omega
    · rw [h.queue.arrivalIds, length_ids]
      omega
  · intro hne
    have : arrivals.length ≠ 0 := fun h0 => hne (by rw [h.queue.arrivalIds, h0, ids_zero])
    rw [h.queue.filledIds, length_ids]
    omega
  · intro c hc
    have := h.fine hc
    constructor <;> intro hcall <;> rw [hcall] at this
    · exact this.1 rfl
    · exact this.2 rfl
  · rw [h.added]
    exact h.accounted
  · rw [h.serials_live, hcount, h.added, Nat.add_sub_cancel]
  · intro id hid
    rw [h.queue.liveIds, mem_ids] at hid
    obtain ⟨i, hi, rfl⟩ := hid
    have hi' : i < (filled ++ arrivals).length := by simpa using hi
    have hentry := List.getElem?_eq_getElem hi'
    rw [h.queue.entries i _ hentry, h.serials i hi, h.stored i _ hentry]

end Kept

theorem kept_new (memory : SuperpageQueue) (serial : Nat → Nat) (stored : Nat → Entry) :
    Kept MAX_SUPERPAGES (new memory serial stored) 0 0 [] [] 0 where
  queue := represents_clear memory
  pushing := nofun
  added := rfl
  serials i hi := by cases hi
  stored := nofun
  order := .nil
  gone := .refl _
  data := nofun

theorem kept_reachable {w : Watched} (h : Reachable MAX_SUPERPAGES w) :
    ∃ first base filled arrivals k, Kept MAX_SUPERPAGES w first base filled arrivals k := by
  induction h with
  | new memory serial stored => exact ⟨_, _, _, _, _, kept_new memory serial stored⟩
  | @after w c _ hc ih =>
    obtain ⟨first, base, filled, arrivals, k, hk⟩ := ih
    have hfine := hk.fine hc
    cases hcall : call MAX_SUPERPAGES w c with
    | error e =>
      rw [after_error hcall]
      exact ⟨first, base, filled, arrivals, k, hk⟩
    | ok w' =>
      rw [after_ok hcall]
      rw [hcall] at hfine
      exact hfine

/-- **Every state a queue of superpages comes to** is as its user relies on. -/
theorem reachable_sound (h1 : 1 ≤ MAX_SUPERPAGES) (h256 : MAX_SUPERPAGES ≤ 256) {w : Watched}
    (h : Reachable MAX_SUPERPAGES w) : Sound MAX_SUPERPAGES w := by
  obtain ⟨first, base, filled, arrivals, k, hk⟩ := kept_reachable h
  exact hk.sound h1 h256

/-- A superpage of one page is added, pushed, arrives and leaves. -/
theorem reachable_sound_lifecycle : ∃ w, Reachable 4 w ∧ Sound 4 w ∧
    w.left = [(0, ⟨⟨0, 8192, 0, 8192, true⟩, 64, 1, 1⟩)] ∧ w.queue.mNextId = 1 := by
  have lifecycle : Reachable 4 (after 4 (after 4 (after 4 (after 4 (after 4 (after 4
      (new ⟨0, 0, fun _ => ⟨⟨0, 0, 0, 0, false⟩, 0, 7, 0⟩, [], [], []⟩ id (fun _ => ⟨⟨0, 0, 0, 0, false⟩, 0, 0, 0⟩))
      (.addToQueue ⟨⟨0, 8192, 0, 0, false⟩, 64, 0, 1⟩)) (.assign 0 ⟨⟨0, 8192, 0, 0, false⟩, 64, 1, 1⟩))
      .removeFromPushingQueue) (.assign 0 ⟨⟨0, 8192, 0, 8192, true⟩, 64, 1, 1⟩))
      .moveFromArrivalsToFilledQueue) .removeFromFilledQueue) :=
    .after (.after (.after (.after (.after (.after (.new _ _ _) ⟨rfl, rfl⟩) ⟨by decide, rfl, fun _ => rfl⟩) trivial)
      ⟨by decide, rfl, fun h => absurd h (by decide)⟩) trivial) trivial
  exact ⟨_, lifecycle, reachable_sound (by decide) (by decide) lifecycle, by decide, by decide⟩

end SuperpageQueue
end Rorc
end Flp
