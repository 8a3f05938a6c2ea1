import Mathlib.Data.Nat.ModEq
import Mathlib.Logic.Function.Basic
/-!
# SuperpageQueue — the queue of superpages and their registry

A superpage is known by an id, the index of its entry in a registry of fixed size; three circular buffers of ids say
which superpages are still pushed into, which wait for arrivals, and which are filled (`SuperpageQueue.h`).  An entry is
free when `pushedPages` is -1.  The checks the code makes in a build without `NDEBUG` are made here.
-/
namespace Flp
namespace Rorc

structure Superpage where
  offset : Nat
  size : Nat
  userData : Nat
  received : Nat
  ready : Bool
  deriving DecidableEq, Repr

structure Entry where
  superpage : Superpage
  busAddress : Nat
  pushedPages : Int
  maxPages : Int
  deriving DecidableEq, Repr

namespace Entry

def isPushed (e : Entry) : Bool := decide (e.pushedPages = e.maxPages)

def getUnpushedPages (e : Entry) : Int := e.maxPages - e.pushedPages

/-- `isValidEntry`. -/
def isValid (e : Entry) : Bool := decide (e.pushedPages ≠ -1)

/-- `resetEntry`. -/
def reset (e : Entry) : Entry := { e with pushedPages := -1 }

end Entry

/-- What the queue throws. -/
inductive QueueError where
  | full | idInUse | pushingEmpty | notPushed | arrivalsEmpty | notReady | filledEmpty | invalidEntry
  deriving DecidableEq, Repr

def QueueError.message : QueueError → String
  | .full          => "Could not enqueue superpage, queue full"
  | .idInUse       => "Could not enqueue superpage, would overwrite index ID already in use"
  | .pushingEmpty  => "Could not remove from pushing queue, pushing queue was empty"
  | .notPushed     => "Could not remove from pushing queue, entry was not completely pushed"
  | .arrivalsEmpty => "Could not move from arrivals to filled, arrivals was empty"
  | .notReady      => "Could not move arrivals to filled, superpage was not filled"
  | .filledEmpty   => "Could not pop superpage, filled queue was empty"
  | .invalidEntry  => "Invalid entry"

structure SuperpageQueue where
  mNumberOfEntries : Nat
  mNextId : Nat
  mRegistry : Nat → Entry
  mPushing : List Nat
  mArrivals : List Nat
  mFilled : List Nat

/-- `push_back` of a circular buffer: a full one drops its front. -/
def pushBack (capacity : Nat) (q : List Nat) (id : Nat) : List Nat :=
  if q.length = capacity then q.tail ++ [id] else q ++ [id]

namespace SuperpageQueue

variable (MAX_SUPERPAGES : Nat)

def clear (q : SuperpageQueue) : SuperpageQueue where
  mNumberOfEntries := 0
  mNextId := 0
  mRegistry id := (q.mRegistry id).reset
  mPushing := []
  mArrivals := []
  mFilled := []

def isFull (q : SuperpageQueue) : Bool := decide (q.mNumberOfEntries = MAX_SUPERPAGES)

def getEntry (q : SuperpageQueue) (id : Nat) : Except QueueError Entry :=
  if (q.mRegistry id).isValid then .ok (q.mRegistry id) else .error .invalidEntry

def entries (q : SuperpageQueue) (ids : List Nat) : List Entry := ids.map q.mRegistry

/-- What a reference to an entry is assigned. -/
def setEntry (q : SuperpageQueue) (id : Nat) (e : Entry) : SuperpageQueue :=
  { q with mRegistry := Function.update q.mRegistry id e }

def addToQueue (q : SuperpageQueue) (entry : Entry) : Except QueueError SuperpageQueue :=
  if q.isFull MAX_SUPERPAGES then .error .full
  else if (q.mRegistry q.mNextId).isValid then .error .idInUse
  else .ok
    { q with
      mRegistry := Function.update q.mRegistry q.mNextId entry
      mNextId := (q.mNextId + 1) % MAX_SUPERPAGES
      mNumberOfEntries := q.mNumberOfEntries + 1
      mPushing := pushBack MAX_SUPERPAGES q.mPushing q.mNextId
      mArrivals := pushBack MAX_SUPERPAGES q.mArrivals q.mNextId }

def removeFromPushingQueue (q : SuperpageQueue) : Except QueueError SuperpageQueue :=
  match q.mPushing with
  | []      => .error .pushingEmpty
  | id :: _ =>
    match q.getEntry id with
    | .error e  => .error e
    | .ok entry => if entry.isPushed then .ok { q with mPushing := q.mPushing.tail } else .error .notPushed

def moveFromArrivalsToFilledQueue (q : SuperpageQueue) : Except QueueError SuperpageQueue :=
  match q.mArrivals with
  | []      => .error .arrivalsEmpty
  | id :: _ =>
    match q.getEntry id with
    | .error e  => .error e
    | .ok entry =>
      if entry.superpage.ready then
        .ok { q with mFilled := pushBack MAX_SUPERPAGES q.mFilled id, mArrivals := q.mArrivals.tail }
      else .error .notReady

/-- The entry and the queue without it. -/
def removeFromFilledQueue (q : SuperpageQueue) : Except QueueError (Entry × SuperpageQueue) :=
  match q.mFilled with
  | []      => .error .filledEmpty
  | id :: _ =>
    match q.getEntry id with
    | .error e  => .error e
    | .ok entry => .ok (entry,
        { q with
          mRegistry := Function.update q.mRegistry id entry.reset
          mNumberOfEntries := q.mNumberOfEntries - 1
          mFilled := q.mFilled.tail })

/-! ## The superpages a queue stands for -/

/-- The `n` ids from `first` on. -/
def ids (first n : Nat) : List Nat := (List.range' first n).map (· % MAX_SUPERPAGES)

/-- The queue holds the filled superpages and behind them those that wait for arrivals, oldest first; the last `k` of
these are still pushed into. -/
structure Represents (q : SuperpageQueue) (first : Nat) (filled arrivals : List Entry) (k : Nat) : Prop where
  count : q.mNumberOfEntries = filled.length + arrivals.length
  fits : filled.length + arrivals.length ≤ MAX_SUPERPAGES
  next : q.mNextId = (first + (filled.length + arrivals.length)) % MAX_SUPERPAGES
  filledIds : q.mFilled = ids MAX_SUPERPAGES first filled.length
  arrivalIds : q.mArrivals = ids MAX_SUPERPAGES (first + filled.length) arrivals.length
  pushingIds : q.mPushing = ids MAX_SUPERPAGES (first + filled.length + (arrivals.length - k)) k
  le : k ≤ arrivals.length
  entries : ∀ i e, (filled ++ arrivals)[i]? = some e → q.mRegistry ((first + i) % MAX_SUPERPAGES) = e
  live : ∀ e ∈ filled ++ arrivals, e.isValid = true
  free : ∀ id < MAX_SUPERPAGES, (∀ i < filled.length + arrivals.length, (first + i) % MAX_SUPERPAGES ≠ id) →
    (q.mRegistry id).isValid = false

variable {MAX_SUPERPAGES}

/-! ## Ids -/

@[simp] theorem length_ids (first n : Nat) : (ids MAX_SUPERPAGES first n).length = n := by simp [ids]

@[simp] theorem ids_zero (first : Nat) : ids MAX_SUPERPAGES first 0 = [] := rfl

theorem ids_succ (first n : Nat) :
    ids MAX_SUPERPAGES first (n + 1) = first % MAX_SUPERPAGES :: ids MAX_SUPERPAGES (first + 1) n := by
  simp [ids, List.range'_succ]

theorem ids_succ_last (first n : Nat) :
    ids MAX_SUPERPAGES first (n + 1) = ids MAX_SUPERPAGES first n ++ [(first + n) % MAX_SUPERPAGES] := by
  simp [ids, List.range'_concat]

theorem ids_append (first n m : Nat) :
    ids MAX_SUPERPAGES first n ++ ids MAX_SUPERPAGES (first + n) m = ids MAX_SUPERPAGES first (n + m) := by
  simp [ids, ← List.map_append, List.range'_append_1]

theorem mem_ids {first n id : Nat} : id ∈ ids MAX_SUPERPAGES first n ↔ ∃ i < n, (first + i) % MAX_SUPERPAGES = id := by
  simp only [ids, List.mem_map, List.mem_range'_1]
  constructor
  · rintro ⟨i, hi, rfl⟩
    exact ⟨i - first, by omega, by rw [Nat.add_sub_cancel' hi.1]⟩
  · rintro ⟨i, hi, rfl⟩
    exact ⟨first + i, by omega, rfl⟩

/-- Ids that are not as far apart as there are places differ. -/
theorem id_inj {first i j n : Nat} (hn : n ≤ MAX_SUPERPAGES) (hi : i < n) (hj : j < n)
    (h : (first + i) % MAX_SUPERPAGES = (first + j) % MAX_SUPERPAGES) : i = j := by
  have hmod : Nat.ModEq MAX_SUPERPAGES i j := Nat.ModEq.add_left_cancel' first h
  rwa [Nat.ModEq, Nat.mod_eq_of_lt (by omega), Nat.mod_eq_of_lt (by omega)] at hmod

theorem pushBack_of_lt {capacity : Nat} {q : List Nat} (h : q.length < capacity) (id : Nat) :
    pushBack capacity q id = q ++ [id] := if_neg (by omega)

/-! ## What each operation does -/

variable {q : SuperpageQueue} {first k : Nat} {filled arrivals : List Entry}

theorem represents_clear (q : SuperpageQueue) : Represents MAX_SUPERPAGES q.clear 0 [] [] 0 where
  count := rfl
  fits := Nat.zero_le _
  next := by simp [clear]
  filledIds := rfl
  arrivalIds := rfl
  pushingIds := rfl
  le := Nat.le_refl 0
  entries i e h := by cases h
  live e h := by cases h
  free id _ _ := by simp [clear, Entry.reset, Entry.isValid]

theorem getEntry_of {i : Nat} {e : Entry} (h : Represents MAX_SUPERPAGES q first filled arrivals k)
    (hi : (filled ++ arrivals)[i]? = some e) : q.getEntry ((first + i) % MAX_SUPERPAGES) = .ok e := by
  rw [getEntry, h.entries i e hi, if_pos (h.live e (List.mem_of_getElem? hi))]

/-- A new superpage is the youngest in both queues. -/
theorem addToQueue_spec {e : Entry} (h : Represents MAX_SUPERPAGES q first filled arrivals k)
    (hroom : filled.length + arrivals.length < MAX_SUPERPAGES) (he : e.isValid = true) :
    ∃ q', q.addToQueue MAX_SUPERPAGES e = .ok q' ∧
      Represents MAX_SUPERPAGES q' first filled (arrivals ++ [e]) (k + 1) := by
  have hcount := h.count
  have hle := h.le
  have hfree : (q.mRegistry q.mNextId).isValid = false := by
    refine h.free _ (by rw [h.next]; exact Nat.mod_lt _ (by omega)) (fun i hi heq => ?_)
    rw [h.next] at heq
    have := id_inj (n := filled.length + arrivals.length + 1) (by omega) (by omega) (by omega) heq
    omega
  have hnext : q.mNextId = (first + filled.length + arrivals.length) % MAX_SUPERPAGES := by rw [h.next, Nat.add_assoc]
  refine ⟨_, by rw [addToQueue, isFull, if_neg (by simp; omega), hfree, if_neg Bool.false_ne_true], ?_⟩
  refine ⟨?_, ?_, ?_, h.filledIds, ?_, ?_, ?_, ?_, ?_, ?_⟩
  · show q.mNumberOfEntries + 1 = _
    rw [hcount, List.length_append, List.length_singleton]
    omega
  · rw [List.length_append, List.length_singleton]
    omega
  · show (q.mNextId + 1) % MAX_SUPERPAGES = _
    rw [h.next, Nat.mod_add_mod, List.length_append, List.length_singleton]
    rfl
  · show pushBack _ _ _ = _
    rw [pushBack_of_lt (by rw [h.arrivalIds, length_ids]; omega), h.arrivalIds, hnext, List.length_append,
      List.length_singleton, ids_succ_last]
  · show pushBack _ _ _ = _
    rw [pushBack_of_lt (by rw [h.pushingIds, length_ids]; omega), h.pushingIds, hnext, List.length_append,
      List.length_singleton, ids_succ_last]
    rw [show arrivals.length + 1 - (k + 1) = arrivals.length - k by omega,
      show first + filled.length + (arrivals.length - k) + k = first + filled.length + arrivals.length by omega]
  · rw [List.length_append, List.length_singleton]
    omega
  · intro i e' hi
    show Function.update q.mRegistry q.mNextId e _ = e'
    rw [← List.append_assoc] at hi
    by_cases hlast : i = filled.length + arrivals.length
    · rw [List.getElem?_append_right (by simp; omega)] at hi
      have hz : i - (filled ++ arrivals).length = 0 := by rw [List.length_append]; omega
      rw [hz] at hi
      have heq : e = e' := Option.some.inj hi
      rw [hlast, ← h.next, Function.update_self, heq]
    · have hlt : i < filled.length + arrivals.length := by
        have := (List.getElem?_eq_some_iff.1 hi).1
        simp only [List.length_append, List.length_singleton] at this
        omega
      rw [List.getElem?_append_left (by simpa using hlt)] at hi
      rw [Function.update_of_ne, h.entries i e' hi]
      intro heq
      rw [h.next] at heq
      have := id_inj (n := filled.length + arrivals.length + 1) (by omega) (by omega) (by omega) heq
      omega
  · intro e' he'
    rw [← List.append_assoc] at he'
    rcases List.mem_append.1 he' with he' | he'
    · exact h.live e' he'
    · rw [List.mem_singleton.1 he']
      exact he
  · intro id hid hne
    rw [List.length_append, List.length_singleton] at hne
    show (Function.update q.mRegistry q.mNextId e id).isValid = false
    rw [Function.update_of_ne]
    · exact h.free id hid (fun i hi => hne i (by omega))
    · rw [h.next]
      exact fun heq => hne _ (by omega) heq.symm

/-- **A full queue refuses**, and that is the only time. -/
theorem addToQueue_full {e : Entry} (h : Represents MAX_SUPERPAGES q first filled arrivals k)
    (hfull : filled.length + arrivals.length = MAX_SUPERPAGES) : q.addToQueue MAX_SUPERPAGES e = .error .full := by
  rw [addToQueue, isFull, if_pos (by simp [h.count, hfull])]

theorem setEntry_live {j : Nat} {e : Entry} {filled' arrivals' : List Entry}
    (h : Represents MAX_SUPERPAGES q first filled arrivals k) (hj : j < filled.length + arrivals.length)
    (he : e.isValid = true) (hl : filled'.length = filled.length)
    (hset : filled' ++ arrivals' = (filled ++ arrivals).set j e) :
    Represents MAX_SUPERPAGES (q.setEntry ((first + j) % MAX_SUPERPAGES) e) first filled' arrivals' k := by
  have hfits := h.fits
  have hl' : arrivals'.length = arrivals.length := by
    have := congrArg List.length hset
    rw [List.length_set, List.length_append, List.length_append, hl] at this
    omega
  refine ⟨by rw [hl, hl']; exact h.count, by rw [hl, hl']; exact hfits, by rw [hl, hl']; exact h.next,
    by rw [hl]; exact h.filledIds, by rw [hl, hl']; exact h.arrivalIds, by rw [hl, hl']; exact h.pushingIds,
    by rw [hl']; exact h.le, ?_, ?_, ?_⟩
  · intro i e' hi
    rw [hset] at hi
    show Function.update q.mRegistry _ e _ = e'
    have hlt : i < filled.length + arrivals.length := by
      have := (List.getElem?_eq_some_iff.1 hi).1
      simpa using this
    by_cases hij : i = j
    · rw [hij, Function.update_self]
      rw [hij, List.getElem?_set_self (by simpa using hj)] at hi
      exact Option.some.inj hi
    · rw [Function.update_of_ne (fun heq => hij (id_inj hfits hlt hj heq))]
      refine h.entries i e' ?_
      rwa [List.getElem?_set_ne (Ne.symm hij)] at hi
  · intro e' he'
    rw [hset] at he'
    rcases List.mem_or_eq_of_mem_set he' with he' | rfl
    · exact h.live e' he'
    · exact he
  · intro id hid hne
    rw [hl, hl'] at hne
    show (Function.update q.mRegistry _ e id).isValid = false
    rw [Function.update_of_ne (fun heq => hne _ hj heq.symm)]
    exact h.free id hid hne

theorem setEntry_spec {j : Nat} {e : Entry} (h : Represents MAX_SUPERPAGES q first filled arrivals k)
    (hj : j < arrivals.length) (he : e.isValid = true) :
    Represents MAX_SUPERPAGES (q.setEntry ((first + filled.length + j) % MAX_SUPERPAGES) e) first filled
      (arrivals.set j e) k := by
  rw [Nat.add_assoc]
  refine setEntry_live h (by omega) he rfl ?_
  rw [List.set_append_right _ _ (Nat.le_add_right _ _), Nat.add_sub_cancel_left]

theorem pushing_front (h : Represents MAX_SUPERPAGES q first filled arrivals k) (hk : 0 < k) :
    ∃ rest, q.mPushing = (first + filled.length + (arrivals.length - k)) % MAX_SUPERPAGES :: rest := by
  obtain ⟨k', rfl⟩ : ∃ k', k = k' + 1 := ⟨k - 1, by omega⟩
  exact ⟨_, by rw [h.pushingIds, ids_succ]⟩

theorem arrivals_front {e : Entry} {rest : List Entry}
    (h : Represents MAX_SUPERPAGES q first filled (e :: rest) k) :
    ∃ tail, q.mArrivals = (first + filled.length) % MAX_SUPERPAGES :: tail :=
  ⟨_, by rw [h.arrivalIds, List.length_cons, ids_succ]⟩

theorem removeFromPushingQueue_spec {e : Entry} (h : Represents MAX_SUPERPAGES q first filled arrivals k) (hk : 0 < k)
    (he : arrivals[arrivals.length - k]? = some e) (hpushed : e.isPushed = true) :
    ∃ q', q.removeFromPushingQueue = .ok q' ∧ Represents MAX_SUPERPAGES q' first filled arrivals (k - 1) := by
  have hle := h.le
  obtain ⟨rest, hfront⟩ := pushing_front h hk
  have hentry : (filled ++ arrivals)[filled.length + (arrivals.length - k)]? = some e := by
    rw [List.getElem?_append_right (Nat.le_add_right _ _), Nat.add_sub_cancel_left, he]
  have hget := getEntry_of h hentry
  rw [← Nat.add_assoc] at hget
  refine ⟨_, by simp only [removeFromPushingQueue, hfront, hget, hpushed, if_true]; rfl, ?_⟩
  refine ⟨h.count, h.fits, h.next, h.filledIds, h.arrivalIds, ?_, by omega, h.entries, h.live, h.free⟩
  obtain ⟨k', rfl⟩ : ∃ k', k = k' + 1 := ⟨k - 1, by omega⟩
  have hp := h.pushingIds
  rw [hfront, ids_succ] at hp
  show rest = _
  rw [(List.cons.inj hp).2, Nat.add_sub_cancel,
    show first + filled.length + (arrivals.length - (k' + 1)) + 1 = first + filled.length +
      (arrivals.length - k') by omega]

theorem moveFromArrivalsToFilledQueue_spec {e : Entry} {rest : List Entry}
    (h : Represents MAX_SUPERPAGES q first filled (e :: rest) k) (hk : k ≤ rest.length)
    (hready : e.superpage.ready = true) :
    ∃ q', q.moveFromArrivalsToFilledQueue MAX_SUPERPAGES = .ok q' ∧
      Represents MAX_SUPERPAGES q' first (filled ++ [e]) rest k := by
  have hcount := h.count
  have hfits := h.fits
  have hnext := h.next
  have hids := h.arrivalIds
  rw [List.length_cons] at hcount hfits hnext hids
  obtain ⟨tail, hfront⟩ := arrivals_front h
  have hentry : (filled ++ e :: rest)[filled.length]? = some e := by simp
  have hget := getEntry_of h hentry
  refine ⟨_, by simp only [moveFromArrivalsToFilledQueue, hfront, hget, hready, if_true]; rfl, ?_⟩
  have hl : (filled ++ [e]).length = filled.length + 1 := by simp
  refine ⟨?_, ?_, ?_, ?_, ?_, ?_, hk, ?_, ?_, ?_⟩
  · rw [hl]
    show q.mNumberOfEntries = _
    omega
  · omega
  · rw [hl, show filled.length + 1 + rest.length = filled.length + (rest.length + 1) by omega]
    exact hnext
  · show pushBack _ _ _ = _
    rw [pushBack_of_lt (by rw [h.filledIds, length_ids]; omega), h.filledIds, hl, ids_succ_last]
  · rw [hfront, ids_succ] at hids
    show tail = _
    rw [(List.cons.inj hids).2, hl, Nat.add_assoc]
  · show q.mPushing = _
    rw [h.pushingIds, hl, List.length_cons,
      show first + filled.length + (rest.length + 1 - k) = first + (filled.length + 1) + (rest.length - k) by omega]
  · intro i e' hi
    exact h.entries i e' (by rwa [List.append_assoc, List.singleton_append] at hi)
  · intro e' he'
    exact h.live e' (by rwa [List.append_assoc, List.singleton_append] at he')
  · intro id hid hne
    rw [hl] at hne
    exact h.free id hid (fun i hi => hne i (by rw [List.length_cons] at hi; omega))

theorem removeFromFilledQueue_spec {e : Entry} {rest : List Entry}
    (h : Represents MAX_SUPERPAGES q first (e :: rest) arrivals k) :
    ∃ q', q.removeFromFilledQueue = .ok (e, q') ∧ Represents MAX_SUPERPAGES q' (first + 1) rest arrivals k := by
  have hcount := h.count
  have hfits := h.fits
  have hnext := h.next
  have hids := h.filledIds
  rw [List.length_cons] at hcount hfits hnext hids
  rw [ids_succ] at hids
  have hget := getEntry_of h (i := 0) (e := e) rfl
  rw [Nat.add_zero] at hget
  have hshift : first + 1 + rest.length = first + (e :: rest).length := by rw [List.length_cons]; omega
  refine ⟨_, by simp only [removeFromFilledQueue, hids, hget]; rfl, ?_⟩
  refine ⟨?_, by omega, ?_, rfl, ?_, ?_, h.le, ?_, ?_, ?_⟩
  · show q.mNumberOfEntries - 1 = _
    omega
  · show q.mNextId = _
    rw [hnext, show first + (rest.length + 1 + arrivals.length) = first + 1 + (rest.length + arrivals.length) by omega]
  · rw [hshift]
    exact h.arrivalIds
  · rw [hshift]
    exact h.pushingIds
  · intro i e' hi
    have hlt : i < rest.length + arrivals.length := by
      have := (List.getElem?_eq_some_iff.1 hi).1
      simpa using this
    show Function.update q.mRegistry _ _ _ = e'
    rw [show first + 1 + i = first + (i + 1) by omega]
    rw [Function.update_of_ne]
    · exact h.entries (i + 1) e' (by rw [List.cons_append, List.getElem?_cons_succ]; exact hi)
    · intro heq
      rw [← Nat.add_zero first, Nat.add_assoc, Nat.zero_add] at heq
      have := @id_inj _ first (i + 1) 0 _ hfits (by omega) (by omega) heq
      omega
  · intro e' he'
    exact h.live e' (List.mem_cons_of_mem _ he')
  · intro id hid hne
    show (Function.update q.mRegistry (first % MAX_SUPERPAGES) e.reset id).isValid = false
    by_cases hid0 : id = first % MAX_SUPERPAGES
    · rw [hid0, Function.update_self]
      rfl
    · rw [Function.update_of_ne hid0]
      refine h.free id hid (fun i hi => ?_)
      rw [List.length_cons] at hi
      cases i with
      | zero => exact fun heq => hid0 heq.symm
      | succ i =>
        rw [show first + (i + 1) = first + 1 + i by omega]
        exact hne i (by omega)

/-! ## What the buffers of ids refer to -/

theorem map_ids {reg : Nat → Entry} : ∀ (first : Nat) (es : List Entry),
    (∀ i e, es[i]? = some e → reg ((first + i) % MAX_SUPERPAGES) = e) →
      (ids MAX_SUPERPAGES first es.length).map reg = es
  | _, [], _ => rfl
  | first, e :: es, h => by
    rw [List.length_cons, ids_succ, List.map_cons, map_ids (first + 1) es (fun i e' he => by
      rw [Nat.add_assoc, Nat.add_comm 1 i]
      exact h (i + 1) e' he)]
    rw [show reg (first % MAX_SUPERPAGES) = e from h 0 e rfl]

theorem Represents.entries_filled (h : Represents MAX_SUPERPAGES q first filled arrivals k) :
    q.entries q.mFilled = filled := by
  rw [SuperpageQueue.entries, h.filledIds]
  refine map_ids first filled (fun i e he => h.entries i e ?_)
  rw [List.getElem?_append_left (List.getElem?_eq_some_iff.1 he).1, he]

theorem Represents.entries_arrivals (h : Represents MAX_SUPERPAGES q first filled arrivals k) :
    q.entries q.mArrivals = arrivals := by
  rw [SuperpageQueue.entries, h.arrivalIds]
  refine map_ids _ arrivals (fun i e he => ?_)
  rw [Nat.add_assoc]
  refine h.entries _ e ?_
  rw [List.getElem?_append_right (Nat.le_add_right _ _), Nat.add_sub_cancel_left, he]

end SuperpageQueue
end Rorc
end Flp
