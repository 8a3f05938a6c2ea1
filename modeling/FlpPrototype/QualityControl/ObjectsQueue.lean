import FlpPrototype.Lib.Run
import Mathlib.Data.List.Nodup
import Mathlib.Data.List.Perm.Basic
import Mathlib.Data.String.Basic
/-!
# ObjectsQueue — the queue of objects for the database

`MySqlDatabase::store` takes an object over and queues it under its task; every so often the whole queue is stored, a
statement for each task in the order of their names.  A task's objects are deleted once its statement was processed, but
they leave the queue with all others, at the end.  An exception before that ends the call.  An object that is used or
deleted after it was deleted has no result here.  So each object is owned once as long as a flush that throws has not
stored a task before (`owned_iff`).
-/
namespace Flp
namespace QualityControl

/-- The results for a task: the error code of `Statement`, if any; whether the table is created then; and the error
code of the second `Statement`. -/
structure Statements where
  first : Option Int
  create : Bool
  second : Option Int
  deriving DecidableEq, Repr

/-- There is a statement in the end.  Code 1146 is "table does not exist". -/
def Statements.prepared (r : Statements) : Bool :=
  match r.first with
  | none      => true
  | some code => if code = 1146 then r.create && r.second.isNone else false

/-- The queue by task, in order, and its size; whether there is a server; how many objects were given.  The objects of
the statements processed and the objects deleted are recorded beside. -/
structure State (N : Type) where
  mObjectsQueue : List (N × List Nat)
  queueSize : Nat
  mServer : Bool
  stored : Nat
  processed : List Nat
  deleted : List Nat
  deriving DecidableEq, Repr

variable {N : Type}

def start : State N := ⟨[], 0, true, 0, [], []⟩

def State.queued (s : State N) : List Nat := s.mObjectsQueue.flatMap Prod.snd

/-! ## Storing -/

/-- An object is deleted, if it was not. -/
def deleteObject (s : State N) (mo : Nat) : Option (State N) :=
  if mo ∈ s.deleted then none else some { s with deleted := s.deleted ++ [mo] }

/-- `storeForTask`, `objects` being a copy of the vector of the task, and whether it throws. -/
def storeForTask (r : Statements) (objects : List Nat) (s : State N) : Option (State N × Bool) :=
  if objects = [] then some (s, false)
  else if !s.mServer then none
  else if !r.prepared then some (s, true)
  -- each object is written into the statement
  else if ∃ mo ∈ objects, mo ∈ s.deleted then none
  else (objects.foldlM deleteObject { s with processed := s.processed ++ objects }).map fun s => (s, false)

/-- The loop over the tasks, and whether it ends with an exception. -/
def storeTasks (rs : N → Statements) : List (N × List Nat) → State N → Option (State N × Bool)
  | [], s              => some (s, false)
  | (task, objects) :: kvs, s => (storeForTask (rs task) objects s).bind fun (s, throws) =>
    if throws then some (s, true) else storeTasks rs kvs s

/-- `storeQueue`, and whether it throws. -/
def storeQueue (rs : N → Statements) (s : State N) : Option (State N × Bool) :=
  (storeTasks rs s.mObjectsQueue s).map fun (s, throws) =>
    if throws then (s, true) else ({ s with mObjectsQueue := [], queueSize := 0 }, false)

variable [LinearOrder N]

/-- `mObjectsQueue[taskName].push_back(mo)`. -/
def pushBack (taskName : N) (mo : Nat) : List (N × List Nat) → List (N × List Nat)
  | []                => [(taskName, [mo])]
  | (t, objects) :: m =>
    if taskName < t then (taskName, [mo]) :: (t, objects) :: m
    else if taskName = t then (t, objects ++ [mo]) :: m
    else (t, objects) :: pushBack taskName mo m

def enqueue (taskName : N) (s : State N) : State N :=
  { s with
    mObjectsQueue := pushBack taskName s.stored s.mObjectsQueue, queueSize := s.queueSize + 1, stored := s.stored + 1 }

/-- A call: `store` of the next object, of the task given, `late` telling that the timer is past 10 s; and
`disconnect`. -/
inductive Step (N : Type) where
  | store (taskName : N) (late : Bool) (rs : N → Statements)
  | disconnect (rs : N → Statements)

/-- `store`; what it throws is caught by `Checker::store`. -/
def store (taskName : N) (late : Bool) (rs : N → Statements) (s : State N) : Option (State N) :=
  let s := enqueue taskName s
  if 100 < s.queueSize ∨ late = true then (storeQueue rs s).map Prod.fst else some s

def disconnect (rs : N → Statements) (s : State N) : Option (State N) :=
  (storeQueue rs s).map fun (s, throws) => if throws then s else { s with mServer := false }

def step (s : State N) : Step N → Option (State N)
  | .store taskName late rs => store taskName late rs s
  | .disconnect rs          => disconnect rs s

/-! ## What is asked of the server -/

/-- The queue can be stored without an exception behind a task that was stored: the first task fails, or none does. -/
def Flushes (rs : N → Statements) (s : State N) : Prop :=
  (s.mObjectsQueue ≠ [] → s.mServer = true) ∧
    ∀ kv ∈ s.mObjectsQueue.head?, (rs kv.1).prepared = true → ∀ kv' ∈ s.mObjectsQueue, (rs kv'.1).prepared = true

def Clean (s : State N) : Step N → Prop
  | .store taskName late rs =>
    100 < (enqueue taskName s).queueSize ∨ late = true → Flushes rs (enqueue taskName s)
  | .disconnect rs          => Flushes rs s

/-- The objects that were not processed are in the queue, and no others; `queueSize` is their number; and none is
deleted or submitted twice. -/
structure Owned (s : State N) : Prop where
  kept : ∀ mo < s.stored, mo ∉ s.processed → mo ∈ s.queued
  pending : ∀ mo ∈ s.queued, mo ∉ s.processed
  size : s.queueSize = s.queued.length
  submitted : s.processed.Nodup
  deleted : s.deleted.Nodup

/-! ## A flush -/

section
omit [LinearOrder N]

theorem foldlM_deleteObject : ∀ {objects : List Nat} {s : State N}, (s.deleted ++ objects).Nodup →
    objects.foldlM deleteObject s = some { s with deleted := s.deleted ++ objects }
  | [], s, _ => by
    rw [List.append_nil]
    rfl
  | mo :: objects, s, h => by
    have hmo : mo ∉ s.deleted := fun hm => (List.nodup_append.1 h).2.2 mo hm mo List.mem_cons_self rfl
    have hrest : ((s.deleted ++ [mo]) ++ objects).Nodup := by rwa [List.append_assoc]
    have hstep : (mo :: objects).foldlM deleteObject s =
        objects.foldlM deleteObject { s with deleted := s.deleted ++ [mo] } := by
      rw [List.foldlM_cons, deleteObject, if_neg hmo]
      rfl
    rw [hstep, foldlM_deleteObject hrest, List.append_assoc]
    rfl

/-- The state behind tasks that were stored. -/
def afterTasks (kvs : List (N × List Nat)) (s : State N) : State N :=
  { s with processed := s.processed ++ kvs.flatMap Prod.snd, deleted := s.deleted ++ kvs.flatMap Prod.snd }

theorem storeForTask_prepared {r : Statements} {objects : List Nat} {s : State N} (hr : r.prepared = true)
    (hserver : s.mServer = true) (halive : (s.deleted ++ objects).Nodup) :
    storeForTask r objects s =
      some ({ s with processed := s.processed ++ objects, deleted := s.deleted ++ objects }, false) := by
  unfold storeForTask
  by_cases hempty : objects = []
  · subst hempty
    rw [if_pos rfl, List.append_nil, List.append_nil]
  · have hfresh : ¬ ∃ mo ∈ objects, mo ∈ s.deleted := fun ⟨mo, hmo, hdel⟩ =>
      (List.nodup_append.1 halive).2.2 mo hdel mo hmo rfl
    have hconnected : ¬ (!s.mServer) = true := by rw [hserver]; decide
    have hdelete := foldlM_deleteObject (s := { s with processed := s.processed ++ objects }) halive
    rw [if_neg hempty, if_neg hconnected, hr, if_neg (by decide), if_neg hfresh, hdelete]
    rfl

theorem storeForTask_throws {r : Statements} {objects : List Nat} {s : State N} (hr : ¬ r.prepared = true)
    (hserver : s.mServer = true) (hne : objects ≠ []) : storeForTask r objects s = some (s, true) := by
  unfold storeForTask
  rw [if_neg hne, hserver, if_neg (by decide), Bool.eq_false_iff.2 hr]
  rfl

/-- **The loop over the tasks**: those that are prepared are stored one after the other. -/
theorem storeTasks_append {rs : N → Statements} (rest : List (N × List Nat)) : ∀ {kvs : List (N × List Nat)}
    {s : State N}, (∀ kv ∈ kvs, (rs kv.1).prepared = true) → s.mServer = true →
    (s.deleted ++ kvs.flatMap Prod.snd).Nodup → storeTasks rs (kvs ++ rest) s = storeTasks rs rest (afterTasks kvs s)
  | [], s, _, _, _ => by simp [afterTasks]
  | (task, objects) :: kvs, s, hprepared, hserver, halive => by
    rw [List.flatMap_cons, ← List.append_assoc] at halive
    have hfirst := storeForTask_prepared (hprepared _ List.mem_cons_self) hserver (List.nodup_append.1 halive).1
    have hothers :=
      storeTasks_append (s := { s with processed := s.processed ++ objects, deleted := s.deleted ++ objects })
      rest (fun kv hkv => hprepared kv (List.mem_cons_of_mem _ hkv)) hserver halive
    rw [List.cons_append, storeTasks, hfirst, Option.bind_some]
    dsimp only
    rw [if_neg (by decide), hothers]
    simp [afterTasks, List.append_assoc]

theorem storeTasks_throws {rs : N → Statements} {kv : N × List Nat} (kvs : List (N × List Nat)) {s : State N}
    (hthrows : ¬ (rs kv.1).prepared = true) (hserver : s.mServer = true) (hne : kv.2 ≠ []) :
    storeTasks rs (kv :: kvs) s = some (s, true) := by
  rw [storeTasks, storeForTask_throws hthrows hserver hne]
  rfl

/-- What holds between the calls: an object that was given was processed or is in the queue. -/
structure Inv (s : State N) : Prop where
  owned : (s.processed ++ s.queued).Perm (List.range s.stored)
  deleted : s.deleted = s.processed
  size : s.queueSize = s.queued.length
  nonempty : ∀ kv ∈ s.mObjectsQueue, kv.2 ≠ []

variable {s : State N}

theorem Inv.alive (hi : Inv s) : (s.deleted ++ s.queued).Nodup := by
  rw [hi.deleted]
  exact hi.owned.nodup_iff.2 List.nodup_range

theorem Inv.toOwned (hi : Inv s) : Owned s := by
  have hnodup := hi.owned.nodup_iff.2 List.nodup_range
  refine ⟨fun mo hlt hnot => ?_, fun mo hqueued hprocessed => ?_, hi.size, ?_, ?_⟩
  · exact (List.mem_append.1 (hi.owned.symm.subset (List.mem_range.2 hlt))).resolve_left hnot
  · exact (List.nodup_append.1 hnodup).2.2 mo hprocessed mo hqueued rfl
  · exact (List.nodup_append.1 hnodup).1
  · exact (List.nodup_append.1 hi.alive).1

theorem Inv.storeQueue_all (hi : Inv s) {rs : N → Statements} (hserver : s.mServer = true)
    (hall : ∀ kv ∈ s.mObjectsQueue, (rs kv.1).prepared = true) :
    ∃ s', storeQueue rs s = some (s', false) ∧ Inv s' ∧ s'.mServer = true := by
  have hloop : storeTasks rs s.mObjectsQueue s = some (afterTasks s.mObjectsQueue s, false) := by
    have h := storeTasks_append [] hall hserver hi.alive
    rwa [List.append_nil, storeTasks] at h
  refine ⟨{ afterTasks s.mObjectsQueue s with mObjectsQueue := [], queueSize := 0 }, ?_, ?_, hserver⟩
  · rw [storeQueue, hloop]
    rfl
  · refine ⟨?_, ?_, rfl, nofun⟩
    · show (s.processed ++ s.queued ++ []).Perm (List.range s.stored)
      rw [List.append_nil]
      exact hi.owned
    · show s.deleted ++ s.queued = s.processed ++ s.queued
      rw [hi.deleted]

/-- **A flush that is clean** leaves an object processed, or in the queue. -/
theorem Inv.storeQueue (hi : Inv s) {rs : N → Statements} (hflush : Flushes rs s) :
    ∃ s' throws, storeQueue rs s = some (s', throws) ∧ Inv s' := by
  cases hqueue : s.mObjectsQueue with
  | nil =>
    have hnil : storeTasks rs s.mObjectsQueue s = some (s, false) := by rw [hqueue, storeTasks]
    refine ⟨{ s with mObjectsQueue := [], queueSize := 0 }, false, by rw [QualityControl.storeQueue, hnil]; rfl, ?_⟩
    have hsize := hi.size
    have howned := hi.owned
    rw [State.queued, hqueue] at hsize howned
    exact ⟨howned, hi.deleted, rfl, nofun⟩
  | cons kv kvs =>
    have hserver := hflush.1 (by rw [hqueue]; exact List.cons_ne_nil kv kvs)
    by_cases hfirst : (rs kv.1).prepared = true
    · obtain ⟨s', hs', hi', -⟩ := hi.storeQueue_all hserver (hflush.2 kv (by rw [hqueue]; rfl) hfirst)
      exact ⟨s', false, hs', hi'⟩
    · have hthrows := storeTasks_throws kvs hfirst hserver
        (hi.nonempty kv (by rw [hqueue]; exact List.mem_cons_self))
      refine ⟨s, true, ?_, hi⟩
      rw [QualityControl.storeQueue, hqueue, hthrows]
      rfl

/-- A flush that is not clean leaves processed objects in the queue. -/
theorem Inv.not_storeQueue (hi : Inv s) {rs : N → Statements} (hflush : ¬ Flushes rs s) {s' : State N} {throws : Bool}
    (h : QualityControl.storeQueue rs s = some (s', throws)) : throws = true ∧ ¬ Owned s' := by
  cases hqueue : s.mObjectsQueue with
  | nil => exact absurd ⟨fun hn => absurd hqueue hn, by rw [hqueue]; exact nofun⟩ hflush
  | cons kv kvs =>
    have hne := hi.nonempty kv (by rw [hqueue]; exact List.mem_cons_self)
    cases hserver : s.mServer with
    | false =>
      have hnone : storeTasks rs s.mObjectsQueue s = none := by
        rw [hqueue, storeTasks, storeForTask, if_neg hne, hserver]
        rfl
      rw [QualityControl.storeQueue, hnone] at h
      cases h
    | true =>
      -- the tasks before the first one that throws
      obtain ⟨pre, bad, post, hsplit, hpre, hbad⟩ : ∃ pre bad post, s.mObjectsQueue = pre ++ bad :: post ∧
          (∀ kv ∈ pre, (rs kv.1).prepared = true) ∧ ¬ (rs bad.1).prepared = true := by
        obtain ⟨kv', hkv', hfails⟩ : ∃ kv' ∈ s.mObjectsQueue, ¬ (rs kv'.1).prepared = true := by
          by_contra hall
          exact hflush ⟨fun _ => hserver, fun _ _ _ kv' hkv' => by_contra fun hn => hall ⟨kv', hkv', hn⟩⟩
        obtain ⟨bad, hbad⟩ : ∃ bad, s.mObjectsQueue.find? (fun kv => !(rs kv.1).prepared) = some bad :=
          Option.isSome_iff_exists.1 (List.find?_isSome.2 ⟨kv', hkv', by simpa using hfails⟩)
        obtain ⟨hnot, pre, post, hsplit, hpre⟩ := List.find?_eq_some_iff_append.1 hbad
        exact ⟨pre, bad, post, hsplit, fun kv hkv => by simpa using hpre kv hkv, by simpa using hnot⟩
      have hmem : ∀ kv ∈ pre, kv ∈ s.mObjectsQueue := fun kv hkv => by
        rw [hsplit]
        exact List.mem_append_left _ hkv
      have hqueued : s.queued = pre.flatMap Prod.snd ++ (bad :: post).flatMap Prod.snd := by
        rw [State.queued, hsplit, List.flatMap_append]
      have halive : (s.deleted ++ pre.flatMap Prod.snd).Nodup := by
        have h := hi.alive
        rw [hqueued, ← List.append_assoc] at h
        exact (List.nodup_append.1 h).1
      have hloop : storeTasks rs s.mObjectsQueue s = some (afterTasks pre s, true) := by
        rw [hsplit, storeTasks_append (bad :: post) hpre hserver halive]
        exact storeTasks_throws _ hbad hserver (hi.nonempty bad (by rw [hsplit]; simp))
      rw [QualityControl.storeQueue, hloop] at h
      obtain ⟨rfl, rfl⟩ := Prod.mk.inj (Option.some.inj h)
      refine ⟨rfl, fun howned => ?_⟩
      -- one was stored, else the first task throws
      cases pre with
      | nil =>
        refine hflush ⟨fun _ => hserver, fun kv hkv hprepared => ?_⟩
        rw [hsplit] at hkv
        obtain rfl := Option.some.inj hkv
        exact absurd hprepared hbad
      | cons first pre =>
        obtain ⟨mo, hmo⟩ := List.exists_mem_of_ne_nil _ (hi.nonempty first (hmem first List.mem_cons_self))
        have hin : mo ∈ (first :: pre).flatMap Prod.snd :=
          List.mem_flatMap.2 ⟨first, List.mem_cons_self, hmo⟩
        refine howned.pending mo ?_ (List.mem_append_right _ hin)
        show mo ∈ s.queued
        rw [hqueued]
        exact List.mem_append_left _ hin

end

/-! ## The calls -/

theorem pushBack_perm (taskName : N) (mo : Nat) : ∀ m : List (N × List Nat),
    ((pushBack taskName mo m).flatMap Prod.snd).Perm (m.flatMap Prod.snd ++ [mo])
  | [] => List.Perm.refl _
  | (t, objects) :: m => by
    unfold pushBack
    split
    · exact (List.perm_append_singleton mo _).symm
    · split
      · rw [List.flatMap_cons, List.flatMap_cons, List.append_assoc, List.append_assoc]
        exact List.Perm.append_left objects List.perm_append_comm
      · rw [List.flatMap_cons, List.flatMap_cons, List.append_assoc]
        exact List.Perm.append_left objects (pushBack_perm taskName mo m)

theorem pushBack_nonempty (taskName : N) (mo : Nat) : ∀ {m : List (N × List Nat)}, (∀ kv ∈ m, kv.2 ≠ []) →
    ∀ kv ∈ pushBack taskName mo m, kv.2 ≠ []
  | [], _, kv, hkv => by
    rw [List.mem_singleton.1 hkv]
    exact List.cons_ne_nil _ _
  | (t, objects) :: m, h, kv, hkv => by
    unfold pushBack at hkv
    split at hkv
    · rcases List.mem_cons.1 hkv with rfl | hkv
      · exact List.cons_ne_nil _ _
      · exact h kv hkv
    · split at hkv
      · rcases List.mem_cons.1 hkv with rfl | hkv
        · exact List.append_ne_nil_of_right_ne_nil objects (List.cons_ne_nil mo [])
        · exact h kv (List.mem_cons_of_mem _ hkv)
      · rcases List.mem_cons.1 hkv with rfl | hkv
        · exact h _ List.mem_cons_self
        · exact pushBack_nonempty taskName mo (fun kv hkv => h kv (List.mem_cons_of_mem _ hkv)) kv hkv

variable {s : State N}

theorem Inv.enqueue (hi : Inv s) (taskName : N) : Inv (enqueue taskName s) := by
  have hperm := pushBack_perm taskName s.stored s.mObjectsQueue
  refine ⟨?_, hi.deleted, ?_, pushBack_nonempty taskName s.stored hi.nonempty⟩
  · show (s.processed ++ (pushBack taskName s.stored s.mObjectsQueue).flatMap Prod.snd).Perm (List.range (s.stored + 1))
    rw [List.range_succ]
    refine (List.Perm.append_left s.processed hperm).trans ?_
    rw [← List.append_assoc]
    exact hi.owned.append_right [s.stored]
  · show s.queueSize + 1 = ((pushBack taskName s.stored s.mObjectsQueue).flatMap Prod.snd).length
    rw [hperm.length_eq, List.length_append, hi.size]
    rfl

/-- **A call that is clean** leaves an object processed, or in the queue. -/
theorem Inv.step (hi : Inv s) {a : Step N} (hclean : Clean s a) : ∃ s', step s a = some s' ∧ Inv s' := by
  cases a with
  | store taskName late rs =>
    show ∃ s', store taskName late rs s = some s' ∧ Inv s'
    unfold store
    dsimp only
    split
    · rename_i hflush
      obtain ⟨s', throws, hs', hi'⟩ := (hi.enqueue taskName).storeQueue (hclean hflush)
      exact ⟨s', by rw [hs']; rfl, hi'⟩
    · exact ⟨_, rfl, hi.enqueue taskName⟩
  | disconnect rs =>
    obtain ⟨s', throws, hs', hi'⟩ := hi.storeQueue hclean
    refine ⟨_, Option.map_eq_some_iff.2 ⟨_, hs', rfl⟩, ?_⟩
    dsimp only
    split
    · exact hi'
    · exact ⟨hi'.owned, hi'.deleted, hi'.size, hi'.nonempty⟩

/-- A call that is not clean does not. -/
theorem Inv.not_step (hi : Inv s) {a : Step N} (hclean : ¬ Clean s a) {s' : State N}
    (h : QualityControl.step s a = some s') : ¬ Owned s' := by
  cases a with
  | store taskName late rs =>
    obtain ⟨hflush, hnot⟩ := Classical.not_imp.1 hclean
    have hstore : store taskName late rs s = some s' := h
    unfold store at hstore
    dsimp only at hstore
    rw [if_pos hflush] at hstore
    obtain ⟨⟨s₁, throws⟩, h₁, rfl⟩ := Option.map_eq_some_iff.1 hstore
    exact ((hi.enqueue taskName).not_storeQueue hnot h₁).2
  | disconnect rs =>
    have hdisconnect : disconnect rs s = some s' := h
    obtain ⟨⟨s₁, throws⟩, h₁, rfl⟩ := Option.map_eq_some_iff.1 hdisconnect
    obtain ⟨rfl, hnot⟩ := hi.not_storeQueue hclean h₁
    exact hnot

omit [LinearOrder N] in
theorem inv_start : Inv (start : State N) := ⟨List.Perm.refl _, rfl, rfl, nofun⟩

/-- **Each object is owned once**, at every point of a run of calls, exactly when no flush throws behind a task it has
stored. -/
theorem owned_iff (as : List (Step N)) :
    (∀ bs, bs <+: as → ∃ s, run step start bs = some s ∧ Owned s) ↔ Legal step Clean start as :=
  forall_prefix_iff_legal (fun _ hi => hi.toOwned) (fun _ _ hi hclean => hi.step hclean)
    (fun _ _ _ hi hclean h => hi.not_step hclean h) as start inv_start

/-- Objects of two tasks, and a flush in which the statement of the second fails; then the flush again. -/
def secondFails : List (Step String) :=
  [.store "a" false fun _ => ⟨none, true, none⟩,
    .store "b" true fun task => if task = "b" then ⟨some 2006, true, none⟩ else ⟨none, true, none⟩,
    .disconnect fun _ => ⟨none, true, none⟩]

/-- The object of the first task is used after it was deleted. -/
theorem secondFails_uses_deleted :
    run step start secondFails = none ∧
      ¬ ∀ bs, bs <+: secondFails → ∃ s, run step start bs = some s ∧ Owned s := by
  have hnone : run step start secondFails = none := by decide +kernel
  refine ⟨hnone, fun h => ?_⟩
  obtain ⟨s, hs, -⟩ := h secondFails List.prefix_rfl
  rw [hnone] at hs
  cases hs

end QualityControl
end Flp
