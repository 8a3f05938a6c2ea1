import FlpPrototype.Control.Watch
import FlpPrototype.Lib.Places
import FlpPrototype.Lib.Run
/-!
# Delivery — what becomes of a command, and what an object is called for

Each machine goes on by itself but for the events and the threads they share, so the invariant of the system is that of
each machine (`Inv`).  With what `Handled` knows of the requests and `Watch` of the children this gives the results on
whole runs: an object is called as its lifecycle has it (`lifecycle_kept`), for commands that were sent to it
(`methods_called`), and no command stays behind (`commands_accounted`).
-/
namespace Flp
namespace Control

/-! ## Whole runs -/

namespace System

variable {s s' : System} {o : Nat} {m m' : Machine}

/-- Where the thread that handles events is at a machine. -/
def stageOf (watcher : Option (Nat × Stage)) (o : Nat) : Option Stage :=
  watcher.bind fun w => if w.1 = o then some w.2 else none

structure Inv (s : System) : Prop where
  machine : ∀ (o : Nat) m, s.machines[o]? = some m →
    m.Handled (stageOf s.watcher o) ∧ m.Watched (o ∈ s.events) (stageOf s.watcher o)
  watcher : ∀ w ∈ s.watcher, w.1 < s.machines.length
  events : ∀ o ∈ s.events, o < s.machines.length
  subscribed : ∀ (o : Nat) m, s.machines[o]? = some m → m.phase = .subscribe →
    m.node.watched = false ∧ o ∉ s.events ∧ stageOf s.watcher o = none
  locked : s.engine ≠ none → ∀ m ∈ s.machines, m.phase = .registered

theorem inv_start : Inv start where
  machine := fun o m h => by cases h
  watcher := fun w h => by cases h
  events := fun o h => by cases h
  subscribed := fun o m h => by cases h
  locked := fun h => absurd rfl h

theorem mem_events : o ∈ (s.goOn o m m').events ↔ o ∈ s.events ∨ Machine.Used m m' := by
  unfold goOn Machine.Used
  cases m.node.watched <;> cases m'.node.watched <;> simp

theorem mem_events_other {j : Nat} (hj : j ≠ o) : j ∈ (s.goOn o m m').events ↔ j ∈ s.events := by
  unfold goOn
  simp only
  split
  · simp [hj]
  · exact Iff.rfl

/-- **One machine goes on**, and the handler with it or not at all. -/
theorem Inv.goOn (h : Inv s) (hm : s.machines[o]? = some m) {stage' : Option Stage} (hh : m'.Handled stage')
    (hw : m'.Watched (o ∈ s.events ∨ Machine.Used m m') stage') {watcher : Option (Nat × Stage)} {engine : Option Nat}
    (hstage : ∀ j, stageOf watcher j = if j = o then stage' else stageOf s.watcher j)
    (hwatcher : ∀ w ∈ watcher, w.1 = o ∨ w ∈ s.watcher)
    (hsubscribe : m'.phase = .subscribe → m'.node.watched = false ∧ o ∉ s.events ∧ stage' = none ∧
      m.node.watched = false)
    (hphase : m.phase = .registered → m'.phase = .registered) (hengine : engine ≠ none → s.engine ≠ none) :
    Inv { s.goOn o m m' with watcher, engine } := by
  have hlt : o < s.machines.length := (List.getElem?_eq_some_iff.1 hm).1
  have hlength : (s.machines.set o m').length = s.machines.length := List.length_set
  refine ⟨fun j x hx => ?_, fun w hw' => ?_, fun j hj => ?_, fun j x hx hphase' => ?_, fun he x hx => ?_⟩
  · rw [show stageOf ({ s.goOn o m m' with watcher, engine } : System).watcher j = _ from hstage j]
    rcases getElem?_set_cases hx with ⟨rfl, rfl⟩ | ⟨hj, hx⟩
    · rw [if_pos rfl]
      exact ⟨hh, hw.mono mem_events.2⟩
    · rw [if_neg hj]
      exact (h.machine j x hx).imp_right fun hx => hx.mono (mem_events_other hj).2
  · show w.1 < (s.machines.set o m').length
    rw [hlength]
    rcases hwatcher w hw' with he | he
    · exact he ▸ hlt
    · exact h.watcher w he
  · show j < (s.machines.set o m').length
    rw [hlength]
    by_cases hjo : j = o
    · exact hjo ▸ hlt
    · exact h.events j ((mem_events_other hjo).1 hj)
  · rw [show stageOf ({ s.goOn o m m' with watcher, engine } : System).watcher j = _ from hstage j]
    rcases getElem?_set_cases hx with ⟨rfl, rfl⟩ | ⟨hj, hx⟩
    · obtain ⟨hunwatched, hnot, hstage', hm'⟩ := hsubscribe hphase'
      rw [if_pos rfl]
      refine ⟨hunwatched, fun he => (mem_events.1 he).elim hnot fun hu => ?_, hstage'⟩
      exact Bool.noConfusion (hm'.symm.trans hu.1)
    · rw [if_neg hj]
      obtain ⟨hunwatched, hnot, hnone⟩ := h.subscribed j x hx hphase'
      exact ⟨hunwatched, fun he => hnot ((mem_events_other hj).1 he), hnone⟩
  · obtain ⟨j, hj⟩ := List.mem_iff_getElem?.1 hx
    rcases getElem?_set_cases hj with ⟨rfl, rfl⟩ | ⟨-, hj⟩
    · exact hphase (h.locked (hengine he) m (List.mem_of_getElem? hm))
    · exact h.locked (hengine he) x (List.mem_of_getElem? hj)

/-- One machine goes on, and not the handler. -/
theorem Inv.goOn_alone (h : Inv s) (hm : s.machines[o]? = some m) (hh : m'.Handled (stageOf s.watcher o))
    (hw : m'.Watched (o ∈ s.events ∨ Machine.Used m m') (stageOf s.watcher o)) {engine : Option Nat}
    (hsubscribe : m'.phase = .subscribe → m.phase = .subscribe ∧ m'.node.watched = false)
    (hphase : m.phase = .registered → m'.phase = .registered) (hengine : engine ≠ none → s.engine ≠ none) :
    Inv { s.goOn o m m' with engine } := by
  refine h.goOn hm hh hw (fun j => ?_) (fun w hw' => .inr hw') (fun hs => ?_) hphase hengine
  · split
    next hj =>
      rw [hj]
      rfl
    next => rfl
  · obtain ⟨hphase', hunwatched⟩ := hsubscribe hs
    obtain ⟨hm', hnot, hnone⟩ := h.subscribed o m hm hphase'
    exact ⟨hunwatched, hnot, hnone, hm'⟩

theorem inv_registerObject (h : Inv s) {left : List String} (hs : s.step (.registerObject left) = some s') :
    Inv s' := by
  obtain ⟨⟨hengine, hall⟩, hs⟩ := Option.ite_none_right_eq_some.1 hs
  cases hs
  have hlength : (s.machines ++ [Machine.new left]).length = s.machines.length + 1 := List.length_append
  -- nothing is known of the new machine's number yet
  have hstage : stageOf s.watcher s.machines.length = none := by
    cases hw : s.watcher with
    | none => rfl
    | some w =>
      have := h.watcher w hw
      exact if_neg (Nat.ne_of_lt this)
  have hevents : s.machines.length ∉ s.events := fun hmem => Nat.lt_irrefl _ (h.events _ hmem)
  refine ⟨fun j x hx => ?_, fun w hw => ?_, fun j hj => ?_, fun j x hx hphase => ?_, fun he => absurd hengine he⟩
  · rcases getElem?_concat_cases hx with hx | ⟨rfl, rfl⟩
    · exact h.machine j x hx
    · show (Machine.new left).Handled (stageOf s.watcher _) ∧ (Machine.new left).Watched _ (stageOf s.watcher _)
      rw [hstage]
      exact ⟨Machine.handled_new left, (Machine.watched_new left).mono False.elim⟩
  · show w.1 < (s.machines ++ [Machine.new left]).length
    rw [hlength]
    exact Nat.lt_succ_of_lt (h.watcher w hw)
  · show j < (s.machines ++ [Machine.new left]).length
    rw [hlength]
    exact Nat.lt_succ_of_lt (h.events j hj)
  · rcases getElem?_concat_cases hx with hx | ⟨rfl, rfl⟩
    · exact h.subscribed j x hx hphase
    · exact ⟨rfl, hevents, hstage⟩

theorem inv_register (h : Inv s) {a : Registering} (hs : s.step (.register a) = some s') : Inv s' := by
  obtain ⟨m, hm, hs⟩ := Option.bind_eq_some_iff.1 hs
  obtain ⟨m', hm', rfl⟩ := Option.map_eq_some_iff.1 hs
  rw [List.getLast?_eq_getElem?] at hm
  obtain ⟨hh, hw⟩ := h.machine _ m hm
  have hstage : stageOf s.watcher (s.machines.length - 1) = none ∨ m.phase ≠ .subscribe := by
    by_cases hp : m.phase = .subscribe
    · exact .inl (h.subscribed _ m hm hp).2.2
    · exact .inr hp
  obtain ⟨hp, hp'⟩ := Machine.register_phase hm'
  exact h.goOn_alone hm (hh.register hm') (hw.register hm' hstage) (fun he => absurd he hp') (fun he => absurd he hp) id

theorem inv_sendCommand (h : Inv s) {command : String} (hs : s.step (.sendCommand o command) = some s') : Inv s' := by
  obtain ⟨m, hm, rfl⟩ := Option.map_eq_some_iff.1 hs
  obtain ⟨hh, hw⟩ := h.machine _ m hm
  exact h.goOn_alone hm hh.node (hw.create command) (fun he => ⟨he, rfl⟩) id id

theorem inv_withdraw (h : Inv s) {child : Nat} (hs : s.step (.withdraw o child) = some s') : Inv s' := by
  obtain ⟨m, hm, hs⟩ := Option.bind_eq_some_iff.1 hs
  obtain ⟨-, hs⟩ := Option.ite_none_right_eq_some.1 hs
  cases hs
  obtain ⟨hh, hw⟩ := h.machine _ m hm
  exact h.goOn_alone hm hh.node (hw.withdraw child) (fun he => ⟨he, rfl⟩) id id

theorem inv_takeEvent (h : Inv s) (hs : s.step .takeEvent = some s') : Inv s' := by
  simp only [step] at hs
  split at hs
  next o events hwatcher hevents =>
    cases hs
    have hmem : ∀ j, j ≠ o → (j ∈ events ↔ j ∈ s.events) := fun j hj => by
      rw [hevents]
      simp [hj]
    have hnone : ∀ j, stageOf s.watcher j = none := fun j => by rw [hwatcher]; rfl
    have hstage : ∀ j, stageOf (some (o, .list)) j = if j = o then some .list else none := fun j => by
      by_cases hj : j = o
      · rw [hj, if_pos rfl]
        exact if_pos rfl
      · rw [if_neg hj]
        exact if_neg (Ne.symm hj)
    refine ⟨fun j x hx => ?_, fun w hw => ?_, fun j hj => h.events j (by rw [hevents]; exact List.mem_cons_of_mem _ hj),
      fun j x hx hphase => ?_, h.locked⟩
    · obtain ⟨hh, hw⟩ := h.machine j x hx
      rw [hnone j] at hh hw
      show x.Handled (stageOf (some (o, .list)) j) ∧ x.Watched (j ∈ events) (stageOf (some (o, .list)) j)
      rw [hstage j]
      by_cases hj : j = o
      · rw [if_pos hj]
        refine ⟨hh.moves ⟨(by rintro ⟨k, ks, he⟩; cases he), (by rintro ⟨k, ks, he⟩; cases he)⟩, ?_⟩
        exact { hw with awake := fun _ _ _ hl => absurd rfl hl }
      · rw [if_neg hj]
        exact ⟨hh, hw.mono (hmem j hj).2⟩
    · obtain rfl := Option.some.inj hw
      exact h.events o (by rw [hevents]; exact List.mem_cons_self)
    · obtain ⟨hunwatched, hnot, -⟩ := h.subscribed j x hx hphase
      have hj : j ≠ o := fun hj => hnot (by rw [hevents, hj]; exact List.mem_cons_self)
      refine ⟨hunwatched, fun hmem' => hnot ((hmem j hj).1 hmem'), ?_⟩
      show stageOf (some (o, .list)) j = none
      rw [hstage j, if_neg hj]
  next => cases hs

theorem inv_watch (h : Inv s) {a : Watching} (hs : s.step (.watch a) = some s') : Inv s' := by
  obtain ⟨w, hwatcher, hs⟩ := Option.bind_eq_some_iff.1 hs
  obtain ⟨m, hm, hs⟩ := Option.bind_eq_some_iff.1 hs
  obtain ⟨r, hr, rfl⟩ := Option.map_eq_some_iff.1 hs
  obtain ⟨m', stage'⟩ := r
  obtain ⟨o, st⟩ := w
  have hst : stageOf s.watcher o = some st := by rw [hwatcher]; exact if_pos rfl
  obtain ⟨hh, hw⟩ := h.machine o m hm
  rw [hst] at hh hw
  have hphase := Machine.watch_phase hr
  refine h.goOn hm (hh.watch hr) (hw.watch hr) (fun j => ?_) (fun w hw' => ?_) (fun he => ?_)
    (fun he => hphase.trans he) id
  · cases stage' with
    | none =>
      by_cases hj : j = o
      · exact (if_pos hj).symm
      · rw [if_neg hj, hwatcher]
        exact (if_neg (Ne.symm hj)).symm
    | some st' =>
      by_cases hj : j = o
      · rw [if_pos hj, hj]
        exact if_pos rfl
      · rw [if_neg hj, hwatcher]
        exact (if_neg (Ne.symm hj)).trans (if_neg (Ne.symm hj)).symm
  · obtain ⟨st', -, rfl⟩ := Option.map_eq_some_iff.1 hw'
    exact .inl rfl
  · have := (h.subscribed o m hm (hphase.symm.trans he)).2.2
    rw [hst] at this
    cases this

theorem inv_turn (h : Inv s) {a : Turning} (hs : s.step (.turn a) = some s') : Inv s' := by
  obtain ⟨o, hengine, hs⟩ := Option.bind_eq_some_iff.1 hs
  obtain ⟨m, hm, hs⟩ := Option.bind_eq_some_iff.1 hs
  obtain ⟨m', hm', rfl⟩ := Option.map_eq_some_iff.1 hs
  have hregistered := h.locked (by rw [hengine]; exact fun he => by cases he) m (List.mem_of_getElem? hm)
  obtain ⟨hh, hw⟩ := h.machine o m hm
  have hphase := Machine.turn_phase hm'
  refine h.goOn_alone hm (hh.turn hregistered hm') ((hw.turn hm').mono Or.inl) (fun he => ?_)
    (fun he => hphase.trans he)
    fun _ he => ?_
  · rw [hphase, hregistered] at he
    cases he
  · rw [hengine] at he
    cases he

/-- **A step of the system.** -/
theorem inv_step {a : Action} (h : Inv s) (hs : s.step a = some s') : Inv s' := by
  cases a with
  | registerObject left => exact inv_registerObject h hs
  | register a => exact inv_register h hs
  | sendCommand o command => exact inv_sendCommand h hs
  | withdraw o child => exact inv_withdraw h hs
  | takeEvent => exact inv_takeEvent h hs
  | watch a => exact inv_watch h hs
  | beginTurn =>
    obtain ⟨⟨-, hall⟩, hs⟩ := Option.ite_none_right_eq_some.1 hs
    cases hs
    exact ⟨h.machine, h.watcher, h.events, h.subscribed, fun _ => hall⟩
  | turn a => exact inv_turn h hs
  | endTurn =>
    obtain ⟨o, hengine, hs⟩ := Option.bind_eq_some_iff.1 hs
    obtain ⟨-, hs⟩ := Option.ite_none_right_eq_some.1 hs
    cases hs
    exact ⟨h.machine, h.watcher, h.events, h.subscribed, fun he => absurd rfl he⟩

theorem inv_run {as : List Action} (hr : run step start as = some s) : Inv s :=
  run_keeps (fun _ _ _ h _ hs => inv_step h hs) as start s inv_start (legal_true as start) hr

/-! ## What is promised -/

/-- **The lifecycle of an object**: in every run, whatever is sent, listed, read and returned, in whatever order the
threads go, the methods of a registered object are called as they are meant to be, one after the other from `standby`
on; after one that failed only `executeReset` is called, until it succeeds, and the check; and the published state is
the object's, unless the directory did not take it. -/
theorem lifecycle_kept {as : List Action} (hr : run step start as = some s) (hm : s.machines[o]? = some m)
    (hregistered : m.phase = .registered) :
    Lifecycle .standby m.object.history m.object.state ∧ m.object.Told ∧
      ∀ before c after, m.object.history = before ++ c :: after → c.err ≠ 0 →
        (∀ d ∈ after, d.callback = .executeReset → d.err ≠ 0) →
        m.object.state = .error ∧ ∀ d ∈ after, d.callback = .executeReset ∨ d.callback = .iterateCheck := by
  have hh := ((inv_run hr).machine o m hm).1
  have hl := hh.lifecycle hregistered
  exact ⟨hl, hh.told hregistered, fun before c after he hc hreset => hl.after_failed he hc hreset⟩

/-- **What a method is called for**: each call of a method for a command is for a command of its own, in the order they
were delivered, that a client has sent to this object and that names the method, cut to 127 bytes; and a command is
delivered at most once more than its delete has failed. -/
theorem methods_called {as : List Action} (hr : run step start as = some s) (hm : s.machines[o]? = some m) :
    (m.object.history.filterMap Called.request).Pairwise (· < ·) ∧
      (∀ c ∈ m.object.history, ∀ p ∈ c.request, ∃ k command value, m.delivered[p]? = some (k, command) ∧
        m.node.sent[k]? = some value ∧ command = String.ofList (value.toList.take 127) ∧
        c.callback.command = some command) ∧
      ∀ k, (m.delivered.map Prod.fst).count k ≤ 1 + m.node.undeleted.count k := by
  obtain ⟨hh, hw⟩ := (inv_run hr).machine o m hm
  obtain ⟨hprocessed, hlater⟩ := hh.processed
  refine ⟨?_, fun c hc p hp => ?_, fun k => ?_⟩
  · refine List.Pairwise.sublist ?_ hh.ordered
    exact hh.requests.trans ((hprocessed.sublist.map _).trans ((List.sublist_append_left _ _).map _))
  · obtain ⟨command, hcommand, hmem⟩ := hh.commands c hc p hp
    obtain ⟨k, hk⟩ := hh.calls _ (List.mem_append_left _ (List.mem_append_left _ (hprocessed.subset hmem)))
    obtain ⟨value, hvalue, he⟩ := hw.values _ (List.mem_of_getElem? hk)
    exact ⟨k, command, value, hk, hvalue, he, hcommand⟩
  · have := hw.once k
    rw [List.count_append] at this
    omega

/-- **No command stays behind**: whenever the handler has nothing to do for an object whose children could always be
listed, every command that was sent to it was delivered, or went with its client, or was purged at the subscription or
delivered before the object was made, or could not be read or deleted; every delivered command was accepted or refused
because one was pending; and the accepted ones are processed in order, all but at most one when the engine is between
two of them. -/
theorem commands_accounted {as : List Action} (hr : run step start as = some s) (hm : s.machines[o]? = some m)
    (hregistered : m.phase = .registered) (hwatcher : ∀ w ∈ s.watcher, w.1 ≠ o) (hevents : o ∉ s.events)
    (hdeaf : m.node.deaf = false) :
    (∀ k, k < m.node.sent.length → k ∈ m.delivered.map Prod.fst ∨ k ∈ m.node.withdrawn ∨ k ∈ m.node.purged ∨
      k ∈ m.node.ignored ∨ k ∈ m.node.unread ∨ k ∈ m.node.undeleted) ∧
      (∀ p x, m.delivered[p]? = some x → ⟨p, x.2⟩ ∈ m.fifo.accepted ++ m.fifo.rejected) ∧
      m.fifo.processed <+: m.fifo.accepted ∧
      (m.fifo.engine = .turn → m.fifo.accepted.length ≤ m.fifo.processed.length + 1) := by
  obtain ⟨hh, hw⟩ := (inv_run hr).machine o m hm
  have hstage : stageOf s.watcher o = none := by
    cases hs : s.watcher with
    | none => rfl
    | some w => exact if_neg (hwatcher w hs)
  rw [hstage] at hh hw
  refine ⟨fun k hk => ?_, fun p x hx => hh.taken (fun k ks he => by cases he) hx, hh.processed.1, hh.processed.2⟩
  rcases hw.accounted k hk with hp | hread | hwithdrawn | hpurged
  · -- a child that is there has had a delete that failed
    obtain ⟨-, hpresent⟩ :=
      hw.awake hdeaf (fun he => by rw [hregistered] at he; cases he) hevents (fun he => by cases he)
    rcases hpresent k hp with ha | ha | hu
    · cases ha
    · rw [hregistered] at ha
      cases ha
    · exact .inr (.inr (.inr (.inr (.inr hu))))
  · rcases List.mem_append.1 hread with hread | hread
    · rcases List.mem_append.1 hread with hread | hread
      · exact .inl hread
      · exact .inr (.inr (.inr (.inl hread)))
    · exact .inr (.inr (.inr (.inr (.inl hread))))
  · exact .inr (.inl hwithdrawn)
  · exact .inr (.inr (.inl hpurged))

/-! ## A run -/

/-- An object is registered while a command of an earlier client is there, which is purged; a client sends another one,
which is delivered.  The delete of each makes an event of its own. -/
def deliverPrepare : List Action :=
  [.registerObject ["start"], .register (.subscribeNewChild (some [0])), .register (.purge true),
    .register (.purge true), .register (.construct true), .sendCommand 0 "prepare", .takeEvent,
    .watch (.getChildren (some [1])),
    .watch (.get true), .watch .call, .watch .call, .watch .call, .watch .call, .watch .call, .watch .call,
    .watch (.delete true), .watch .handled, .takeEvent, .watch (.getChildren (some [])), .watch .handled]

/-- A turn of the engine with one request. -/
def processPrepare : List Action :=
  .beginTurn ::
    (List.replicate 6 (.turn .fifo)).append (.turn (.process 0 true) :: (List.replicate 10 (.turn .fifo)).append
    [.turn (.iterate 0 0 true true), .endTurn])

def prepared : List Action := deliverPrepare.append processPrepare

theorem prepared_runs : ∃ s m, run step start prepared = some s ∧ s.machines[0]? = some m ∧
    (s.watcher = none ∧ s.events = [] ∧ m.phase = .registered ∧ m.node.deaf = false) ∧ m.object.state = .ready ∧
    m.object.history.map Called.request = [some 0, none] ∧ m.node.sent.length = 2 := by
  have h : ((run step start prepared).bind fun s => s.machines[0]?.bind fun m =>
      if s.watcher = none ∧ s.events = [] ∧ m.phase = .registered ∧ m.node.deaf = false then
        some (m.object.state, m.object.history.map Called.request, m.node.sent.length)
      else none) = some (.ready, [some 0, none], 2) := by decide +kernel
  obtain ⟨s, hs, h⟩ := Option.bind_eq_some_iff.1 h
  obtain ⟨m, hm, h⟩ := Option.bind_eq_some_iff.1 h
  obtain ⟨hrest, h⟩ := Option.ite_none_right_eq_some.1 h
  simp only [Option.some.injEq, Prod.mk.injEq] at h
  exact ⟨s, m, hs, hm, hrest, h.1, h.2.1, h.2.2⟩

theorem lifecycle_kept_prepared : ∃ s m, run step start prepared = some s ∧ s.machines[0]? = some m ∧
    m.object.state = .ready ∧ Lifecycle .standby m.object.history .ready := by
  obtain ⟨s, m, hs, hm, hrest, hready, -⟩ := prepared_runs
  exact ⟨s, m, hs, hm, hready, hready ▸ (lifecycle_kept hs hm hrest.2.2.1).1⟩

theorem methods_called_prepared : ∃ s m, run step start prepared = some s ∧ s.machines[0]? = some m ∧
    (∃ c ∈ m.object.history, c.request = some 0) ∧
    ∀ c ∈ m.object.history, ∀ p ∈ c.request, ∃ k command value, m.delivered[p]? = some (k, command) ∧
      m.node.sent[k]? = some value ∧ command = String.ofList (value.toList.take 127) ∧
      c.callback.command = some command := by
  obtain ⟨s, m, hs, hm, -, -, hhistory, -⟩ := prepared_runs
  refine ⟨s, m, hs, hm, ?_, (methods_called hs hm).2.1⟩
  exact List.mem_map.1 (hhistory ▸ List.mem_cons_self)

theorem commands_accounted_prepared : ∃ s m, run step start prepared = some s ∧ s.machines[0]? = some m ∧
    m.node.sent.length = 2 ∧ ∀ k, k < m.node.sent.length → k ∈ m.delivered.map Prod.fst ∨ k ∈ m.node.withdrawn ∨
      k ∈ m.node.purged ∨ k ∈ m.node.ignored ∨ k ∈ m.node.unread ∨ k ∈ m.node.undeleted := by
  obtain ⟨s, m, hs, hm, ⟨hwatcher, hevents, hregistered, hdeaf⟩, -, -, hlength⟩ := prepared_runs
  refine ⟨s, m, hs, hm, hlength, (commands_accounted hs hm hregistered (fun w hw => ?_) (fun he => ?_) hdeaf).1⟩
  · rw [hwatcher] at hw
    cases hw
  · rw [hevents] at he
    cases he

end System
end Control
end Flp
