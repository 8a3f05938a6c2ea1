import FlpPrototype.Control.HandOff
import FlpPrototype.Control.System
/-!
# Handled — a delivered command on its way to the object

Each call of `executeCommand` makes one request, so the address of a request is the number of its call (`Handled`).
What the FIFO does is known from `HandOff`; that a refused call may print a deleted request does not matter here, since
such a step has no result: the invariant is kept for the state with the printing left out (`unprinted`).  What the
engine calls the object's methods for are commands it has processed, each once and in the order of delivery.
-/
namespace Flp
namespace Control

variable {s s' : State} {d : Nat}

/-! ## The FIFO, whatever is printed -/

/-- The state as if the refused call had printed what it looks at. -/
def State.unprinted (s : State) : State :=
  match s.producer with
  | .print c _ => { s with producer := .delete c }
  | _          => s

theorem Inv.unprinted (hi : Inv d s) : Inv d s.unprinted := by
  unfold State.unprinted
  split
  next c q h =>
    exact hi.producer_moves (by rw [h]; rfl) (by rw [h]; rfl) (by rw [h]; rfl) (List.nil_subset _) trivial
  next => exact hi

theorem unprinted_of_ne (h : ∀ c q, s.producer ≠ .print c q) : s.unprinted = s := by
  unfold State.unprinted
  split
  next c q hp => exact absurd hp (h c q)
  next => rfl

theorem unprinted_spared (s : State) (c : Call) (q : Nat) : s.unprinted.producer ≠ .print c q := by
  unfold State.unprinted
  split
  next => exact fun h => by cases h
  next h => exact h c q

/-- The engine does not look at where the other thread is. -/
theorem stepEngine_producer (s : State) (w : Producer) :
    stepEngine { s with producer := w } = (stepEngine s).map fun s' => { s' with producer := w } := by
  unfold stepEngine
  cases s.engine with
  | frontSlot ix =>
    cases h : s.data[ix]? with
    | none => simp only [h, Option.map_none]
    | some item => cases item <;> simp only [h, Option.map_some]
  | popResetSlot item ix =>
    simp only
    split <;> rfl
  | delete item => cases item <;> simp [State.delete, State.read, Function.comp_def]
  | frontStart | popStart | starting p | process p | done p | popReadSlot ix =>
    simp only [Option.map_map]
    rfl
  | _ => rfl

/-- **What a step of the engine leaves alone**, and what it does when it processes a request. -/
theorem stepEngine_spec (h : stepEngine s = some s') :
    s'.producer = s.producer ∧ s'.requests = s.requests ∧ s'.accepted = s.accepted ∧ s'.rejected = s.rejected ∧
      (s'.processed = s.processed ∨ ∃ p command, s.engine = .process p ∧ s.read p = some command ∧
        s'.processed = s.processed ++ [⟨p, command⟩]) := by
  unfold stepEngine at h
  cases he : s.engine with
  | process p =>
    simp only [he] at h
    obtain ⟨command, hread, rfl⟩ := Option.map_eq_some_iff.1 h
    exact ⟨rfl, rfl, rfl, rfl, .inr ⟨p, command, rfl, hread, rfl⟩⟩
  | frontStart | popStart | starting p | done p | popReadSlot ix =>
    simp only [he] at h
    obtain ⟨_, -, rfl⟩ := Option.map_eq_some_iff.1 h
    exact ⟨rfl, rfl, rfl, rfl, .inl rfl⟩
  | frontSlot ix =>
    simp only [he] at h
    obtain ⟨item, -, rfl⟩ := Option.map_eq_some_iff.1 h
    cases item <;> exact ⟨rfl, rfl, rfl, rfl, .inl rfl⟩
  | popResetSlot item ix =>
    simp only [he] at h
    obtain ⟨-, h⟩ := Option.ite_none_right_eq_some.1 h
    cases h
    exact ⟨rfl, rfl, rfl, rfl, .inl rfl⟩
  | delete item =>
    simp only [he] at h
    obtain ⟨s₁, hs₁, rfl⟩ := Option.map_eq_some_iff.1 h
    cases item with
    | none =>
      cases hs₁
      exact ⟨rfl, rfl, rfl, rfl, .inl rfl⟩
    | some p =>
      obtain ⟨_, -, rfl⟩ := Option.map_eq_some_iff.1 hs₁
      exact ⟨rfl, rfl, rfl, rfl, .inl rfl⟩
  | _ =>
    simp only [he] at h
    cases h
    exact ⟨rfl, rfl, rfl, rfl, .inl rfl⟩

theorem stepEngine_unprinted (h : stepEngine s = some s') : stepEngine s.unprinted = some s'.unprinted := by
  have hp := (stepEngine_spec h).1
  unfold State.unprinted
  rw [hp]
  cases hw : s.producer with
  | print c q =>
    show stepEngine { s with producer := .delete c } = _
    rw [stepEngine_producer, h]
    rfl
  | _ => exact h

/-- **The engine's step**, with the printing left out. -/
theorem Inv.engine_unprinted (hi : Inv d s.unprinted) (h : Control.stepEngine s = some s') :
    ∃ d', Inv d' s'.unprinted := by
  obtain ⟨s₂, h₂, d', hi'⟩ := hi.stepEngine fun c q hw => absurd hw (unprinted_spared s c q)
  rw [stepEngine_unprinted h] at h₂
  exact ⟨d', Option.some.inj h₂ ▸ hi'⟩

/-- **The delivering thread's step**, with the printing left out. -/
theorem Inv.producer_unprinted (hi : Inv d s.unprinted) {command : String}
    (h : Control.stepProducer command s = some s') : Inv d s'.unprinted := by
  by_cases hprint : ∃ c q, s.producer = .print c q
  · obtain ⟨c, q, hw⟩ := hprint
    have hs' : s' = s.unprinted := by
      unfold Control.stepProducer at h
      simp only [hw] at h
      obtain ⟨_, -, rfl⟩ := Option.map_eq_some_iff.1 h
      unfold State.unprinted
      rw [hw]
    exact hs' ▸ hi.unprinted
  · rw [unprinted_of_ne fun c q hw => hprint ⟨c, q, hw⟩] at hi
    obtain ⟨s₂, h₂, hi'⟩ := hi.stepProducer command
    obtain rfl := Option.some.inj (h.symm.trans h₂)
    exact hi'.unprinted

/-! ## Calls and requests -/

/-- The command of the call whose request is not made yet. -/
def Producer.unmade : Producer → List String
  | .allocate command => [command]
  | _                 => []

/-- **A step within `executeCommand`**: it makes the request of the call, or hands it on, keeps it or drops it. -/
theorem stepProducer_spec {command : String} (h : stepProducer command s = some s') (hbusy : s.producer ≠ .idle) :
    s'.engine = s.engine ∧ s'.processed = s.processed ∧ s'.producer.unmade = [] ∧
      ((∃ c, s.producer = .allocate c ∧ s'.requests.length = s.requests.length + 1 ∧ s'.accepted = s.accepted ∧
          s'.rejected = s.rejected ∧ s'.producer = .fill ⟨s.requests.length, c⟩) ∨
        (s.producer.unmade = [] ∧ s'.requests.length = s.requests.length ∧
          s'.accepted ++ s'.rejected ++ s'.producer.held ⊆ s.accepted ++ s.rejected ++ s.producer.held ∧
          (s'.accepted ++ s'.producer.fresh).Sublist (s.accepted ++ s.producer.fresh))) := by
  unfold stepProducer at h
  cases hw : s.producer with
  | idle => exact absurd hw hbusy
  | allocate c =>
    simp only [hw] at h
    cases h
    exact ⟨rfl, rfl, rfl, .inl ⟨c, rfl, List.length_append, rfl, rfl, rfl⟩⟩
  | fill c =>
    simp only [hw] at h
    obtain ⟨_, -, rfl⟩ := Option.map_eq_some_iff.1 h
    exact ⟨rfl, rfl, rfl, .inr ⟨rfl, List.length_set, List.Subset.refl _, List.Sublist.refl _⟩⟩
  | pushEnd c | frontStart c | print c q =>
    simp only [hw] at h
    obtain ⟨_, -, rfl⟩ := Option.map_eq_some_iff.1 h
    exact ⟨rfl, rfl, rfl, .inr ⟨rfl, rfl, List.Subset.refl _, List.Sublist.refl _⟩⟩
  | pushStart c new =>
    simp only [hw] at h
    split at h
    · cases h
      refine ⟨rfl, rfl, rfl, .inr ⟨rfl, rfl, ?_, ?_⟩⟩
      · simp [Producer.held]
      · simp [Producer.fresh]
    · cases h
      exact ⟨rfl, rfl, rfl, .inr ⟨rfl, rfl, List.Subset.refl _, List.Sublist.refl _⟩⟩
  | pushData c new =>
    simp only [hw] at h
    obtain ⟨-, h⟩ := Option.ite_none_right_eq_some.1 h
    cases h
    exact ⟨rfl, rfl, rfl, .inr ⟨rfl, rfl, List.Subset.refl _, List.Sublist.refl _⟩⟩
  | pushStore c new =>
    simp only [hw] at h
    cases h
    refine ⟨rfl, rfl, rfl, .inr ⟨rfl, rfl, ?_, ?_⟩⟩
    · intro x hx
      simp only [Producer.held, List.append_nil, List.append_assoc, List.mem_append] at hx ⊢
      exact hx.imp_right Or.symm
    · simp [Producer.fresh]
  | usedEnd c | usedStart c | emptyEnd c =>
    simp only [hw] at h
    cases h
    exact ⟨rfl, rfl, rfl, .inr ⟨rfl, rfl, List.Subset.refl _, List.Sublist.refl _⟩⟩
  | emptyStart c e =>
    simp only [hw] at h
    cases h
    split
    all_goals exact ⟨rfl, rfl, rfl, .inr ⟨rfl, rfl, List.Subset.refl _, List.Sublist.refl _⟩⟩
  | frontSlot c ix =>
    simp only [hw] at h
    obtain ⟨item, -, rfl⟩ := Option.map_eq_some_iff.1 h
    cases item <;> exact ⟨rfl, rfl, rfl, .inr ⟨rfl, rfl, List.Subset.refl _, List.Sublist.refl _⟩⟩
  | delete c =>
    simp only [hw] at h
    obtain ⟨s₁, hs₁, rfl⟩ := Option.map_eq_some_iff.1 h
    obtain ⟨_, -, rfl⟩ := Option.map_eq_some_iff.1 hs₁
    refine ⟨rfl, rfl, rfl, .inr ⟨rfl, rfl, ?_, List.Sublist.refl _⟩⟩
    simp [Producer.held]

/-! ## A machine and its commands -/

/-- The commands delivered to a machine are its requests, or about to be; the ones its methods are called for are
processed requests, in order; and the calls so far are a lifecycle. -/
structure Machine.Handled (m : Machine) (stage : Option Stage) : Prop where
  fifo : ∃ d, Inv d m.fifo.unprinted
  calling : m.fifo.producer ≠ .idle ↔ ∃ k ks, stage = some (.call k ks)
  made : m.delivered.length = m.fifo.requests.length + m.fifo.producer.unmade.length
  unmade : ∀ command ∈ m.fifo.producer.unmade, ∃ k, m.delivered[m.fifo.requests.length]? = some (k, command)
  calls : ∀ c ∈ m.fifo.accepted ++ m.fifo.rejected ++ m.fifo.producer.held,
    ∃ k, m.delivered[c.newCommand]? = some (k, c.command)
  ordered : ((m.fifo.accepted ++ m.fifo.producer.fresh).map Call.newCommand).Pairwise (· < ·)
  requests : (m.object.history.filterMap Called.request).Sublist (m.fifo.processed.map Call.newCommand)
  commands : ∀ c ∈ m.object.history, ∀ p ∈ c.request, ∃ command, c.callback.command = some command ∧
    ⟨p, command⟩ ∈ m.fifo.processed
  lifecycle : m.phase = .registered → Lifecycle .standby m.object.history m.object.state
  told : m.phase = .registered → m.object.Told
  unborn : m.phase ≠ .registered → m.fifo = start ∧ m.delivered = [] ∧ m.object.history = []

namespace Machine

variable {m m' : Machine} {stage stage' : Option Stage}

theorem handled_new (left : List String) : (Machine.new left).Handled none where
  fifo := ⟨0, inv_start⟩
  calling := ⟨fun h => absurd rfl h, by rintro ⟨k, ks, h⟩; cases h⟩
  made := rfl
  unmade := fun _ h => by cases h
  calls := fun _ h => by cases h
  ordered := List.Pairwise.nil
  requests := List.Sublist.refl _
  commands := fun _ h => by cases h
  lifecycle := fun h => by cases h
  told := fun h => by cases h
  unborn := fun _ => ⟨rfl, rfl, rfl⟩

/-- What happens to the node only is nothing to the requests. -/
theorem Handled.node (h : m.Handled stage) {node : CommandNode} : { m with node }.Handled stage :=
  ⟨h.fifo, h.calling, h.made, h.unmade, h.calls, h.ordered, h.requests, h.commands, h.lifecycle, h.told, h.unborn⟩

theorem Handled.moves (h : m.Handled stage)
    (hs : (∃ k ks, stage' = some (.call k ks)) ↔ ∃ k ks, stage = some (.call k ks)) :
    m.Handled stage' :=
  { h with calling := h.calling.trans hs.symm }

theorem Handled.phase (h : m.Handled stage) (hm : m.phase ≠ .registered) (phase : Phase) (hp : phase ≠ .registered) :
    { m with phase }.Handled stage :=
  ⟨h.fifo, h.calling, h.made, h.unmade, h.calls, h.ordered, h.requests, h.commands, fun he => absurd he hp,
    fun he => absurd he hp, fun _ => h.unborn hm⟩

theorem deleteChild_node (m : Machine) (child : Nat) (ok : Bool) :
    ∃ node, m.deleteChild child ok = { m with node } := by
  unfold deleteChild
  split
  · split
    · exact ⟨_, rfl⟩
    · exact ⟨_, rfl⟩
  · exact ⟨m.node, rfl⟩

theorem Handled.deleteChild (h : m.Handled stage) (child : Nat) (ok : Bool) :
    (m.deleteChild child ok).Handled stage := by
  obtain ⟨node, hnode⟩ := deleteChild_node m child ok
  exact hnode ▸ h.node

/-- **A step of the registration.** -/
theorem Handled.register (h : m.Handled stage) {a : Registering} (hs : m.register a = some m') : m'.Handled stage := by
  cases a with
  | subscribeNewChild order =>
    obtain ⟨hphase, hs⟩ := Option.ite_none_right_eq_some.1 hs
    obtain ⟨node, -, rfl⟩ := Option.map_eq_some_iff.1 hs
    have hm : m.phase ≠ .registered := fun he => by rw [hphase] at he; cases he
    exact (h.phase hm (.purge _) (fun he => by cases he)).node
  | purge ok =>
    simp only [Machine.register] at hs
    split at hs
    next hphase =>
      cases hs
      have hm : m.phase ≠ .registered := fun he => by rw [hphase] at he; cases he
      exact h.phase hm .construct (fun he => by cases he)
    next k ks hphase =>
      have hm : m.phase ≠ .registered := fun he => by rw [hphase] at he; cases he
      have hd := (h.phase hm (.purge ks) (fun he => by cases he)).deleteChild k ok
      cases hs
      split
      · exact hd.node
      · exact hd
    next => cases hs
  | construct taken =>
    obtain ⟨hphase, hs⟩ := Option.ite_none_right_eq_some.1 hs
    cases hs
    have hm : m.phase ≠ .registered := fun he => by rw [hphase] at he; cases he
    obtain ⟨hfifo, -, hhistory⟩ := h.unborn hm
    refine ⟨h.fifo, h.calling, h.made, h.unmade, h.calls, h.ordered, h.requests, h.commands, fun _ => ?_,
      fun _ => Controlled.told_updateState _ _ _, fun hn => absurd rfl hn⟩
    show Lifecycle .standby m.object.history .standby
    rw [hhistory]
    exact .nil _

/-- The requests there are, by address. -/
theorem Handled.lt (h : m.Handled stage) {c : Call}
    (hc : c ∈ m.fifo.accepted ++ m.fifo.rejected ++ m.fifo.producer.fresh) : c.newCommand < m.fifo.requests.length := by
  obtain ⟨d, hi⟩ := h.fifo
  have hcalls := hi.calls
  unfold State.unprinted at hcalls
  split at hcalls
  next c' q hp =>
    rw [hp] at hc
    exact List.mem_range.1 (hcalls.subset (List.mem_map_of_mem hc))
  next => exact List.mem_range.1 (hcalls.subset (List.mem_map_of_mem hc))

/-- **A step in `executeCommand`** makes the request of the call, or goes on with it. -/
theorem Handled.call (h : m.Handled stage) (hregistered : m.phase = .registered) {command : String} {fifo : State}
    (hs : stepProducer command m.fifo = some fifo) (hbusy : m.fifo.producer ≠ .idle)
    (hcalling : fifo.producer ≠ .idle ↔ ∃ k ks, stage' = some (.call k ks)) : { m with fifo }.Handled stage' := by
  obtain ⟨d, hi⟩ := h.fifo
  obtain ⟨-, hprocessed, hunmade, hcase⟩ := stepProducer_spec hs hbusy
  have hmade := h.made
  refine ⟨⟨d, hi.producer_unprinted hs⟩, hcalling, ?_, ?_, ?_, ?_, ?_, ?_, h.lifecycle, h.told, fun hn =>
    absurd hregistered hn⟩
  · show m.delivered.length = fifo.requests.length + fifo.producer.unmade.length
    rcases hcase with ⟨c, hc, hlength, -⟩ | ⟨hm, hlength, -⟩
    · rw [hunmade, hlength, hmade, hc]
      rfl
    · rw [hunmade, hlength, hmade, hm]
  · intro x hx
    rw [show ({ m with fifo } : Machine).fifo.producer.unmade = [] from hunmade] at hx
    cases hx
  · show ∀ c ∈ fifo.accepted ++ fifo.rejected ++ fifo.producer.held, ∃ k,
      m.delivered[c.newCommand]? = some (k, c.command)
    intro c hc
    rcases hcase with ⟨x, hx, -, haccepted, hrejected, hproducer⟩ | ⟨-, -, hsubset, -⟩
    · rw [haccepted, hrejected, hproducer] at hc
      rcases List.mem_append.1 hc with hc | hc
      · exact h.calls c (List.mem_append_left _ hc)
      · obtain rfl := List.mem_singleton.1 hc
        exact h.unmade x (by rw [hx]; exact List.mem_singleton_self x)
    · exact h.calls c (hsubset hc)
  · show ((fifo.accepted ++ fifo.producer.fresh).map Call.newCommand).Pairwise (· < ·)
    rcases hcase with ⟨x, hx, -, haccepted, -, hproducer⟩ | ⟨-, -, -, hsublist⟩
    · have hordered := h.ordered
      rw [hx, show (Producer.allocate x).fresh = [] from rfl, List.append_nil] at hordered
      rw [haccepted, hproducer, show (Producer.fill ⟨m.fifo.requests.length, x⟩).fresh =
        [⟨m.fifo.requests.length, x⟩] from rfl, List.map_append]
      refine List.pairwise_append.2 ⟨hordered, List.pairwise_singleton _ _, fun p hp q hq => ?_⟩
      obtain ⟨c, hc, rfl⟩ := List.mem_map.1 hp
      obtain rfl := List.mem_singleton.1 hq
      exact h.lt (List.mem_append_left _ (List.mem_append_left _ hc))
    · exact h.ordered.sublist (hsublist.map _)
  · show (m.object.history.filterMap Called.request).Sublist (fifo.processed.map Call.newCommand)
    rw [hprocessed]
    exact h.requests
  · show ∀ c ∈ m.object.history, ∀ p ∈ c.request, ∃ command, c.callback.command = some command ∧
      ⟨p, command⟩ ∈ fifo.processed
    rw [hprocessed]
    exact h.commands

/-- **A command is delivered.** -/
theorem Handled.deliver (h : m.Handled stage) {child : Nat} {command : String} {children : List Nat}
    (hidle : ¬ ∃ k ks, stage = some (.call k ks)) (hs : m.deliver child command children = some (m', stage')) :
    m'.Handled stage' := by
  have hproducer : m.fifo.producer = .idle := Classical.byContradiction fun hn => hidle (h.calling.1 hn)
  have hnode : ∀ {node : CommandNode} {ks : List Nat}, { m with node }.Handled (some (.delete child ks)) := fun {_ _} =>
    h.node.moves ⟨(by rintro ⟨k, ks, he⟩; cases he), fun he => absurd he hidle⟩
  rcases deliver_cases hs with ⟨hphase, fifo, hfifo, rfl, rfl⟩ | ⟨rfl, rfl⟩
  · have hfifo' : fifo = { m.fifo with producer := .allocate command } := by
      simp only [stepProducer, hproducer] at hfifo
      exact (Option.some.inj hfifo).symm
    subst hfifo'
    obtain ⟨d, hi⟩ := h.fifo
    have hmade : m.delivered.length = m.fifo.requests.length := by
      rw [h.made, hproducer]
      rfl
    refine ⟨⟨d, hi.producer_unprinted hfifo⟩, ⟨fun _ => ⟨_, _, rfl⟩, fun _ hn => by cases hn⟩, ?_, ?_, ?_, ?_,
      h.requests, h.commands, h.lifecycle, h.told, fun hn => absurd hphase hn⟩
    · show (m.delivered ++ [(child, command)]).length = m.fifo.requests.length + 1
      rw [List.length_append, hmade]
      rfl
    · intro x hx
      obtain rfl := List.mem_singleton.1 hx
      refine ⟨child, ?_⟩
      show (m.delivered ++ [(child, x)])[m.fifo.requests.length]? = some (child, x)
      rw [← hmade, List.getElem?_concat_length]
    · intro c hc
      obtain ⟨k, hk⟩ := h.calls c (by rw [hproducer]; exact hc)
      refine ⟨k, ?_⟩
      rw [List.getElem?_append_left (List.getElem?_eq_some_iff.1 hk).1]
      exact hk
    · have := h.ordered
      rw [hproducer] at this
      exact this
  · exact hnode

/-- **A step of the thread that handles events.** -/
theorem Handled.watch {st : Stage} (h : m.Handled (some st)) {a : Watching} (hs : m.watch st a = some (m', stage')) :
    m'.Handled stage' := by
  -- outside `executeCommand`
  have quiet :
    ∀ {stage₁ stage₂ : Option Stage} {m₁ : Machine}, m₁.Handled stage₁ → (∀ k ks, stage₁ ≠ some (.call k ks)) →
      (∀ k ks, stage₂ ≠ some (.call k ks)) → m₁.Handled stage₂ := fun h₁ hn₁ hn₂ => h₁.moves
    ⟨by rintro ⟨k, ks, he⟩; exact absurd he (hn₂ k ks), by rintro ⟨k, ks, he⟩; exact absurd he (hn₁ k ks)⟩
  unfold Machine.watch at hs
  split at hs
  next order =>
    obtain ⟨node, -, he⟩ := Option.map_eq_some_iff.1 hs
    cases he
    refine quiet h.node (fun k ks he => by cases he) fun k ks he => ?_
    cases order <;> cases he
  next =>
    cases hs
    exact quiet h (fun k ks he => by cases he) (fun k ks he => by cases he)
  next k ks ok =>
    split at hs
    next =>
      cases hs
      exact quiet h.node (fun k ks he => by cases he) (fun k ks he => by cases he)
    next => exact h.deliver (by rintro ⟨k, ks, he⟩; cases he) hs
  next k ks =>
    obtain ⟨fifo, hfifo, he⟩ := Option.map_eq_some_iff.1 hs
    cases he
    have hbusy : m.fifo.producer ≠ .idle := h.calling.2 ⟨k, ks, rfl⟩
    have hregistered : m.phase = .registered := Classical.byContradiction fun hn =>
      hbusy (by rw [(h.unborn hn).1]; rfl)
    refine h.call hregistered hfifo hbusy ?_
    split
    next hidle => exact ⟨fun hn => absurd hidle hn, by rintro ⟨k, ks, he⟩; cases he⟩
    next hn => exact ⟨fun _ => ⟨k, ks, rfl⟩, fun _ => hn⟩
  next k ks ok =>
    cases hs
    exact quiet (h.deleteChild k ok) (fun k ks he => by cases he) (fun k ks he => by cases he)
  next => cases hs

/-- A step of the engine that calls no method, or one for the request it processes. -/
theorem Handled.goOn (h : m.Handled stage) (hregistered : m.phase = .registered) {fifo : State} {object : Controlled}
    (hs : stepEngine m.fifo = some fifo) (hrequests : (object.history.filterMap Called.request).Sublist
      (fifo.processed.map Call.newCommand))
    (hcommands : ∀ c ∈ object.history, ∀ p ∈ c.request, ∃ command, c.callback.command = some command ∧
      ⟨p, command⟩ ∈ fifo.processed)
    (hlifecycle : Lifecycle .standby object.history object.state)
    (htold : object.Told) :
    { m with fifo, object }.Handled stage := by
  obtain ⟨d, hi⟩ := h.fifo
  obtain ⟨hproducer, hreqs, haccepted, hrejected, -⟩ := stepEngine_spec hs
  refine ⟨hi.engine_unprinted hs, ?_, ?_, ?_, ?_, ?_, hrequests, hcommands, fun _ => hlifecycle, fun _ => htold,
    fun hn =>
    absurd hregistered hn⟩
  · show fifo.producer ≠ .idle ↔ _
    rw [hproducer]
    exact h.calling
  · show m.delivered.length = fifo.requests.length + fifo.producer.unmade.length
    rw [hproducer, hreqs]
    exact h.made
  · show ∀ command ∈ fifo.producer.unmade, ∃ k, m.delivered[fifo.requests.length]? = some (k, command)
    rw [hproducer, hreqs]
    exact h.unmade
  · show ∀ c ∈ fifo.accepted ++ fifo.rejected ++ fifo.producer.held, ∃ k,
      m.delivered[c.newCommand]? = some (k, c.command)
    rw [haccepted, hrejected, hproducer]
    exact h.calls
  · show ((fifo.accepted ++ fifo.producer.fresh).map Call.newCommand).Pairwise (· < ·)
    rw [haccepted, hproducer]
    exact h.ordered

theorem processed_sublist {fifo : State} (hs : stepEngine m.fifo = some fifo) :
    m.fifo.processed.Sublist fifo.processed := by
  rcases (stepEngine_spec hs).2.2.2.2 with he | ⟨p, command, -, -, he⟩
  · rw [he]
  · rw [he]
    exact List.sublist_append_left _ _

/-- **A step of the engine.** -/
theorem Handled.turn (h : m.Handled stage) (hregistered : m.phase = .registered) {a : Turning}
    (hs : m.turn a = some m') : m'.Handled stage := by
  obtain ⟨fifo, hfifo, rfl | ⟨p, command, err, taken, hengine, hread, rfl⟩ |
    ⟨errRunning, errCheck, taken₁, taken₂, rfl⟩⟩ := turn_cases hs
  · have hsub := processed_sublist hfifo
    refine h.goOn hregistered hfifo (h.requests.trans (hsub.map _)) (fun c hc p hp => ?_) (h.lifecycle hregistered)
      (h.told hregistered)
    obtain ⟨command, hcommand, hmem⟩ := h.commands c hc p hp
    exact ⟨command, hcommand, hsub.subset hmem⟩
  · -- the request is processed
    have hprocessed : fifo.processed = m.fifo.processed ++ [⟨p, command⟩] := by
      simp only [stepEngine, hengine, hread, Option.map_some] at hfifo
      rw [← Option.some.inj hfifo]
    obtain ⟨hlifecycle, hhistory⟩ := (h.lifecycle hregistered).processStateTransition p command err taken
    refine h.goOn hregistered hfifo ?_ (fun c hc q hq => ?_) hlifecycle
      ((h.told hregistered).processStateTransition p command err taken)
    · rw [hprocessed, List.map_append]
      rcases hhistory with he | ⟨cb, -, he⟩
      · rw [he]
        exact h.requests.trans (List.sublist_append_left _ _)
      · rw [he, List.filterMap_append]
        exact h.requests.append (List.Sublist.refl _)
    · rw [hprocessed]
      have old : ∀ c ∈ m.object.history, ∀ q ∈ c.request, ∃ command', c.callback.command = some command' ∧
          ⟨q, command'⟩ ∈ m.fifo.processed ++ [⟨p, command⟩] := fun c hc q hq => by
        obtain ⟨x, hx, hmem⟩ := h.commands c hc q hq
        exact ⟨x, hx, List.mem_append_left _ hmem⟩
      rcases hhistory with he | ⟨cb, hcb, he⟩
      · rw [he] at hc
        exact old c hc q hq
      · rw [he] at hc
        rcases List.mem_append.1 hc with hc | hc
        · exact old c hc q hq
        · obtain rfl := List.mem_singleton.1 hc
          obtain rfl := Option.mem_some_iff.1 hq
          exact ⟨command, hcb, List.mem_append_right _ (List.mem_singleton_self _)⟩
  · -- the periodic actions are for no request
    have hsub := processed_sublist hfifo
    obtain ⟨hlifecycle, more, hhistory, hmore⟩ :=
      (h.lifecycle hregistered).iterate errRunning errCheck taken₁ taken₂
    refine h.goOn hregistered hfifo ?_ (fun c hc p hp => ?_) hlifecycle
      ((h.told hregistered).iterate _ _ _ _)
    · rw [hhistory, List.filterMap_append, List.filterMap_eq_nil_iff.2 hmore, List.append_nil]
      exact h.requests.trans (hsub.map _)
    · rw [hhistory] at hc
      rcases List.mem_append.1 hc with hc | hc
      · obtain ⟨command, hcommand, hmem⟩ := h.commands c hc p hp
        exact ⟨command, hcommand, hsub.subset hmem⟩
      · rw [hmore c hc] at hp
        cases hp

/-! ## What is known between two steps -/

/-- The requests are processed in the order they were accepted, all but at most one. -/
theorem Handled.processed (h : m.Handled stage) : m.fifo.processed <+: m.fifo.accepted ∧
    (m.fifo.engine = .turn → m.fifo.accepted.length ≤ m.fifo.processed.length + 1) := by
  obtain ⟨d, hi⟩ := h.fifo
  have hfields : m.fifo.unprinted.processed = m.fifo.processed ∧ m.fifo.unprinted.accepted = m.fifo.accepted ∧
      m.fifo.unprinted.engine = m.fifo.engine := by
    unfold State.unprinted
    split <;> exact ⟨rfl, rfl, rfl⟩
  obtain ⟨hprocessed, haccepted, hengine⟩ := hfields
  refine ⟨?_, fun he => ?_⟩
  · rw [← hprocessed, ← haccepted, hi.processed]
    exact List.take_prefix _ _
  · have hroom := hi.room
    have hle := hi.ahead_le
    have hlength := congrArg List.length hi.processed
    rw [hengine, he, hprocessed, haccepted, List.length_take] at hlength
    rw [hengine, he, haccepted] at hroom hle
    rw [Nat.min_eq_left hle] at hlength
    rw [hlength]
    exact hroom

/-- Outside `executeCommand` every delivered command was accepted or refused. -/
theorem Handled.taken (h : m.Handled stage) (hquiet : ∀ k ks, stage ≠ some (.call k ks)) {p : Nat} {x : Nat × String}
    (hx : m.delivered[p]? = some x) : ⟨p, x.2⟩ ∈ m.fifo.accepted ++ m.fifo.rejected := by
  have hproducer : m.fifo.producer = .idle := Classical.byContradiction fun hn => by
    obtain ⟨k, ks, he⟩ := h.calling.1 hn
    exact hquiet k ks he
  obtain ⟨d, hi⟩ := h.fifo
  rw [unprinted_of_ne fun c q hp => by rw [hproducer] at hp; cases hp] at hi
  have hcalls := hi.calls
  have hmade := h.made
  rw [hproducer] at hcalls hmade
  rw [show Producer.idle.fresh = [] from rfl, List.append_nil] at hcalls
  have hlt : p < m.fifo.requests.length := by
    have := (List.getElem?_eq_some_iff.1 hx).1
    rw [hmade] at this
    exact this
  obtain ⟨c, hc, rfl⟩ := List.mem_map.1 (hcalls.symm.subset (List.mem_range.2 hlt))
  obtain ⟨k, hk⟩ := h.calls c (List.mem_append_left _ hc)
  obtain rfl := Option.some.inj (hx.symm.trans hk)
  exact hc

end Machine

end Control
end Flp
