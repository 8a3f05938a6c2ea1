import FlpPrototype.Control.Handled
/-!
# Watch — the children of a command node

A watch is good for one change, but it is set in the same call that lists the children.  So as long as listing succeeds,
there is a watch and every child is one the handler has still to come to, or there is an event to handle (`awake`): no
command stays behind unseen.  A child is read and delivered at most once more than its delete fails (`once`).
-/
namespace Flp
namespace Control

/-- The child the handler is to delete next. -/
def Stage.deletes : Option Stage → List Nat
  | some (.call child _) | some (.delete child _) => [child]
  | _                                             => []

/-- The children the handler has still to come to, and the one it is to delete. -/
def Stage.ahead : Option Stage → List Nat
  | some (.next children)         => children
  | some (.call child children)   => child :: children
  | some (.delete child children) => child :: children
  | _                             => []

/-- The children found at the subscription and not deleted yet. -/
def Phase.ahead : Phase → List Nat
  | .purge children => children
  | _               => []

/-- The children the handler has read, or tried to. -/
def Machine.read (m : Machine) : List Nat := m.delivered.map Prod.fst ++ m.node.ignored ++ m.node.unread

/-- The node of a machine: `event` says that there is an event of it to handle. -/
structure Machine.Watched (m : Machine) (event : Prop) (stage : Option Stage) : Prop where
  values : ∀ x ∈ m.delivered, ∃ value, m.node.sent[x.1]? = some value ∧ x.2 = String.ofList (value.toList.take 127)
  known : ∀ k ∈ m.node.present ++ m.node.ignored, k < m.node.sent.length
  once : ∀ k, (m.delivered.map Prod.fst ++ m.node.ignored).count k +
    (if k ∈ m.node.present ∧ k ∉ Stage.deletes stage then 1 else 0) ≤ 1 + m.node.undeleted.count k
  deletes : ∀ k ∈ Stage.deletes stage, k ∈ m.read
  accounted : ∀ k, k < m.node.sent.length →
    k ∈ m.node.present ∨ k ∈ m.read ∨ k ∈ m.node.withdrawn ∨ k ∈ m.node.purged
  awake : m.node.deaf = false → m.phase ≠ .subscribe → ¬ event → stage ≠ some .list →
    m.node.watched = true ∧ ∀ k ∈ m.node.present, k ∈ Stage.ahead stage ∨ k ∈ m.phase.ahead ∨ k ∈ m.node.undeleted

namespace Machine

variable {m m' : Machine} {event : Prop} {stage stage' : Option Stage}

/-- Whether a watch was used up. -/
def Used (m m' : Machine) : Prop := m.node.watched = true ∧ m'.node.watched = false

theorem watched_new (left : List String) : (Machine.new left).Watched False none where
  values := fun _ h => by cases h
  known := fun k h => List.mem_range.1 (by simpa [Machine.new, CommandNode.found] using h)
  once := fun k => by
    show 0 + _ ≤ 1 + 0
    split <;> decide
  deletes := fun _ h => by cases h
  accounted := fun k h => .inl (List.mem_range.2 h)
  awake := fun _ h => absurd rfl h

theorem Watched.mono {event' : Prop} (h : m.Watched event stage) (he : event → event') : m.Watched event' stage :=
  { h with awake := fun hd hp hn => h.awake hd hp fun he' => hn (he he') }

/-- What happens to the requests only is nothing to the node. -/
theorem Watched.same (h : m.Watched event stage) {fifo : State} {object : Controlled} :
    { m with fifo, object }.Watched event stage :=
  ⟨h.values, h.known, h.once, h.deletes, h.accounted, h.awake⟩

/-- The handler goes on with the same children ahead of it and the same one to delete. -/
theorem Watched.moves (h : m.Watched event stage) (hdeletes : Stage.deletes stage' = Stage.deletes stage)
    (hahead : Stage.ahead stage' = Stage.ahead stage) (hlist : stage ≠ some .list) : m.Watched event stage' :=
  { h with
    once := fun k => by rw [hdeletes]; exact h.once k
    deletes := by rw [hdeletes]; exact h.deletes
    awake := fun hd hp he _ => by rw [hahead]; exact h.awake hd hp he hlist }

theorem one_le_one {P Q : Prop} [Decidable P] [Decidable Q] (h : P → Q) :
    (if P then 1 else 0) ≤ if Q then 1 else 0 := by
  split
  next hp => rw [if_pos (h hp)]
  next => exact Nat.zero_le _

/-- **A client makes a child.** -/
theorem Watched.create (h : m.Watched event stage) (command : String) :
    { m with node := m.node.create command }.Watched
      (event ∨ Used m { m with node := m.node.create command }) stage where
  values := fun x hx => by
    obtain ⟨value, hvalue, he⟩ := h.values x hx
    refine ⟨value, ?_, he⟩
    show (m.node.sent ++ [command])[x.1]? = some value
    rw [List.getElem?_append_left (List.getElem?_eq_some_iff.1 hvalue).1, hvalue]
  known := fun k hk => by
    show k < (m.node.sent ++ [command]).length
    rw [List.length_append]
    rcases List.mem_append.1 hk with hk | hk
    · rcases List.mem_append.1 hk with hk | hk
      · exact Nat.lt_succ_of_lt (h.known k (List.mem_append_left _ hk))
      · exact List.mem_singleton.1 hk ▸ Nat.lt_succ_self _
    · exact Nat.lt_succ_of_lt (h.known k (List.mem_append_right _ hk))
  once := fun k => by
    show (m.delivered.map Prod.fst ++ m.node.ignored).count k +
      (if k ∈ m.node.present ++ [m.node.sent.length] ∧ k ∉ Stage.deletes stage then 1 else 0) ≤
        1 + m.node.undeleted.count k
    by_cases hk : k = m.node.sent.length
    · -- the number is new
      have hzero : (m.delivered.map Prod.fst ++ m.node.ignored).count k = 0 := by
        refine List.count_eq_zero.2 fun hmem => ?_
        rcases List.mem_append.1 hmem with hmem | hmem
        · obtain ⟨x, hx, rfl⟩ := List.mem_map.1 hmem
          obtain ⟨value, hvalue, -⟩ := h.values x hx
          exact absurd (List.getElem?_eq_some_iff.1 hvalue).1 (by omega)
        · exact absurd (h.known k (List.mem_append_right _ hmem)) (by omega)
      rw [hzero]
      split <;> omega
    · refine Nat.le_trans (Nat.add_le_add_left (one_le_one fun hp => ⟨?_, hp.2⟩) _) (h.once k)
      exact (List.mem_append.1 hp.1).resolve_right fun hm => hk (List.mem_singleton.1 hm)
  deletes := h.deletes
  accounted := fun k hk => by
    have hk' : k < m.node.sent.length + 1 := by
      have : k < (m.node.sent ++ [command]).length := hk
      rwa [List.length_append] at this
    rcases Nat.lt_succ_iff_lt_or_eq.1 hk' with hlt | rfl
    · exact (h.accounted k hlt).imp_left fun hp => List.mem_append_left _ hp
    · exact .inl (List.mem_append_right _ (List.mem_singleton_self _))
  awake := fun hd hp he hl => by
    -- a watch that was set is used up
    have hw := (h.awake hd hp (fun hev => he (.inl hev)) hl).1
    exact absurd (.inr ⟨hw, rfl⟩) he

/-- A child goes, and with it a watch that is set. -/
theorem Watched.leaves (h : m.Watched event stage) {child : Nat} {node : CommandNode} {phase : Phase}
    (hsent : node.sent = m.node.sent) (hpresent : node.present = m.node.present.filter (· ≠ child))
    (hignored : node.ignored = m.node.ignored) (hundeleted : node.undeleted = m.node.undeleted)
    (hunread : node.unread = m.node.unread) (hdeaf : node.deaf = m.node.deaf) (hwatched : node.watched = false)
    (hphase : m.phase = .subscribe → phase = .subscribe)
    (hwithdrawn : m.node.withdrawn ⊆ node.withdrawn) (hpurged : m.node.purged ⊆ node.purged)
    (hchild : child ∈ m.read ∨ child ∈ node.withdrawn ∨ child ∈ node.purged)
    (hdeletes : ∀ k ∈ Stage.deletes stage, k ≠ child → k ∈ Stage.deletes stage')
    (hstage : ∀ k ∈ Stage.deletes stage', k ∈ m.read) (hlist : stage = some .list → stage' = some .list) :
    { m with node, phase }.Watched (event ∨ Used m { m with node, phase }) stage' := by
  have hread : ({ m with node, phase } : Machine).read = m.read := by
    show m.delivered.map Prod.fst ++ node.ignored ++ node.unread = _
    rw [hignored, hunread]
    rfl
  have hsub : ∀ k ∈ node.present, k ∈ m.node.present := fun k hk => by
    rw [hpresent] at hk
    exact List.mem_of_mem_filter hk
  refine ⟨?_, fun k hk => ?_, fun k => ?_, ?_, fun k hk => ?_, fun hd hp he hl => ?_⟩
  · show ∀ x ∈ m.delivered, ∃ value, node.sent[x.1]? = some value ∧ _
    rw [hsent]
    exact h.values
  · show k < node.sent.length
    rw [hsent]
    refine h.known k ?_
    rcases List.mem_append.1 hk with hk | hk
    · exact List.mem_append_left _ (hsub k hk)
    · exact List.mem_append_right _ (hignored ▸ hk)
  · show (m.delivered.map Prod.fst ++ node.ignored).count k +
      (if k ∈ node.present ∧ k ∉ Stage.deletes stage' then 1 else 0) ≤ 1 + node.undeleted.count k
    rw [hignored, hundeleted]
    refine Nat.le_trans (Nat.add_le_add_left (one_le_one fun hk => ⟨hsub k hk.1, fun hd => hk.2 ?_⟩) _) (h.once k)
    refine hdeletes k hd fun he => ?_
    rw [hpresent, he] at hk
    exact absurd rfl (of_decide_eq_true (List.mem_filter.1 hk.1).2)
  · rw [hread]
    exact hstage
  · show k ∈ node.present ∨ k ∈ ({ m with node, phase } : Machine).read ∨ k ∈ node.withdrawn ∨ k ∈ node.purged
    rw [hread]
    by_cases hk' : k = child
    · exact .inr (hk' ▸ hchild)
    · have hk'' : k < m.node.sent.length := by rw [← hsent]; exact hk
      rcases h.accounted k hk'' with hp | hr | hw | hpu
      · refine .inl ?_
        rw [hpresent]
        exact List.mem_filter.2 ⟨hp, decide_eq_true hk'⟩
      · exact .inr (.inl hr)
      · exact .inr (.inr (.inl (hwithdrawn hw)))
      · exact .inr (.inr (.inr (hpurged hpu)))
  · have hw := (h.awake (hdeaf.symm.trans hd) (fun hs => hp (hphase hs)) (fun hev => he (.inl hev))
      fun hs => hl (hlist hs)).1
    exact absurd (.inr ⟨hw, hwatched⟩) he

/-- **A child goes with its client.** -/
theorem Watched.withdraw (h : m.Watched event stage) (child : Nat) :
    { m with node := m.node.withdraw child }.Watched (event ∨ Used m { m with node := m.node.withdraw child }) stage :=
  h.leaves rfl rfl rfl rfl rfl rfl rfl id (List.subset_append_left _ _) (List.Subset.refl _)
    (.inr (.inl (List.mem_append_right _ (List.mem_singleton_self _)))) (fun _ hk _ => hk) h.deletes id

/-- A delete that failed. -/
theorem Watched.undeleted (h : m.Watched event stage) (child : Nat) (hdeletes : ∀ k ∈ Stage.deletes stage, k ≠ child →
    k ∈ Stage.deletes stage')
    (hread : ∀ k ∈ Stage.deletes stage', k ∈ m.read)
    (hahead : ∀ k ∈ Stage.ahead stage, k = child ∨ k ∈ Stage.ahead stage')
    (phase : Phase) (hphase : ∀ k ∈ m.phase.ahead, k = child ∨ k ∈ phase.ahead)
    (hsubscribe : m.phase = .subscribe → phase = .subscribe) (hlist : stage = some .list → stage' = some .list) :
    { m with phase, node := { m.node with undeleted := m.node.undeleted ++ [child] } }.Watched event stage' := by
  refine ⟨h.values, h.known, fun k => ?_, hread, h.accounted, fun hd hp he hl => ?_⟩
  · show (m.delivered.map Prod.fst ++ m.node.ignored).count k +
      (if k ∈ m.node.present ∧ k ∉ Stage.deletes stage' then 1 else 0) ≤ 1 + (m.node.undeleted ++ [child]).count k
    have honce := h.once k
    have hcount : (m.node.undeleted ++ [child]).count k = m.node.undeleted.count k + if child = k then 1 else 0 := by
      rw [List.count_append, List.count_singleton]
      simp only [beq_iff_eq]
    rw [hcount]
    by_cases hk : child = k
    · rw [if_pos hk]
      have := one_le_one (P := k ∈ m.node.present ∧ k ∉ Stage.deletes stage') (Q := True) fun _ => trivial
      rw [if_pos trivial] at this
      omega
    · refine Nat.le_trans
        (Nat.add_le_add_left (one_le_one fun hp => ⟨hp.1, fun hd => hp.2 (hdeletes k hd (Ne.symm hk))⟩) _)
        (Nat.le_trans honce ?_)
      omega
  · obtain ⟨hw, hpresent⟩ := h.awake hd (fun hs => hp (hsubscribe hs)) he fun hs => hl (hlist hs)
    refine ⟨hw, fun k hk => ?_⟩
    have hnew : child ∈ m.node.undeleted ++ [child] := List.mem_append_right _ (List.mem_singleton_self _)
    rcases hpresent k hk with ha | ha | hu
    · rcases hahead k ha with rfl | ha
      · exact .inr (.inr hnew)
      · exact .inl ha
    · rcases hphase k ha with rfl | ha
      · exact .inr (.inr hnew)
      · exact .inr (.inl ha)
    · exact .inr (.inr (List.mem_append_left _ hu))

/-- **The children are listed**, and a watch is set. -/
theorem Watched.getChildren (h : m.Watched event stage) {order : Option (List Nat)} {node : CommandNode}
    (hnode : m.node.getChildren order = some node) {phase : Phase} (hdeletes : Stage.deletes stage = [])
    (hdeletes' : Stage.deletes stage' = [])
    (hahead : ∀ children, order = some children → Stage.ahead stage' = children ∨ phase.ahead = children) :
    { m with node, phase }.Watched event stage' := by
  have honce : ∀ k, (m.delivered.map Prod.fst ++ m.node.ignored).count k +
      (if k ∈ m.node.present ∧ k ∉ Stage.deletes stage' then 1 else 0) ≤ 1 + m.node.undeleted.count k := fun k => by
    have := h.once k
    rwa [hdeletes, ← hdeletes'] at this
  have hstage : ∀ k ∈ Stage.deletes stage', k ∈ m.read := fun k hk => by
    rw [hdeletes'] at hk
    cases hk
  cases order with
  | none =>
    cases hnode
    exact ⟨h.values, h.known, honce, hstage, h.accounted, fun hd => by cases hd⟩
  | some children =>
    obtain ⟨hperm, he⟩ := Option.ite_none_right_eq_some.1 hnode
    cases he
    refine ⟨h.values, h.known, honce, hstage, h.accounted, fun _ _ _ _ => ⟨rfl, fun k hk => ?_⟩⟩
    rcases hahead children rfl with ha | ha
    · exact .inl (ha ▸ hperm.symm.subset hk)
    · exact .inr (.inl (ha ▸ hperm.symm.subset hk))

/-- **A delete**, of a child that was read or is purged. -/
theorem Watched.deleteChild (h : m.Watched event stage) (child : Nat) (ok : Bool) (hread : child ∈ m.read)
    (hdeletes : ∀ k ∈ Stage.deletes stage, k ≠ child → k ∈ Stage.deletes stage')
    (hstage : ∀ k ∈ Stage.deletes stage', k ∈ m.read)
    (hahead : ∀ k ∈ Stage.ahead stage, k = child ∨ k ∈ Stage.ahead stage')
    (hlist : stage = some .list → stage' = some .list) :
    (m.deleteChild child ok).Watched (event ∨ Used m (m.deleteChild child ok)) stage' := by
  unfold Machine.deleteChild
  split
  next hp =>
    split
    · exact h.leaves rfl rfl rfl rfl rfl rfl rfl id (List.Subset.refl _) (List.Subset.refl _)
        (.inl hread) hdeletes hstage
        hlist
    · exact (h.undeleted child hdeletes hstage hahead m.phase (fun k hk => .inr hk) id hlist).mono .inl
  next hp =>
    -- a missing child
    refine ⟨h.values, h.known, fun k => ?_, hstage, h.accounted, fun hd hph he hl => ?_⟩
    · refine Nat.le_trans (Nat.add_le_add_left (one_le_one fun hk => ⟨hk.1, fun hd => hk.2 ?_⟩) _) (h.once k)
      exact hdeletes k hd fun he => hp (he ▸ hk.1)
    · obtain ⟨hw, hpresent⟩ := h.awake hd hph (fun hev => he (.inl hev)) fun hs => hl (hlist hs)
      refine ⟨hw, fun k hk => (hpresent k hk).imp_left fun ha => ?_⟩
      exact (hahead k ha).resolve_left fun he => hp (he ▸ hk)

theorem Watched.phase (h : m.Watched event stage) (phase : Phase) (hm : m.phase ≠ .subscribe)
    (hahead : ∀ k ∈ m.phase.ahead, k ∈ phase.ahead ∨ k ∉ m.node.present) : { m with phase }.Watched event stage :=
  ⟨h.values, h.known, h.once, h.deletes, h.accounted, fun hd _ he hl => by
    obtain ⟨hw, hpresent⟩ := h.awake hd hm he hl
    refine ⟨hw, fun k hk => ?_⟩
    rcases hpresent k hk with ha | ha | hu
    · exact .inl ha
    · exact .inr (.inl ((hahead k ha).resolve_right fun hn => hn hk))
    · exact .inr (.inr hu)⟩

/-- **A step of the registration.** -/
theorem Watched.register (h : m.Watched event stage) {a : Registering} (hs : m.register a = some m')
    (hstage : stage = none ∨ m.phase ≠ .subscribe) : m'.Watched (event ∨ Used m m') stage := by
  cases a with
  | subscribeNewChild order =>
    obtain ⟨hphase, hs⟩ := Option.ite_none_right_eq_some.1 hs
    obtain ⟨node, hnode, rfl⟩ := Option.map_eq_some_iff.1 hs
    obtain rfl := hstage.resolve_right fun hn => hn hphase
    refine (h.getChildren hnode rfl rfl fun children ho => .inr ?_).mono .inl
    rw [ho]
    rfl
  | purge ok =>
    simp only [Machine.register] at hs
    split at hs
    next hphase =>
      cases hs
      refine (h.phase .construct (fun he => by rw [hphase] at he; cases he) fun k hk => ?_).mono .inl
      rw [hphase] at hk
      cases hk
    next k ks hphase =>
      cases hs
      have hne : m.phase ≠ .subscribe := fun he => by rw [hphase] at he; cases he
      have hsplit : ∀ j ∈ m.phase.ahead, j = k ∨ j ∈ ks := fun j hj => by
        rw [hphase] at hj
        exact List.mem_cons.1 hj
      unfold Machine.deleteChild
      by_cases hp : k ∈ m.node.present
      · cases ok with
        | true =>
          simp only [hp, if_true, and_self]
          exact h.leaves rfl rfl rfl rfl rfl rfl rfl (fun he => absurd he hne) (List.Subset.refl _)
            (List.subset_append_left _ _) (.inr (.inr (List.mem_append_right _ (List.mem_singleton_self _))))
            (fun _ hk _ => hk) h.deletes id
        | false =>
          simp only [hp, if_true, and_false, if_false, Bool.false_eq_true]
          exact (h.undeleted k (fun _ hk _ => hk) h.deletes (fun j hj => .inr hj) (.purge ks) hsplit
            (fun he => absurd he hne) id).mono
            .inl
      · simp only [hp, if_false, false_and]
        refine (h.phase (.purge ks) hne fun j hj => ?_).mono .inl
        rcases hsplit j hj with rfl | hj
        · exact .inr hp
        · exact .inl hj
    next => cases hs
  | construct taken =>
    obtain ⟨hphase, hs⟩ := Option.ite_none_right_eq_some.1 hs
    cases hs
    have hne : m.phase ≠ .subscribe := fun he => by rw [hphase] at he; cases he
    refine ((h.phase .registered hne fun k hk => ?_).same).mono .inl
    rw [hphase] at hk
    cases hk

/-- **A child is read**: it counts as delivered, or as ignored, or could not be read. -/
theorem Watched.reads {k : Nat} {ks : List Nat} (h : m.Watched event (some (.next (k :: ks))))
    (hm : m' = { m with node := { m.node with unread := m.node.unread ++ [k] } } ∨ (k ∈ m.node.present ∧
      (m' = { m with node := { m.node with ignored := m.node.ignored ++ [k] } } ∨
        ∃ fifo value, m.node.sent[k]? = some value ∧
          m' = { m with fifo, delivered := m.delivered ++ [(k, String.ofList (value.toList.take 127))] })))
    (hstage : stage' = some (.delete k ks) ∨ stage' = some (.call k ks)) : m'.Watched event stage' := by
  have hdeletes : Stage.deletes stage' = [k] := by rcases hstage with rfl | rfl <;> rfl
  have hahead : Stage.ahead stage' = k :: ks := by rcases hstage with rfl | rfl <;> rfl
  have honce : ∀ j, (m.delivered.map Prod.fst ++ m.node.ignored).count j + (if j ∈ m.node.present then 1 else 0) ≤
      1 + m.node.undeleted.count j := fun j => by
    have := h.once j
    simpa [Stage.deletes] using this
  have hless : ∀ j, (if j ∈ m.node.present ∧ j ∉ Stage.deletes stage' then 1 else 0) ≤
      if j ∈ m.node.present then 1 else 0 := fun j => one_le_one fun hp => hp.1
  -- the child has one more reading, and is to be deleted now
  have hread : k ∈ m.node.present → ∀ j, (m.delivered.map Prod.fst ++ m.node.ignored).count j + [k].count j +
      (if j ∈ m.node.present ∧ j ∉ Stage.deletes stage' then 1 else 0) ≤ 1 + m.node.undeleted.count j := fun hp j => by
    rw [hdeletes, List.count_singleton]
    have := honce j
    by_cases hj : k = j
    · subst hj
      simpa [hp] using this
    · simpa [hj, Ne.symm hj] using this
  have hawake : m.node.deaf = false → m.phase ≠ .subscribe → ¬ event → stage' ≠ some .list →
      m.node.watched = true ∧
        ∀ j ∈ m.node.present, j ∈ Stage.ahead stage' ∨ j ∈ m.phase.ahead ∨ j ∈ m.node.undeleted := fun hd hp he _ => by
    rw [hahead]
    exact h.awake hd hp he fun hl => by cases hl
  rcases hm with rfl | ⟨hp, rfl | ⟨fifo, value, hvalue, rfl⟩⟩
  · refine ⟨h.values, h.known, fun j => Nat.le_trans (Nat.add_le_add_left (hless j) _) (honce j), fun j hj => ?_,
      fun j hj => ?_, hawake⟩
    · rw [hdeletes] at hj
      exact List.mem_append_right _ (List.mem_append_right _ hj)
    · refine (h.accounted j hj).imp_right fun hr => hr.imp_left fun hr => ?_
      rcases List.mem_append.1 hr with hr | hr
      · exact List.mem_append_left _ hr
      · exact List.mem_append_right _ (List.mem_append_left _ hr)
  · refine ⟨h.values, fun j hj => ?_, fun j => ?_, fun j hj => ?_, fun j hj => ?_, hawake⟩
    · rcases List.mem_append.1 hj with hj | hj
      · exact h.known j (List.mem_append_left _ hj)
      · rcases List.mem_append.1 hj with hj | hj
        · exact h.known j (List.mem_append_right _ hj)
        · exact List.mem_singleton.1 hj ▸ h.known k (List.mem_append_left _ hp)
    · show (m.delivered.map Prod.fst ++ (m.node.ignored ++ [k])).count j + _ ≤ _
      rw [← List.append_assoc, List.count_append]
      exact hread hp j
    · rw [hdeletes] at hj
      exact List.mem_append_left _ (List.mem_append_right _ (List.mem_append_right _ hj))
    · refine (h.accounted j hj).imp_right fun hr => hr.imp_left fun hr => ?_
      rcases List.mem_append.1 hr with hr | hr
      · rcases List.mem_append.1 hr with hr | hr
        · exact List.mem_append_left _ (List.mem_append_left _ hr)
        · exact List.mem_append_left _ (List.mem_append_right _ (List.mem_append_left _ hr))
      · exact List.mem_append_right _ hr
  · refine ⟨fun x hx => ?_, h.known, fun j => ?_, fun j hj => ?_, fun j hj => ?_, hawake⟩
    · rcases List.mem_append.1 hx with hx | hx
      · exact h.values x hx
      · obtain rfl := List.mem_singleton.1 hx
        exact ⟨value, hvalue, rfl⟩
    · show ((m.delivered ++ [(k, _)]).map Prod.fst ++ m.node.ignored).count j + _ ≤ _
      rw [List.map_append, List.append_assoc, List.count_append, List.count_append]
      have := hread hp j
      rw [List.count_append] at this
      simp only [List.map_cons, List.map_nil]
      omega
    · rw [hdeletes] at hj
      refine List.mem_append_left _ (List.mem_append_left _ ?_)
      rw [List.map_append]
      exact List.mem_append_right _ hj
    · refine (h.accounted j hj).imp_right fun hr => hr.imp_left fun hr => ?_
      rcases List.mem_append.1 hr with hr | hr
      · refine List.mem_append_left _ ?_
        rcases List.mem_append.1 hr with hr | hr
        · refine List.mem_append_left _ ?_
          rw [List.map_append]
          exact List.mem_append_left _ hr
        · exact List.mem_append_right _ hr
      · exact List.mem_append_right _ hr

/-- **A step of the thread that handles events.** -/
theorem Watched.watch {st : Stage} (h : m.Watched event (some st)) {a : Watching}
    (hs : m.watch st a = some (m', stage')) : m'.Watched (event ∨ Used m m') stage' := by
  unfold Machine.watch at hs
  split at hs
  next order =>
    obtain ⟨node, hnode, he⟩ := Option.map_eq_some_iff.1 hs
    cases he
    refine (h.getChildren hnode rfl ?_ fun children ho => .inl ?_).mono Or.inl
    · cases order <;> rfl
    · rw [ho]
      rfl
  next =>
    cases hs
    have hdone : m.Watched event none := h.moves rfl rfl (fun he => by cases he)
    exact hdone.mono Or.inl
  next k ks ok =>
    split at hs
    next =>
      cases hs
      exact (h.reads (.inl rfl) (.inl rfl)).mono Or.inl
    next command hget =>
      obtain ⟨hp, hget⟩ := Option.ite_none_right_eq_some.1 hget
      obtain ⟨value, hvalue, rfl⟩ := Option.map_eq_some_iff.1 hget
      rcases deliver_cases hs with ⟨-, fifo, -, rfl, rfl⟩ | ⟨rfl, rfl⟩
      · exact (h.reads (.inr ⟨hp.1, .inr ⟨fifo, value, hvalue, rfl⟩⟩) (.inr rfl)).mono Or.inl
      · exact (h.reads (.inr ⟨hp.1, .inl rfl⟩) (.inl rfl)).mono Or.inl
  next k ks =>
    obtain ⟨fifo, -, he⟩ := Option.map_eq_some_iff.1 hs
    cases he
    have hsame : { m with fifo }.Watched event (some (.call k ks)) := h.same
    split
    · have hdone : { m with fifo }.Watched event (some (.delete k ks)) := hsame.moves rfl rfl (fun he => by cases he)
      exact hdone.mono Or.inl
    · exact hsame.mono Or.inl
  next k ks ok =>
    cases hs
    refine h.deleteChild k ok (h.deletes k (List.mem_singleton_self k)) (fun j hj hne => ?_) (fun _ hj => by cases hj)
      (fun j hj => List.mem_cons.1 hj) (fun he => by cases he)
    exact absurd (List.mem_singleton.1 hj) hne
  next => cases hs

/-- **A step of the engine.** -/
theorem Watched.turn (h : m.Watched event stage) {a : Turning} (hs : m.turn a = some m') : m'.Watched event stage := by
  obtain ⟨fifo, -, rfl | ⟨p, command, err, taken, -, -, rfl⟩ | ⟨errRunning, errCheck, taken₁, taken₂, rfl⟩⟩ :=
    turn_cases hs
  · exact h.same
  · exact h.same
  · exact h.same

/-! ## The phases -/

theorem deleteChild_phase (m : Machine) (child : Nat) (ok : Bool) : (m.deleteChild child ok).phase = m.phase := by
  obtain ⟨node, hnode⟩ := deleteChild_node m child ok
  rw [hnode]

theorem register_phase {a : Registering} (hs : m.register a = some m') :
    m.phase ≠ .registered ∧ m'.phase ≠ .subscribe := by
  cases a with
  | subscribeNewChild order =>
    obtain ⟨hphase, hs⟩ := Option.ite_none_right_eq_some.1 hs
    obtain ⟨node, -, rfl⟩ := Option.map_eq_some_iff.1 hs
    exact ⟨(fun he => by rw [hphase] at he; cases he), fun he => by cases he⟩
  | purge ok =>
    simp only [Machine.register] at hs
    split at hs
    next hphase =>
      cases hs
      exact ⟨(fun he => by rw [hphase] at he; cases he), fun he => by cases he⟩
    next k ks hphase =>
      cases hs
      have hd : ({ m with phase := .purge ks }.deleteChild k ok).phase = .purge ks := deleteChild_phase _ k ok
      refine ⟨(fun he => by rw [hphase] at he; cases he), fun he => ?_⟩
      split at he
      · exact Phase.noConfusion (hd.symm.trans he)
      · exact Phase.noConfusion (hd.symm.trans he)
    next => cases hs
  | construct taken =>
    obtain ⟨hphase, hs⟩ := Option.ite_none_right_eq_some.1 hs
    cases hs
    exact ⟨(fun he => by rw [hphase] at he; cases he), fun he => by cases he⟩

theorem watch_phase {st : Stage} {a : Watching} (hs : m.watch st a = some (m', stage')) : m'.phase = m.phase := by
  unfold Machine.watch at hs
  split at hs
  next =>
    obtain ⟨node, -, he⟩ := Option.map_eq_some_iff.1 hs
    cases he
    rfl
  next =>
    cases hs
    rfl
  next =>
    split at hs
    next =>
      cases hs
      rfl
    next =>
      rcases deliver_cases hs with ⟨-, fifo, -, rfl, -⟩ | ⟨rfl, -⟩
      · rfl
      · rfl
  next =>
    obtain ⟨fifo, -, he⟩ := Option.map_eq_some_iff.1 hs
    cases he
    rfl
  next k ks ok =>
    cases hs
    exact deleteChild_phase m k ok
  next => cases hs

theorem turn_phase {a : Turning} (hs : m.turn a = some m') : m'.phase = m.phase := by
  obtain ⟨fifo, -, rfl | ⟨p, command, err, taken, -, -, rfl⟩ | ⟨errRunning, errCheck, taken₁, taken₂, rfl⟩⟩ :=
    turn_cases hs
  · rfl
  · rfl
  · rfl

end Machine

end Control
end Flp
