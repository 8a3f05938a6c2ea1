import FlpPrototype.Rorc.CruRuns
/-!
# CruCounters — the counters of the CRU's links over any number of superpages

The firmware's count of a link and the driver's own are 32 bits wide and go on from zero behind their last value.  What
a fill has to move is said here with the numbers of superpages the counters stand for, which have no bound.
-/
namespace Flp
namespace Rorc
namespace Cru

open CruChannel

/-- How many superpages have left the link's queue. -/
def Link.taken (link : Link) : Nat := link.pushed.length - link.queue.length

/-- A link whose counter stands for what has left its queue. -/
structure Link.Counted (link : Link) : Prop where
  room : link.queue.length ≤ LINK_QUEUE_CAPACITY
  given : link.queue.length ≤ link.pushed.length
  counter : link.superpageCounter = wrap32 link.taken

/-! ### What a fill is to do -/

section
variable (completed : Nat → Nat)

/-- How many superpages of the link the firmware has completed since the driver last took one. -/
def newlyCompleted (link : Link) : Nat := completed link.id - link.taken

/-- The link behind the first `n` superpages of its queue. -/
def Link.behind (link : Link) (n : Nat) : Link :=
  { link with queue := link.queue.drop n, superpageCounter := wrap32 (link.superpageCounter + n) }

/-- The first `n` superpages of the link's queue, as they arrive. -/
def Link.arrivals (link : Link) (n : Nat) : List Arrival :=
  (link.queue.take n).map fun superpage => ⟨link.id, arrived superpage⟩

/-- Each link in its turn gives what is newly completed, as far as the ready queue has slots left. -/
def moveCompleted : List Link → List Arrival → List Link × List Arrival
  | [], ready            => ([], ready)
  | link :: links, ready =>
    let n := min (newlyCompleted completed link) (READY_QUEUE_CAPACITY - ready.length)
    let rest := moveCompleted links (ready ++ link.arrivals n)
    (link.behind n :: rest.1, rest.2)

/-- **What a fill is to do**: throw nothing, move what is newly completed, overwrite nothing. -/
def MovesCompleted (s : CruChannel) : Prop :=
  let result := s.fillSuperpages fun id => wrap32 (completed id)
  result.1 = none ∧ result.2.mLinks = (moveCompleted completed s.mLinks s.mReadyQueue).1 ∧
    result.2.mReadyQueue = (moveCompleted completed s.mLinks s.mReadyQueue).2 ∧ result.2.overwrites = s.overwrites

/-- At each link either the counter stays below its last value or the ready queue has no slot left for it, `arrivals`
being what the ready queue holds and the links before it have completed. -/
def Unwrapped : List Link → Nat → Prop
  | [], _                  => True
  | link :: links, arrivals =>
    (link.superpageCounter + newlyCompleted completed link < 2 ^ 32 ∨ READY_QUEUE_CAPACITY ≤ arrivals) ∧
      Unwrapped links (arrivals + newlyCompleted completed link)

end

/-! ### Two counters -/

/-- Below the last value the counters differ by what they stand for. -/
theorem wrap32_sub_of_lt {a b : Nat} (hle : a ≤ b) (h : wrap32 a + (b - a) < 2 ^ 32) :
    wrap32 b - wrap32 a = b - a := by
  unfold wrap32 at *
  omega

/-- Behind it the later counter is not above the earlier one. -/
theorem wrap32_sub_of_ge {a b : Nat} (hnear : b - a ≤ LINK_QUEUE_CAPACITY) (h : 2 ^ 32 ≤ wrap32 a + (b - a)) :
    wrap32 b - wrap32 a = 0 := by
  have hcapacity : LINK_QUEUE_CAPACITY = 32 := rfl
  unfold wrap32 at *
  omega

theorem wrap32_add (a b : Nat) : wrap32 (wrap32 a + b) = wrap32 (a + b) :=
  Nat.mod_add_mod a (2 ^ 32) b

/-! ### One link -/

variable {link : Link}

theorem Link.arrivals_zero (link : Link) : link.arrivals 0 = [] := rfl

theorem Link.arrivals_length {n : Nat} (h : n ≤ link.queue.length) : (link.arrivals n).length = n := by
  rw [Link.arrivals, List.length_map, List.length_take, Nat.min_eq_left h]

namespace Link.Counted

theorem behind_zero (h : link.Counted) : link.behind 0 = link := by
  have hcounter : wrap32 link.superpageCounter = link.superpageCounter := by
    rw [h.counter, wrap32, wrap32, Nat.mod_mod]
  rw [Link.behind, Nat.add_zero, List.drop_zero, hcounter]

theorem front {superpage : Superpage} {queue : List Superpage} (h : link.Counted)
    (hq : link.queue = superpage :: queue) :
    Link.Counted { link with queue, superpageCounter := wrap32 (link.superpageCounter + 1) } := by
  obtain ⟨hroom, hgiven, hcounter⟩ := h
  rw [Link.taken] at hcounter
  rw [hq, List.length_cons] at hroom hgiven hcounter
  refine ⟨Nat.le_of_succ_le hroom, Nat.le_of_succ_le hgiven, ?_⟩
  simp only [Link.taken]
  rw [hcounter, wrap32_add]
  congr 1
  omega

theorem push (h : link.Counted) (superpage : Superpage) (hroom : link.queue.length < LINK_QUEUE_CAPACITY) :
    Link.Counted (CruChannel.Link.push link superpage) := by
  obtain ⟨-, hgiven, hcounter⟩ := h
  rw [CruChannel.Link.push, CruSession.pushBack_of_lt hroom]
  refine ⟨?_, ?_, ?_⟩
  · rw [List.length_append]
    exact hroom
  · rw [List.length_append, List.length_append]
    exact Nat.add_le_add_right hgiven _
  · rw [hcounter, Link.taken, Link.taken, List.length_append, List.length_append, Nat.add_sub_add_right]

end Link.Counted

/-- **The loop over one link** moves as much as it is told and the ready queue has slots for. -/
theorem fillLink_moves : ∀ (n : Nat) (link : Link) (s : CruChannel), link.Counted → n ≤ link.queue.length →
    ∃ s', fillLink n link s = (none, link.behind (min n (READY_QUEUE_CAPACITY - s.mReadyQueue.length)), s') ∧
      s'.mReadyQueue =
        s.mReadyQueue ++ link.arrivals (min n (READY_QUEUE_CAPACITY - s.mReadyQueue.length)) ∧
      s'.overwrites = s.overwrites
  | 0, link, s, h, _ => by
    rw [Nat.zero_min, h.behind_zero, Link.arrivals_zero, List.append_nil]
    exact ⟨s, rfl, rfl, rfl⟩
  | n + 1, link, s, h, hn => by
    rw [fillLink]
    by_cases hready : READY_QUEUE_CAPACITY ≤ s.mReadyQueue.length
    · rw [if_pos hready, Nat.sub_eq_zero_of_le hready, Nat.min_zero, h.behind_zero, Link.arrivals_zero, List.append_nil]
      exact ⟨s, rfl, rfl, rfl⟩
    rw [if_neg hready]
    have hslot : s.mReadyQueue.length < READY_QUEUE_CAPACITY := Nat.lt_of_not_le hready
    cases hq : link.queue with
    | nil =>
      rw [hq] at hn
      exact absurd hn (Nat.not_succ_le_zero n)
    | cons superpage queue =>
      rw [hq] at hn
      simp only [CruSession.pushBack_of_lt hslot, CruSession.overwritten_of_lt hslot, Nat.add_zero]
      obtain ⟨s', hfill, hmoved, hkept⟩ := fillLink_moves n _
        { s with
          mReadyQueue := s.mReadyQueue ++ [⟨link.id, arrived superpage⟩]
          mLinkQueuesTotalAvailable :=
            wrap64 (s.mLinkQueuesTotalAvailable + 1) } (h.front hq) (Nat.le_of_succ_le_succ hn)
      have hslots : min (n + 1) (READY_QUEUE_CAPACITY - s.mReadyQueue.length) =
          min n (READY_QUEUE_CAPACITY - (s.mReadyQueue.length + 1)) + 1 := by omega
      rw [List.length_append, List.length_singleton] at hfill hmoved
      refine ⟨s', ?_, ?_, hkept⟩
      · rw [hfill, hslots, Link.behind, Link.behind, hq, List.drop_succ_cons, wrap32_add, Nat.add_assoc, Nat.add_comm 1]
      · rw [hmoved, hslots, Link.arrivals, Link.arrivals, hq, List.take_succ_cons, List.map_cons, List.append_assoc]
        rfl

/-- However much it is told, the link stays counted. -/
theorem fillLink_counted : ∀ (n : Nat) (link : Link) (s : CruChannel), link.Counted → (fillLink n link s).2.1.Counted
  | 0, _, _, h => h
  | n + 1, link, s, h => by
    rw [fillLink]
    split
    · exact h
    · split
      · exact h
      · rename_i hq
        exact fillLink_counted n _ _ (h.front hq)

/-! ### All links -/

section
variable {completed : Nat → Nat}

/-- A link and what the firmware has completed of it. -/
structure Link.Ahead (completed : Nat → Nat) (link : Link) : Prop where
  counted : link.Counted
  least : link.taken ≤ completed link.id
  most : completed link.id ≤ link.taken + link.queue.length

theorem Link.Ahead.newly_le (h : link.Ahead completed) : newlyCompleted completed link ≤ link.queue.length :=
  Nat.sub_le_iff_le_add'.2 h.most

/-- What the driver sees of what is newly completed. -/
theorem Link.Ahead.available (h : link.Ahead completed) :
    wrap32 (completed link.id) - link.superpageCounter =
      if link.superpageCounter + newlyCompleted completed link < 2 ^ 32 then newlyCompleted completed link else 0 := by
  have hnear : completed link.id - link.taken ≤ LINK_QUEUE_CAPACITY := Nat.le_trans h.newly_le h.counted.room
  rw [h.counted.counter, newlyCompleted]
  split
  · rename_i hbelow
    exact wrap32_sub_of_lt h.least hbelow
  · rename_i hover
    exact wrap32_sub_of_ge hnear (Nat.le_of_not_lt hover)

/-- The link's turn, when the counter stays below its last value or the ready queue is full. -/
theorem fillLink_completed (h : link.Ahead completed) (s : CruChannel)
    (hok : link.superpageCounter + newlyCompleted completed link < 2 ^ 32 ∨
      READY_QUEUE_CAPACITY ≤ s.mReadyQueue.length) :
    let n := min (newlyCompleted completed link) (READY_QUEUE_CAPACITY - s.mReadyQueue.length)
    ∃ s', fillLink (wrap32 (completed link.id) - link.superpageCounter) link s = (none, link.behind n, s') ∧
      s'.mReadyQueue = s.mReadyQueue ++ link.arrivals n ∧ s'.overwrites = s.overwrites := by
  intro n
  have hle : wrap32 (completed link.id) - link.superpageCounter ≤ link.queue.length := by
    rw [h.available]
    split
    · exact h.newly_le
    · exact Nat.zero_le _
  have hn : min (wrap32 (completed link.id) - link.superpageCounter) (READY_QUEUE_CAPACITY - s.mReadyQueue.length) =
      n := by
    rcases hok with hbelow | hfull
    · rw [h.available, if_pos hbelow]
    · simp only [n, Nat.sub_eq_zero_of_le hfull, Nat.min_zero]
  have hmoves := fillLink_moves _ link s h.counted hle
  rw [hn] at hmoves
  exact hmoves

/-- The link's turn otherwise: it is left as it is, and should not be. -/
theorem fillLink_missed (h : link.Ahead completed) {ready : Nat}
    (hbad : ¬(link.superpageCounter + newlyCompleted completed link < 2 ^ 32 ∨ READY_QUEUE_CAPACITY ≤ ready)) :
    wrap32 (completed link.id) - link.superpageCounter = 0 ∧
      link.behind (min (newlyCompleted completed link) (READY_QUEUE_CAPACITY - ready)) ≠ link := by
  obtain ⟨hover, hslot⟩ := not_or.1 hbad
  refine ⟨by rw [h.available, if_neg hover], fun hsame => ?_⟩
  have hlength := congrArg (fun l => l.queue.length) hsame
  simp only [Link.behind, List.length_drop] at hlength
  -- a counter is below its last value before something is added
  have hsmall : link.superpageCounter < 2 ^ 32 := by
    rw [h.counted.counter]
    exact Nat.mod_lt _ (Nat.two_pow_pos 32)
  have hnewly := h.newly_le
  omega

/-- **The loop over the links** does as it is to exactly when no counter goes past its last value.  `arrivals` says how
full the ready queue is, past its capacity too. -/
theorem fillLinks_iff : ∀ (links : List Link) (s : CruChannel) (arrivals : Nat),
    (∀ link ∈ links, link.Ahead completed) →
    min arrivals READY_QUEUE_CAPACITY = min s.mReadyQueue.length READY_QUEUE_CAPACITY →
    let result := fillLinks (fun id => wrap32 (completed id)) links s
    (result.1 = none ∧ result.2.1 = (moveCompleted completed links s.mReadyQueue).1 ∧
        result.2.2.mReadyQueue = (moveCompleted completed links s.mReadyQueue).2 ∧
        result.2.2.overwrites = s.overwrites ↔
      Unwrapped completed links arrivals)
  | [], s, _, _, _ => ⟨fun _ => trivial, fun _ => ⟨rfl, rfl, rfl, rfl⟩⟩
  | link :: links, s, arrivals, hahead, harrivals => by
    have hlink := hahead link List.mem_cons_self
    have hfull : READY_QUEUE_CAPACITY ≤ arrivals ↔ READY_QUEUE_CAPACITY ≤ s.mReadyQueue.length := by omega
    have hle : wrap32 (completed link.id) - link.superpageCounter ≤ link.queue.length := by
      rw [hlink.available]
      split
      · exact hlink.newly_le
      · exact Nat.zero_le _
    rw [Unwrapped, hfull, fillLinks, if_neg (Nat.not_lt.2 hle), moveCompleted]
    by_cases hok : link.superpageCounter + newlyCompleted completed link < 2 ^ 32 ∨
        READY_QUEUE_CAPACITY ≤ s.mReadyQueue.length
    · obtain ⟨s₁, hfill, hready, hkept⟩ := fillLink_completed hlink s hok
      have hlength := congrArg List.length hready
      rw [List.length_append, Link.arrivals_length (Nat.le_trans (Nat.min_le_left _ _) hlink.newly_le)] at hlength
      have ih := fillLinks_iff links s₁ (arrivals + newlyCompleted completed link)
        (fun l hl => hahead l (List.mem_cons_of_mem _ hl)) (by omega)
      simp only [hready, hkept] at ih
      rw [← ih, hfill]
      simp only [List.cons.injEq, true_and, hok]
    · obtain ⟨hnone, hother⟩ := fillLink_missed hlink hok
      refine iff_of_false (fun h => ?_) fun h => hok h.1
      rw [hnone, fillLink] at h
      exact hother (List.cons.inj h.2.1).1.symm

/-- **A call does as it is to** exactly when no counter goes past its last value. -/
theorem movesCompleted_iff {s : CruChannel} (hahead : ∀ link ∈ s.mLinks, link.Ahead completed) :
    MovesCompleted completed s ↔ Unwrapped completed s.mLinks s.mReadyQueue.length :=
  fillLinks_iff s.mLinks s s.mReadyQueue.length hahead rfl

end

/-! ### Runs -/

namespace CruSession

variable (cfg : Config)

/-- The call as the driver sees it: the firmware's counts are 32 bits wide. -/
def narrow : Action → Action
  | .push superpage => .push superpage
  | .fill completed => .fill fun id => wrap32 (completed id)
  | .pop            => .pop

/-- A call, a fill being given the numbers of superpages the firmware has completed. -/
def turn (sys : CruSession) (a : Action) : Option CruSession := step cfg sys (narrow a)

/-- The firmware is at most the superpages of the link's queue ahead of the driver. -/
def Ahead (sys : CruSession) : Action → Prop
  | .fill completed => ∀ link ∈ sys.channel.mLinks,
      link.taken ≤ completed link.id ∧ completed link.id ≤ link.taken + link.queue.length
  | _ => True

/-- A fill moves what is newly completed. -/
def Moves (sys : CruSession) : Action → Prop
  | .fill completed => MovesCompleted completed sys.channel
  | _               => True

/-- No counter goes past its last value in the fill, at least as far as the ready queue has slots. -/
def Unturned (sys : CruSession) : Action → Prop
  | .fill completed => Unwrapped completed sys.channel.mLinks sys.channel.mReadyQueue.length
  | _               => True

instance (sys : CruSession) : (a : Action) → Decidable (Ahead sys a)
  | .push _         => isTrue trivial
  | .fill completed => inferInstanceAs (Decidable (∀ link ∈ sys.channel.mLinks,
      link.taken ≤ completed link.id ∧ completed link.id ≤ link.taken + link.queue.length))
  | .pop            => isTrue trivial

/-- The links of a channel are counted. -/
def Counted (sys : CruSession) : Prop := ∀ link ∈ sys.channel.mLinks, link.Counted

theorem fillLinks_counted (superpageCount : Nat → Nat) : ∀ (links : List Link) (s : CruChannel),
    (∀ link ∈ links, link.Counted) → ∀ link ∈ (fillLinks superpageCount links s).2.1, link.Counted
  | [], _, _ => fun _ hl => absurd hl List.not_mem_nil
  | link :: links, s, h => by
    have hlink := fillLink_counted (superpageCount link.id - link.superpageCounter) link s (h link List.mem_cons_self)
    have hlinks : ∀ l ∈ links, l.Counted := fun l hl => h l (List.mem_cons_of_mem _ hl)
    rw [fillLinks]
    split
    · exact h
    · split
      · rename_i hfill
        rw [hfill] at hlink
        exact List.forall_mem_cons.2 ⟨hlink, hlinks⟩
      · rename_i s₁ hfill
        rw [hfill] at hlink
        exact List.forall_mem_cons.2 ⟨hlink, fillLinks_counted superpageCount links s₁ hlinks⟩

theorem pushSuperpage_counted (s : CruChannel) (superpage : Superpage) (h : ∀ link ∈ s.mLinks, link.Counted) :
    ∀ link ∈ (s.pushSuperpage cfg superpage).2.mLinks, link.Counted := by
  rw [CruChannel.pushSuperpage]
  split
  · exact h
  split
  · exact h
  split
  · exact h
  rename_i link hlink
  split
  · exact h
  rename_i hroom
  have hset : ∀ l ∈ s.mLinks.set s.getNextLinkIndex (CruChannel.Link.push link superpage), l.Counted := by
    intro l hl
    rcases List.mem_or_eq_of_mem_set hl with hl | rfl
    · exact h l hl
    · exact (h link (List.mem_of_getElem? hlink)).push superpage (Nat.lt_of_not_le hroom)
  split
  · exact hset
  · exact hset

/-- **Every call** leaves the links counted. -/
theorem counted_step {sys sys' : CruSession} {a : Action} (h : Counted sys) (hs : step cfg sys a = some sys') :
    Counted sys' := by
  cases a with
  | push superpage =>
    have hcounted := pushSuperpage_counted cfg sys.channel superpage h
    rw [step] at hs
    split at hs
    · cases hs
    · rename_i hpush
      obtain rfl := Option.some.inj hs
      rw [hpush] at hcounted
      exact hcounted
  | fill superpageCount =>
    have hcounted := fillLinks_counted superpageCount sys.channel.mLinks sys.channel h
    rw [step] at hs
    split at hs
    · cases hs
    · rename_i hfill
      obtain rfl := Option.some.inj hs
      rw [← (Prod.mk.inj hfill).2]
      exact hcounted
  | pop =>
    rw [step] at hs
    split at hs
    · obtain rfl := Option.some.inj hs
      exact h
    · rename_i hpop
      obtain rfl := Option.some.inj hs
      rw [CruChannel.popSuperpage] at hpop
      split at hpop
      · cases hpop
      · rw [← (Prod.mk.inj (Except.ok.inj hpop)).2]
        exact h

/-- **Fills move what is newly completed exactly as long as no counter goes past its last value**, in every run from
links with any counters. -/
theorem fills_move_iff (sys : CruSession) (hcounted : Counted sys) (as : List Action)
    (hahead : Legal (turn cfg) Ahead sys as) :
    Legal (turn cfg) Moves sys as ↔ Legal (turn cfg) Unturned sys as := by
  refine legal_iff (fun s a hs ha => ?_) (fun s a s' hs _ hstep => counted_step cfg hs hstep) as sys hcounted hahead
  cases a with
  | push _ => exact Iff.rfl
  | fill completed => exact movesCompleted_iff fun link hl => ⟨hs link hl, (ha link hl).1, (ha link hl).2⟩
  | pop => exact Iff.rfl

theorem fills_move_iff_twoLinksRun :
    Legal (turn twoLinksBuffer) Moves (start twoLinksOff) twoLinksRun ↔
      Legal (turn twoLinksBuffer) Unturned (start twoLinksOff) twoLinksRun :=
  fills_move_iff twoLinksBuffer (start twoLinksOff)
    (fun link hl => by
      obtain ⟨l, -, rfl⟩ := List.mem_map.1 hl
      exact ⟨Nat.zero_le _, Nat.le_refl _, rfl⟩)
    twoLinksRun (by decide +kernel)

/-! ### The counter turns over -/

/-- One link, and one superpage after the other pushed, filled and popped. -/
def oneLinkOff : CruChannel := ⟨[⟨0, 0, [], []⟩], 0, [], [], 0⟩

def oneSuperpage : Superpage := ⟨0, 2 ^ 19, 0, 0, false⟩

def cycle (n : Nat) : List Action := [.push oneSuperpage, .fill fun _ => n + 1, .pop]

def cycles : Nat → List Action
  | 0     => []
  | n + 1 => cycles n ++ cycle n

/-- The session behind `n` cycles, and with `queue` given to the link since. -/
def behindCycles (n : Nat) (queue : List Superpage) : CruSession where
  channel := {
    mLinks := [⟨0, wrap32 n, queue, List.replicate n oneSuperpage ++ queue⟩]
    mLinkQueuesTotalAvailable := LINK_QUEUE_CAPACITY - queue.length
    mReadyQueue := []
    descriptors := List.replicate (n + queue.length) ⟨0, 64, 2 ^ 30⟩
    overwrites := 0 }
  popped := List.replicate n ⟨0, arrived oneSuperpage⟩
  superpageCount := fun _ => wrap32 n

theorem push_cycle (n : Nat) :
    turn twoLinksBuffer (behindCycles n []) (.push oneSuperpage) = some (behindCycles n [oneSuperpage]) := by
  have hcheck : Channel.checkSuperpage twoLinksBuffer oneSuperpage = .ok () := by decide
  have haddress : getBusOffsetAddress twoLinksBuffer.scatterGatherList oneSuperpage.offset = some (2 ^ 30) := by decide
  have hpages : wrap32 (oneSuperpage.size / DMA_PAGE_SIZE) = 64 := by decide
  have hnext : (behindCycles n []).channel.getNextLinkIndex = 0 := rfl
  rw [turn, narrow, step, CruChannel.pushSuperpage, hcheck, hnext]
  simp [behindCycles, haddress, hpages, CruChannel.Link.push, pushBack, overwritten, LINK_QUEUE_CAPACITY,
    MAX_SUPERPAGE_DESCRIPTORS, List.replicate_succ']

theorem fill_cycle {n : Nat} (hn : n + 1 < 2 ^ 32) :
    run (turn twoLinksBuffer) (behindCycles n [oneSuperpage]) [.fill fun _ => n + 1, .pop] =
      some (behindCycles (n + 1) []) := by
  have hbelow : wrap32 n = n := Nat.mod_eq_of_lt (Nat.lt_of_succ_lt hn)
  have hnext : wrap32 (n + 1) = n + 1 := Nat.mod_eq_of_lt hn
  simp [run, turn, narrow, step, CruChannel.fillSuperpages, CruChannel.popSuperpage, behindCycles, fillLinks, fillLink,
    hbelow, hnext, READY_QUEUE_CAPACITY, pushBack, overwritten, wrap64, LINK_QUEUE_CAPACITY,
    MAX_SUPERPAGE_DESCRIPTORS, List.replicate_succ']

theorem ahead_cycle (n : Nat) : Ahead (behindCycles n [oneSuperpage]) (.fill fun _ => n + 1) := by
  intro link hl
  obtain rfl := List.mem_singleton.1 hl
  simp [Link.taken]

theorem gets_cycle {n : Nat} (hn : n + 1 < 2 ^ 32) :
    Gets (turn twoLinksBuffer) Ahead (behindCycles n []) (cycle n) (behindCycles (n + 1) []) := by
  refine Gets.cons trivial (push_cycle n) ⟨⟨ahead_cycle n, fun _ _ => ?_⟩, fill_cycle hn⟩
  exact ⟨trivial, fun _ _ => trivial⟩

/-- **Behind `n` cycles** the counter stands at `n`. -/
theorem gets_cycles : ∀ {n : Nat}, n < 2 ^ 32 →
    Gets (turn twoLinksBuffer) Ahead (start oneLinkOff) (cycles n) (behindCycles n [])
  | 0, _     => Gets.nil
  | _ + 1, h => (gets_cycles (Nat.lt_of_succ_lt h)).append (gets_cycle h)

/-- The link behind `n` cycles, a superpage given to it since. -/
theorem ahead_behindCycles (n : Nat) :
    ∀ link ∈ (behindCycles n [oneSuperpage]).channel.mLinks, link.Ahead fun _ => n + 1 := by
  intro link hl
  obtain ⟨hleast, hmost⟩ := ahead_cycle n link hl
  obtain rfl := List.mem_singleton.1 hl
  refine ⟨⟨Nat.le_add_left 1 31, ?_, ?_⟩, hleast, hmost⟩
  · rw [List.length_append]
    exact Nat.le_add_left _ _
  · rw [Link.taken, List.length_append, Nat.add_sub_cancel, List.length_replicate]

/-- The next superpage is not moved when the counter is at its last value. -/
theorem missed_cycle {n : Nat} (hn : n + 1 = 2 ^ 32) :
    ¬Moves (behindCycles n [oneSuperpage]) (.fill fun _ => n + 1) := by
  intro hmoves
  have hunwrapped := (movesCompleted_iff (ahead_behindCycles n)).1 hmoves
  have hcounter : wrap32 n = n := Nat.mod_eq_of_lt (Nat.lt_of_succ_le (Nat.le_of_eq hn))
  rcases hunwrapped.1 with hbelow | hfull
  · rw [newlyCompleted, Link.taken, List.length_append, Nat.add_sub_cancel, List.length_replicate,
      Nat.add_sub_cancel_left, hcounter, hn] at hbelow
    exact Nat.lt_irrefl _ hbelow
  · exact absurd hfull (Nat.not_succ_le_zero 31)

/-- The 2^32nd superpage of a link stays where it is. -/
theorem turnedOver_moves_nothing : ¬∀ (cfg : Config) (sys : CruSession), Counted sys → ∀ as : List Action,
    Legal (turn cfg) Ahead sys as → Legal (turn cfg) Moves sys as := by
  intro h
  obtain ⟨n, hn⟩ : ∃ n, n + 1 = 2 ^ 32 := ⟨2 ^ 32 - 1, Nat.sub_add_cancel (Nat.two_pow_pos 32)⟩
  have hcounted : Counted (start oneLinkOff) := fun link hl => by
    obtain rfl := List.mem_singleton.1 hl
    exact ⟨Nat.zero_le _, Nat.le_refl _, rfl⟩
  have hcycles := gets_cycles (Nat.lt_of_succ_le (Nat.le_of_eq hn))
  have hlast : Gets (turn twoLinksBuffer) Ahead (start oneLinkOff) (cycles n ++ [.push oneSuperpage])
      (behindCycles n [oneSuperpage]) := hcycles.append (Gets.cons trivial (push_cycle n) Gets.nil)
  have hlegal := h twoLinksBuffer (start oneLinkOff) hcounted
    (cycles n ++ [.push oneSuperpage] ++ [.fill fun _ => n + 1]) (Legal.append.2 ⟨hlast.1, fun s' hs => by
      obtain rfl := Option.some.inj (hlast.2.symm.trans hs)
      exact ⟨ahead_cycle n, fun _ _ => trivial⟩⟩)
  exact missed_cycle hn ((Legal.append.1 hlegal).2 _ hlast.2).1

end CruSession

end Cru
end Rorc
end Flp
