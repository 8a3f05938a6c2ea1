import FlpPrototype.Lib.Run
import FlpPrototype.Rorc.CruDmaChannel
import Mathlib.Data.List.Basic
import Mathlib.Data.List.Nodup
import Mathlib.Data.List.Perm.Subperm
/-!
# CruRuns — runs of the CRU's DMA channel

Superpages are pushed, filled and popped in any order; the firmware's count of a link never decreases and never passes
what was pushed to the link.  A superpage is then in one place: its link's queue, the ready queue, or popped.
-/
namespace Flp
namespace Rorc
namespace Cru

open CruChannel

/-- The channel, what was popped from it, and what the firmware last reported for each id. -/
structure CruSession where
  channel : CruChannel
  popped : List Arrival
  superpageCount : Nat → Nat

inductive Action where
  | push (superpage : Superpage)
  | fill (superpageCount : Nat → Nat)
  | pop

namespace CruSession

variable (cfg : Config)

/-- A call; none if it has no result.  A call that throws leaves the channel as it then is. -/
def step (sys : CruSession) : Action → Option CruSession
  | .push superpage =>
    match sys.channel.pushSuperpage cfg superpage with
    | (some .noLink, _) => none
    | (_, channel)      => some { sys with channel }
  | .fill superpageCount =>
    match sys.channel.fillSuperpages superpageCount with
    | (some .emptyFront, _) => none
    | (_, channel)          => some { sys with channel, superpageCount }
  | .pop =>
    match sys.channel.popSuperpage with
    | .error _            => some sys
    | .ok (arrival, channel) => some { sys with channel, popped := sys.popped ++ [arrival] }

/-- What the firmware reports. -/
def Reports (sys : CruSession) : Action → Prop
  | .fill superpageCount => ∀ link ∈ sys.channel.mLinks,
      sys.superpageCount link.id ≤ superpageCount link.id ∧ superpageCount link.id ≤ link.pushed.length ∧
        superpageCount link.id < 2 ^ 32
  | _ => True

instance (sys : CruSession) : (a : Action) → Decidable (Reports sys a)
  | .push _              => isTrue trivial
  | .fill superpageCount => inferInstanceAs (Decidable (∀ link ∈ sys.channel.mLinks,
      sys.superpageCount link.id ≤ superpageCount link.id ∧ superpageCount link.id ≤ link.pushed.length ∧
        superpageCount link.id < 2 ^ 32))
  | .pop                 => isTrue trivial

def start (s : CruChannel) : CruSession := ⟨s.deviceStartDma, [], fun _ => 0⟩

/-- The superpages from one link. -/
def fromLink (id : Nat) (arrivals : List Arrival) : List Superpage :=
  (arrivals.filter fun a => a.link = id).map Arrival.superpage

/-- **What a state of the channel is to satisfy.** -/
structure Conserved (sys : CruSession) : Prop where
  available : sys.channel.mLinkQueuesTotalAvailable =
    (sys.channel.mLinks.map fun link => LINK_QUEUE_CAPACITY - link.queue.length).sum
  room : (∀ link ∈ sys.channel.mLinks, link.queue.length ≤ LINK_QUEUE_CAPACITY) ∧
    sys.channel.mReadyQueue.length ≤ READY_QUEUE_CAPACITY
  overwrites : sys.channel.overwrites = 0
  pushed : ∀ superpage, (sys.channel.pushSuperpage cfg superpage).1 ≠ some .linkQueueFull
  next : sys.channel.mLinkQueuesTotalAvailable ≠ 0 →
    ∃ link, sys.channel.mLinks[sys.channel.getNextLinkIndex]? = some link ∧ link.queue.length < LINK_QUEUE_CAPACITY
  filled : ∀ superpageCount, Reports sys (.fill superpageCount) →
    ∃ channel, sys.channel.fillSuperpages superpageCount = (none, channel) ∧
      (channel.mReadyQueue.length = READY_QUEUE_CAPACITY ∨
        ∀ link ∈ channel.mLinks, link.superpageCounter = superpageCount link.id)
  counted : ∀ link ∈ sys.channel.mLinks, link.superpageCounter + link.queue.length = link.pushed.length
  ordered : ∀ link ∈ sys.channel.mLinks, link.pushed.map arrived =
    fromLink link.id sys.popped ++ fromLink link.id sys.channel.mReadyQueue ++ link.queue.map arrived
  known : ∀ a ∈ sys.popped, ∃ link ∈ sys.channel.mLinks, link.id = a.link
  complete : ∀ a ∈ sys.popped, a.superpage.ready = true ∧ a.superpage.received = a.superpage.size

/-! ### The links' books -/

theorem fromLink_append (id : Nat) (l l' : List Arrival) : fromLink id (l ++ l') = fromLink id l ++ fromLink id l' := by
  rw [fromLink, List.filter_append, List.map_append]
  rfl

theorem fromLink_self (id : Nat) (sp : Superpage) : fromLink id [⟨id, sp⟩] = [sp] := by
  simp [fromLink]

theorem fromLink_other {id id' : Nat} (h : id' ≠ id) (sp : Superpage) : fromLink id [⟨id', sp⟩] = [] := by
  simp [fromLink, h]

theorem pushBack_of_lt {α : Type} {capacity : Nat} {q : List α} (h : q.length < capacity) (x : α) :
    pushBack capacity q x = q ++ [x] := by
  rw [pushBack, if_pos h]

theorem overwritten_of_lt {α : Type} {capacity : Nat} {q : List α} (h : q.length < capacity) :
    overwritten capacity q = 0 :=
  if_pos h

/-- What holds of a link, `history` being all that left the queues of the links. -/
structure Kept (history : List Arrival) (count : Nat → Nat) (link : Link) : Prop where
  room : link.queue.length ≤ LINK_QUEUE_CAPACITY
  counted : link.superpageCounter + link.queue.length = link.pushed.length
  reported : link.superpageCounter ≤ count link.id
  given : count link.id ≤ link.pushed.length
  narrow : count link.id < 2 ^ 32
  ordered : link.pushed.map arrived = fromLink link.id history ++ link.queue.map arrived

/-- The books of all links. -/
structure Books (ids : List Nat) (popped : List Arrival) (count : Nat → Nat) (links : List Link) (s : CruChannel) :
    Prop where
  sameIds : links.map Link.id = ids
  total : s.mLinkQueuesTotalAvailable + (links.map fun link => link.queue.length).sum =
    LINK_QUEUE_CAPACITY * links.length
  ready : s.mReadyQueue.length ≤ READY_QUEUE_CAPACITY
  overwrites : s.overwrites = 0
  kept : ∀ link ∈ links, Kept (popped ++ s.mReadyQueue) count link
  known : ∀ a ∈ popped ++ s.mReadyQueue, a.link ∈ ids
  complete : ∀ a ∈ popped ++ s.mReadyQueue, a.superpage.ready = true ∧ a.superpage.received = a.superpage.size

variable {cfg : Config} {ids : List Nat} {popped : List Arrival} {count : Nat → Nat} {s : CruChannel}

theorem Kept.other {history : List Arrival} {link : Link} (h : Kept history count link) {a : Arrival}
    (ha : a.link ≠ link.id) : Kept (history ++ [a]) count link :=
  ⟨h.room, h.counted, h.reported, h.given, h.narrow, by
    rw [fromLink_append, fromLink_other ha, List.append_nil]
    exact h.ordered⟩

theorem Kept.front {history : List Arrival} {link : Link} {sp : Superpage} {queue : List Superpage}
    (h : Kept history count link) (hq : link.queue = sp :: queue) (hlt : link.superpageCounter < count link.id) :
    Kept (history ++ [⟨link.id, arrived sp⟩]) count
      { link with queue, superpageCounter := wrap32 (link.superpageCounter + 1) } := by
  have hwrap : wrap32 (link.superpageCounter + 1) = link.superpageCounter + 1 :=
    Nat.mod_eq_of_lt (Nat.lt_of_le_of_lt hlt h.narrow)
  have hroom := h.room
  have hcounted := h.counted
  have hordered := h.ordered
  rw [hq, List.length_cons] at hroom hcounted
  rw [hq] at hordered
  refine ⟨Nat.le_of_succ_le hroom, ?_, ?_, h.given, h.narrow, ?_⟩
  · rw [← hcounted, hwrap]
    simp only
    omega
  · rw [hwrap]
    exact hlt
  · rw [fromLink_append, fromLink_self, List.append_assoc]
    exact hordered

/-- **One arrival**: the front of a link's queue is moved to the ready queue. -/
theorem Books.arrive {before after : List Link} {link : Link} {sp : Superpage} {queue : List Superpage}
    (hids : ids.Nodup) (hfew : ids.length ≤ MAX_LINKS) (h : Books ids popped count (before ++ link :: after) s)
    (hq : link.queue = sp :: queue)
    (hlt : link.superpageCounter < count link.id) (hready : s.mReadyQueue.length < READY_QUEUE_CAPACITY) :
    Books ids popped count
      (before ++ { link with queue, superpageCounter := wrap32 (link.superpageCounter + 1) } :: after)
      { s with
        mReadyQueue := pushBack READY_QUEUE_CAPACITY s.mReadyQueue ⟨link.id, arrived sp⟩
        overwrites := s.overwrites + overwritten READY_QUEUE_CAPACITY s.mReadyQueue
        mLinkQueuesTotalAvailable := wrap64 (s.mLinkQueuesTotalAvailable + 1) } := by
  have hnodup : ((before ++ link :: after).map Link.id).Nodup := by rw [h.sameIds]; exact hids
  have hlink : link ∈ before ++ link :: after := List.mem_append_right _ List.mem_cons_self
  have hother : ∀ l ∈ before ++ after, link.id ≠ l.id := by
    rw [List.map_append, List.map_cons, List.nodup_middle, List.nodup_cons, ← List.map_append] at hnodup
    exact fun l hl he => hnodup.1 (List.mem_map.2 ⟨l, hl, he.symm⟩)
  have hlen : (before ++ link :: after).length ≤ MAX_LINKS := by
    rw [← List.length_map Link.id, h.sameIds]
    exact hfew
  have htotal := h.total
  refine ⟨?_, ?_, ?_, ?_, ?_, ?_, ?_⟩
  · rw [← h.sameIds]
    simp
  · have hsmall : s.mLinkQueuesTotalAvailable + 1 < 2 ^ 64 := by
      have : LINK_QUEUE_CAPACITY * (before ++ link :: after).length ≤ LINK_QUEUE_CAPACITY * MAX_LINKS :=
        Nat.mul_le_mul_left _ hlen
      have : LINK_QUEUE_CAPACITY * MAX_LINKS = 768 := rfl
      omega
    simp only [wrap64, Nat.mod_eq_of_lt hsmall]
    simp only [List.map_append, List.map_cons, List.sum_append, List.sum_cons, List.length_append, List.length_cons, hq]
      at htotal ⊢
    omega
  · simp only [pushBack_of_lt hready, List.length_append, List.length_singleton]
    exact hready
  · simp only [overwritten_of_lt hready, h.overwrites]
  · simp only [pushBack_of_lt hready, ← List.append_assoc]
    intro l hl
    rcases List.mem_append.1 hl with hl | hl
    · exact (h.kept l (List.mem_append_left _ hl)).other (hother l (List.mem_append_left _ hl))
    · rcases List.mem_cons.1 hl with rfl | hl
      · exact (h.kept link hlink).front hq hlt
      · exact (h.kept l (List.mem_append_right _ (List.mem_cons_of_mem _ hl))).other
          (hother l (List.mem_append_right _ hl))
  · simp only [pushBack_of_lt hready, ← List.append_assoc]
    intro a ha
    rcases List.mem_append.1 ha with ha | ha
    · exact h.known a ha
    · rw [List.mem_singleton.1 ha, ← h.sameIds]
      exact List.mem_map.2 ⟨link, hlink, rfl⟩
  · simp only [pushBack_of_lt hready, ← List.append_assoc]
    intro a ha
    rcases List.mem_append.1 ha with ha | ha
    · exact h.complete a ha
    · rw [List.mem_singleton.1 ha]
      exact ⟨rfl, rfl⟩

/-! ### Filling -/

/-- **The loop over one link** ends when the ready queue is full or all that was reported has been taken. -/
theorem fillLink_spec (hids : ids.Nodup) (hfew : ids.length ≤ MAX_LINKS) {before after : List Link} :
    ∀ (n : Nat) (link : Link) (s : CruChannel), Books ids popped count (before ++ link :: after) s →
      link.superpageCounter + n ≤ count link.id →
      ∃ link' s', fillLink n link s = (none, link', s') ∧ link'.id = link.id ∧
        Books ids popped count (before ++ link' :: after) s' ∧ s.mReadyQueue.length ≤ s'.mReadyQueue.length ∧
        (s'.mReadyQueue.length = READY_QUEUE_CAPACITY ∨ link'.superpageCounter = link.superpageCounter + n)
  | 0, link, s, h, _ => ⟨link, s, rfl, rfl, h, Nat.le_refl _, .inr rfl⟩
  | n + 1, link, s, h, hn => by
    have hlink := h.kept link (List.mem_append_right _ List.mem_cons_self)
    rw [fillLink]
    by_cases hready : READY_QUEUE_CAPACITY ≤ s.mReadyQueue.length
    · rw [if_pos hready]
      exact ⟨link, s, rfl, rfl, h, Nat.le_refl _, .inl (Nat.le_antisymm h.ready hready)⟩
    rw [if_neg hready]
    have hroom : s.mReadyQueue.length < READY_QUEUE_CAPACITY := Nat.lt_of_not_le hready
    have hlt : link.superpageCounter < count link.id := by omega
    cases hq : link.queue with
    | nil =>
      -- all that was pushed has been counted
      have hcounted := hlink.counted
      have hgiven := hlink.given
      rw [hq, List.length_nil] at hcounted
      omega
    | cons superpage queue =>
      have harrive := h.arrive hids hfew hq hlt hroom
      have hwrap : wrap32 (link.superpageCounter + 1) = link.superpageCounter + 1 :=
        Nat.mod_eq_of_lt (Nat.lt_of_le_of_lt hlt hlink.narrow)
      have hn' : wrap32 (link.superpageCounter + 1) + n ≤ count link.id := by
        rw [hwrap]
        omega
      obtain ⟨link', s', hfill, hid, hbooks, hmore, hend⟩ := fillLink_spec hids hfew n _ _ harrive hn'
      refine ⟨link', s', hfill, hid, hbooks, ?_, hend.imp_right fun he => ?_⟩
      · refine Nat.le_trans ?_ hmore
        simp only [pushBack_of_lt hroom, List.length_append]
        exact Nat.le_add_right _ _
      · rw [he]
        simp only [hwrap]
        omega

/-- **The loop over the links** throws nothing. -/
theorem fillLinks_spec (hids : ids.Nodup) (hfew : ids.length ≤ MAX_LINKS) :
    ∀ (links before : List Link) (s : CruChannel), Books ids popped count (before ++ links) s →
      ∃ links' s', fillLinks count links s = (none, links', s') ∧ Books ids popped count (before ++ links') s' ∧
        s.mReadyQueue.length ≤ s'.mReadyQueue.length ∧ (s'.mReadyQueue.length = READY_QUEUE_CAPACITY ∨
          ∀ link ∈ links', link.superpageCounter = count link.id)
  | [], before, s, h => ⟨[], s, rfl, h, Nat.le_refl _, .inr fun _ hl => absurd hl List.not_mem_nil⟩
  | link :: links, before, s, h => by
    have hlink := h.kept link (List.mem_append_right _ List.mem_cons_self)
    have hcounted := hlink.counted
    have hreported := hlink.reported
    have hgiven := hlink.given
    have henough : ¬link.queue.length < count link.id - link.superpageCounter := by omega
    obtain ⟨link', s₁, hfill, hid, hbooks, hmore, hend⟩ := fillLink_spec hids hfew
      (count link.id - link.superpageCounter) link s h (by omega)
    obtain ⟨links', s', hrest, hbooks', hmore', hend'⟩ := fillLinks_spec hids hfew links (before ++ [link']) s₁
      (by rw [List.append_assoc]; exact hbooks)
    refine ⟨link' :: links', s', ?_, ?_, Nat.le_trans hmore hmore', ?_⟩
    · rw [fillLinks]
      simp only [if_neg henough, hfill, hrest]
    · rw [List.append_assoc] at hbooks'
      exact hbooks'
    · rcases hend with hfull | he
      · exact .inl (Nat.le_antisymm hbooks'.ready (Nat.le_trans (Nat.le_of_eq hfull.symm) hmore'))
      · refine hend'.imp_right fun hall l hl => ?_
        rcases List.mem_cons.1 hl with rfl | hl
        · rw [he, hid]
          omega
        · exact hall l hl

/-! ### The next link -/

/-- The smallest queue so far, or a smaller one behind. -/
theorem smallestQueue_spec : ∀ (links : List Link) (i : Nat) (smallest : Nat × Nat),
    let r := smallestQueue links i smallest
    (∀ link ∈ links, r.2 ≤ link.queue.length) ∧ r.2 ≤ smallest.2 ∧
      (r = smallest ∨ ∃ j link, links[j]? = some link ∧ r = ((i + j) % 2 ^ 8, link.queue.length))
  | [], _, smallest => ⟨fun _ hl => absurd hl List.not_mem_nil, Nat.le_refl _, .inl rfl⟩
  | link :: links, i, smallest => by
    simp only [smallestQueue]
    by_cases h : link.queue.length < smallest.2
    · rw [if_pos h]
      obtain ⟨hall, hle, hr⟩ := smallestQueue_spec links (i + 1) (i % 2 ^ 8, link.queue.length)
      refine ⟨fun l hl => ?_, Nat.le_of_lt (Nat.lt_of_le_of_lt hle h), .inr ?_⟩
      · rcases List.mem_cons.1 hl with rfl | hl
        · exact hle
        · exact hall l hl
      · rcases hr with hr | ⟨j, l, hj, hr⟩
        · exact ⟨0, link, rfl, hr⟩
        · exact ⟨j + 1, l, hj, by rw [hr, Nat.add_right_comm, Nat.add_assoc]⟩
    · rw [if_neg h]
      obtain ⟨hall, hle, hr⟩ := smallestQueue_spec links (i + 1) smallest
      refine ⟨fun l hl => ?_, hle, hr.imp_right ?_⟩
      · rcases List.mem_cons.1 hl with rfl | hl
        · exact Nat.le_trans hle (Nat.le_of_not_lt h)
        · exact hall l hl
      · rintro ⟨j, l, hj, he⟩
        exact ⟨j + 1, l, hj, by rw [he, Nat.add_right_comm, Nat.add_assoc]⟩

theorem sum_full : ∀ {links : List Link}, (∀ link ∈ links, LINK_QUEUE_CAPACITY ≤ link.queue.length) →
    LINK_QUEUE_CAPACITY * links.length ≤ (links.map fun link => link.queue.length).sum
  | [], _ => Nat.zero_le _
  | link :: links, h => by
    have ih := sum_full fun l hl => h l (List.mem_cons_of_mem _ hl)
    have := h link List.mem_cons_self
    rw [List.map_cons, List.sum_cons, List.length_cons, Nat.mul_succ]
    omega

/-- **The next link has room** when a slot is available. -/
theorem Books.next (hfew : ids.length ≤ MAX_LINKS) (h : Books ids popped count s.mLinks s)
    (havailable : s.mLinkQueuesTotalAvailable ≠ 0) :
    ∃ link, s.mLinks[s.getNextLinkIndex]? = some link ∧ link.queue.length < LINK_QUEUE_CAPACITY := by
  have hlen : s.mLinks.length ≤ MAX_LINKS := by
    rw [← List.length_map Link.id, h.sameIds]
    exact hfew
  -- not every queue is full
  obtain ⟨roomy, hmem, hroomy⟩ : ∃ link ∈ s.mLinks, link.queue.length < LINK_QUEUE_CAPACITY := by
    by_contra hall
    have hfull : ∀ link ∈ s.mLinks, LINK_QUEUE_CAPACITY ≤ link.queue.length := fun link hl =>
      Nat.le_of_not_lt fun hlt => hall ⟨link, hl, hlt⟩
    have hsum := sum_full hfull
    have htotal := h.total
    omega
  obtain ⟨hall, -, hr⟩ := smallestQueue_spec s.mLinks 0 (2 ^ 8 - 1, 2 ^ 64 - 1)
  have hsmall := Nat.lt_of_le_of_lt (hall roomy hmem) hroomy
  rw [getNextLinkIndex]
  rcases hr with hr | ⟨j, link, hj, hr⟩
  · rw [hr] at hsmall
    exact absurd hsmall (by decide)
  · obtain ⟨hjlt, -⟩ := List.getElem?_eq_some_iff.1 hj
    have hmod : (0 + j) % 2 ^ 8 = j := by
      have hmax : MAX_LINKS = 24 := rfl
      omega
    rw [hr] at hsmall ⊢
    exact ⟨link, by rw [hmod]; exact hj, hsmall⟩

/-! ### Every call keeps the books -/

theorem Kept.push {history : List Arrival} {link : Link} (h : Kept history count link) (superpage : Superpage)
    (hroom : link.queue.length < LINK_QUEUE_CAPACITY) : Kept history count (CruChannel.Link.push link superpage) := by
  have hcounted := h.counted
  simp only [CruChannel.Link.push, pushBack_of_lt hroom]
  refine ⟨?_, ?_, h.reported, ?_, h.narrow, ?_⟩
  · simp only [List.length_append, List.length_singleton]
    exact hroom
  · simp only [List.length_append, List.length_singleton]
    omega
  · simp only [List.length_append]
    exact Nat.le_trans h.given (Nat.le_add_right _ _)
  · simp only [List.map_append, h.ordered, List.append_assoc]

theorem Books.put (h : Books ids popped count s.mLinks s) {index : Nat} {link : Link} (superpage : Superpage)
    (hlink : s.mLinks[index]? = some link) (hroom : link.queue.length < LINK_QUEUE_CAPACITY)
    (havailable : s.mLinkQueuesTotalAvailable ≠ 0) (descriptors : List Descriptor) :
    let s' : CruChannel := { s with
      mLinkQueuesTotalAvailable := s.mLinkQueuesTotalAvailable - 1
      mLinks := s.mLinks.set index (CruChannel.Link.push link superpage)
      descriptors
      overwrites := s.overwrites + overwritten LINK_QUEUE_CAPACITY link.queue }
    Books ids popped count s'.mLinks s' := by
  obtain ⟨hlt, hget⟩ := List.getElem?_eq_some_iff.1 hlink
  have hsplit : s.mLinks = s.mLinks.take index ++ link :: s.mLinks.drop (index + 1) := by
    rw [← hget, ← List.drop_eq_getElem_cons hlt, List.take_append_drop]
  have hset : s.mLinks.set index (CruChannel.Link.push link superpage) =
      s.mLinks.take index ++ CruChannel.Link.push link superpage :: s.mLinks.drop (index + 1) := by
    rw [List.set_eq_take_append_cons_drop, if_pos hlt]
  have htotal := h.total
  have hids := h.sameIds
  refine ⟨?_, ?_, h.ready, ?_, fun l hl => ?_, h.known, h.complete⟩
  · rw [hsplit] at hids
    rw [hset, ← hids]
    simp [CruChannel.Link.push]
  · rw [hsplit] at htotal
    rw [hset]
    simp only [List.map_append, List.map_cons, List.sum_append, List.sum_cons, List.length_append, List.length_cons,
      CruChannel.Link.push, pushBack_of_lt hroom, List.length_nil] at htotal ⊢
    omega
  · simp only [overwritten_of_lt hroom, h.overwrites]
  · rcases List.mem_or_eq_of_mem_set hl with hl | rfl
    · exact h.kept l hl
    · exact (h.kept link (List.mem_of_getElem? hlink)).push superpage hroom

/-- **Pushing** never meets a full queue, and keeps the books, whether it throws or not. -/
theorem Books.pushSuperpage (cfg : Config) (hfew : ids.length ≤ MAX_LINKS) (h : Books ids popped count s.mLinks s)
    (superpage : Superpage) :
    ∃ e s', s.pushSuperpage cfg superpage = (e, s') ∧ e ≠ some .linkQueueFull ∧ e ≠ some .noLink ∧
      Books ids popped count s'.mLinks s' := by
  rw [CruChannel.pushSuperpage]
  cases Channel.checkSuperpage cfg superpage with
  | error e => exact ⟨_, s, rfl, by simp, by simp, h⟩
  | ok _ =>
    by_cases havailable : s.mLinkQueuesTotalAvailable = 0
    · simp only [if_pos havailable]
      exact ⟨_, s, rfl, by decide, by decide, h⟩
    obtain ⟨link, hlink, hroom⟩ := h.next hfew havailable
    simp only [if_neg havailable, hlink, if_neg (Nat.not_le_of_lt hroom)]
    cases getBusOffsetAddress cfg.scatterGatherList superpage.offset with
    | none => exact ⟨_, _, rfl, by decide, by decide, h.put superpage hlink hroom havailable _⟩
    | some busAddress => exact ⟨_, _, rfl, by decide, by decide, h.put superpage hlink hroom havailable _⟩

theorem Books.report {links : List Link} (h : Books ids popped count links s) {count' : Nat → Nat}
    (hreports : ∀ link ∈ links, count link.id ≤ count' link.id ∧ count' link.id ≤ link.pushed.length ∧
      count' link.id < 2 ^ 32) : Books ids popped count' links s :=
  ⟨h.sameIds, h.total, h.ready, h.overwrites, fun link hl =>
    have hk := h.kept link hl
    have hr := hreports link hl
    ⟨hk.room, hk.counted, Nat.le_trans hk.reported hr.1, hr.2.1, hr.2.2, hk.ordered⟩, h.known, h.complete⟩

/-- **Filling** throws nothing, keeps the books, and ends with a full ready queue or with all that was reported. -/
theorem Books.fillSuperpages (hids : ids.Nodup) (hfew : ids.length ≤ MAX_LINKS)
    (h : Books ids popped count s.mLinks s) {count' : Nat → Nat}
    (hreports : ∀ link ∈ s.mLinks, count link.id ≤ count' link.id ∧ count' link.id ≤ link.pushed.length ∧
      count' link.id < 2 ^ 32) :
    ∃ s', s.fillSuperpages count' = (none, s') ∧ Books ids popped count' s'.mLinks s' ∧
      (s'.mReadyQueue.length = READY_QUEUE_CAPACITY ∨ ∀ link ∈ s'.mLinks, link.superpageCounter = count' link.id) := by
  obtain ⟨links, s', hfill, hbooks, -, hend⟩ := fillLinks_spec hids hfew s.mLinks [] s (h.report hreports)
  rw [CruChannel.fillSuperpages, hfill]
  exact ⟨_, rfl, ⟨hbooks.sameIds, hbooks.total, hbooks.ready, hbooks.overwrites, hbooks.kept, hbooks.known,
    hbooks.complete⟩, hend⟩

/-- **Popping** takes the oldest of the ready queue. -/
theorem Books.popSuperpage (h : Books ids popped count s.mLinks s) {arrival : Arrival} {s' : CruChannel}
    (hpop : s.popSuperpage = .ok (arrival, s')) : Books ids (popped ++ [arrival]) count s'.mLinks s' := by
  rw [CruChannel.popSuperpage] at hpop
  cases hq : s.mReadyQueue with
  | nil =>
    rw [hq] at hpop
    cases hpop
  | cons a queue =>
    rw [hq] at hpop
    obtain ⟨rfl, rfl⟩ := Prod.mk.inj (Except.ok.inj hpop)
    have hsame : popped ++ s.mReadyQueue = popped ++ [a] ++ queue := by rw [hq, List.append_assoc]; rfl
    have hready := h.ready
    have hkept := h.kept
    have hknown := h.known
    have hcomplete := h.complete
    rw [hsame] at hkept hknown hcomplete
    rw [hq, List.length_cons] at hready
    exact ⟨h.sameIds, h.total, Nat.le_of_succ_le hready, h.overwrites, hkept, hknown, hcomplete⟩

theorem books_start (s : CruChannel) :
    Books (s.mLinks.map Link.id) [] (fun _ => 0) s.deviceStartDma.mLinks s.deviceStartDma where
  sameIds := by simp [deviceStartDma]
  total := by simp [deviceStartDma, Function.comp_def]
  ready := Nat.zero_le _
  overwrites := rfl
  kept link hl := by
    obtain ⟨l, -, rfl⟩ := List.mem_map.1 hl
    exact ⟨Nat.zero_le _, rfl, Nat.le_refl _, Nat.le_refl _, Nat.two_pow_pos 32, rfl⟩
  known a ha := absurd ha List.not_mem_nil
  complete a ha := absurd ha List.not_mem_nil

/-! ### Runs -/

def Inv (ids : List Nat) (sys : CruSession) : Prop :=
  Books ids sys.popped sys.superpageCount sys.channel.mLinks sys.channel

theorem sum_free : ∀ {links : List Link}, (∀ link ∈ links, link.queue.length ≤ LINK_QUEUE_CAPACITY) →
    (links.map fun link => LINK_QUEUE_CAPACITY - link.queue.length).sum +
      (links.map fun link => link.queue.length).sum =
      LINK_QUEUE_CAPACITY * links.length
  | [], _ => rfl
  | link :: links, h => by
    have ih := sum_free fun l hl => h l (List.mem_cons_of_mem _ hl)
    have := h link List.mem_cons_self
    rw [List.map_cons, List.map_cons, List.sum_cons, List.sum_cons, List.length_cons, Nat.mul_succ]
    omega

theorem Inv.conserved {sys : CruSession} (hids : ids.Nodup) (hfew : ids.length ≤ MAX_LINKS) (h : Inv ids sys) :
    Conserved cfg sys where
  available := by
    have htotal := h.total
    have hfree := sum_free fun link hl => (h.kept link hl).room
    omega
  room := ⟨fun link hl => (h.kept link hl).room, h.ready⟩
  overwrites := h.overwrites
  pushed superpage := by
    obtain ⟨e, s', hpush, hfull, -, -⟩ := Books.pushSuperpage cfg hfew h superpage
    rw [hpush]
    exact hfull
  next := h.next hfew
  filled superpageCount hreports := by
    obtain ⟨s', hfill, -, hend⟩ := h.fillSuperpages hids hfew hreports
    exact ⟨s', hfill, hend⟩
  counted link hl := (h.kept link hl).counted
  ordered link hl := by
    rw [(h.kept link hl).ordered, fromLink_append]
  known a ha := by
    have hknown := h.known a (List.mem_append_left _ ha)
    rw [← h.sameIds] at hknown
    exact List.mem_map.1 hknown
  complete a ha := h.complete a (List.mem_append_left _ ha)

/-- **Every call** has a result and keeps the invariant. -/
theorem inv_step (hids : ids.Nodup) (hfew : ids.length ≤ MAX_LINKS) {sys : CruSession} (a : Action)
    (h : Inv ids sys) (hok : Reports sys a) : ∃ sys', step cfg sys a = some sys' ∧ Inv ids sys' := by
  cases a with
  | push superpage =>
    obtain ⟨e, s', hpush, -, hdefined, hbooks⟩ := Books.pushSuperpage cfg hfew h superpage
    refine ⟨{ sys with channel := s' }, ?_, hbooks⟩
    rw [step, hpush]
    split
    · rename_i heq
      cases heq
      exact absurd rfl hdefined
    · rename_i heq
      cases heq
      rfl
  | fill superpageCount =>
    obtain ⟨s', hfill, hbooks, -⟩ := h.fillSuperpages hids hfew hok
    exact ⟨{ sys with channel := s', superpageCount }, by rw [step, hfill], hbooks⟩
  | pop =>
    rw [step]
    cases hpop : sys.channel.popSuperpage with
    | error e => exact ⟨sys, rfl, h⟩
    | ok r => exact ⟨_, rfl, h.popSuperpage hpop⟩

theorem insertLinks_ids : ∀ {mask : List Nat} {links : List Link}, insertLinks mask = .ok links →
    links.map Link.id = mask ∧ ∀ id ∈ mask, id < MAX_LINKS
  | [], links, h => by
    obtain rfl := Except.ok.inj h
    exact ⟨rfl, fun _ hi => absurd hi List.not_mem_nil⟩
  | id :: mask, links, h => by
    rw [insertLinks] at h
    by_cases hid : MAX_LINKS ≤ id
    · rw [if_pos hid] at h
      cases h
    rw [if_neg hid] at h
    cases hrest : insertLinks mask with
    | error e =>
      rw [hrest] at h
      cases h
    | ok rest =>
      rw [hrest] at h
      obtain rfl := Except.ok.inj h
      obtain ⟨hids, hlt⟩ := insertLinks_ids hrest
      refine ⟨by rw [List.map_cons, hids], fun i hi => ?_⟩
      rcases List.mem_cons.1 hi with rfl | hi
      · exact Nat.lt_of_not_le hid
      · exact hlt i hi

/-- A mask the constructor accepts has distinct ids, and few. -/
theorem linkMask_few (mask : LinkMask) (h : ∀ id ∈ mask.ids, id < MAX_LINKS) :
    mask.ids.Nodup ∧ mask.ids.length ≤ MAX_LINKS := by
  have hnodup : mask.ids.Nodup := mask.ascending.imp Nat.ne_of_lt
  refine ⟨hnodup, ?_⟩
  have hsub : mask.ids.Subperm (List.range MAX_LINKS) :=
    List.Nodup.subperm hnodup fun id hid => List.mem_range.2 (h id hid)
  exact Nat.le_trans hsub.length_le (Nat.le_of_eq List.length_range)

/-- **The channel conserves the superpages in every run** behind `deviceStartDma`, for every set of links the
constructor accepts and whatever the channel was before. -/
theorem channel_conserves (mask : LinkMask) (links : List Link) (hlinks : insertLinks mask.ids = .ok links)
    (s : CruChannel) (hs : s.mLinks.map Link.id = links.map Link.id) (as : List Action)
    (hl : Legal (step cfg) Reports (start s) as) :
    ∃ sys, run (step cfg) (start s) as = some sys ∧ Conserved cfg sys := by
  obtain ⟨hids, hlt⟩ := insertLinks_ids hlinks
  obtain ⟨hnodup, hfew⟩ := linkMask_few mask hlt
  have hstart : Inv mask.ids (start s) := by
    rw [← hids, ← hs]
    exact books_start s
  obtain ⟨sys, hr, hi⟩ := run_inv (fun sys a hi hok => inv_step hnodup hfew a hi hok) as (start s) hstart hl
  exact ⟨sys, hr, hi.conserved hnodup hfew⟩

/-- Two links; three superpages of which two have arrived, one with an address no entry of the list has. -/
def twoLinks : LinkMask := ⟨[0, 3], by decide⟩

def twoLinksBuffer : Config := ⟨DMA_PAGE_SIZE, 2 ^ 21, [⟨2 ^ 20, 0, 2 ^ 30⟩], {}⟩

def twoLinksOff : CruChannel := ⟨[⟨0, 0, [], []⟩, ⟨3, 0, [], []⟩], 0, [], [], 0⟩

def twoLinksRun : List Action :=
  [.push ⟨0, 2 ^ 19, 1, 0, false⟩, .push ⟨2 ^ 19, 2 ^ 19, 2, 0, false⟩, .push ⟨2 ^ 20, 2 ^ 19, 3, 0, false⟩,
    .fill fun id => if id = 0 then 1 else 0, .pop, .fill fun _ => 1]

theorem channel_conserves_twoLinksRun :
    ∃ sys, run (step twoLinksBuffer) (start twoLinksOff) twoLinksRun = some sys ∧ Conserved twoLinksBuffer sys :=
  channel_conserves twoLinks twoLinksOff.mLinks rfl twoLinksOff rfl twoLinksRun (by decide +kernel)

end CruSession
end Cru
end Rorc
end Flp
