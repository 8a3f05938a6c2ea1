import FlpPrototype.Control.Commands
import FlpPrototype.Common.FifoRuns
import Mathlib.Data.List.Nodup
import Mathlib.Data.List.Perm.Basic
/-!
# HandOff — every request is processed in turn and deleted once

`d` counts the requests the engine has deleted.  It is one ahead of that when it has processed the next one, and again
when it has taken it out of the FIFO.  A request belongs to the thread that makes it until it is accepted, from then on
to the engine; the requests deleted and the ones that belong to a thread are all there are (`Inv.ledger`).  So both
threads only read requests that exist, with one exception: what the refused thread prints is the engine's, and `Spared`
says that the engine leaves it alone meanwhile (`handed_off`).
-/
namespace Flp
namespace Control

open Common (next next_mod mod_ne)

/-! ## What the threads hold -/

/-- The request that is neither accepted nor refused yet. -/
def Producer.fresh : Producer → List Call
  | .fill c | .pushEnd c | .pushStart c _ | .pushData c _ | .pushStore c _ => [c]
  | _                                                                      => []

/-- The request the thread has to delete if the engine does not get it. -/
def Producer.held : Producer → List Call
  | .idle | .allocate _                                                    => []
  | .fill c | .pushEnd c | .pushStart c _ | .pushData c _ | .pushStore c _ => [c]
  | .usedEnd c | .usedStart c | .emptyEnd c | .emptyStart c _              => [c]
  | .frontStart c | .frontSlot c _ | .print c _ | .delete c                => [c]

/-- The request that has its command. -/
def Producer.filled : Producer → List Call
  | .pushEnd c | .pushStart c _ | .pushData c _ | .pushStore c _ => [c]
  | _                                                            => []

/-- The request that is in its slot, but not accepted yet. -/
def Producer.stored : Producer → List Call
  | .pushStore c _ => [c]
  | _              => []

/-- One once the engine has processed the request it deletes next. -/
def Engine.ahead : Engine → Nat
  | .done _ | .popEmptyEnd _ | .popEmptyStart _ _ | .popStart | .popStore _           => 1
  | .popRead | .popReadSlot _ | .popReset _ | .popResetSlot _ _ | .delete _           => 1
  | .turn | .emptyEnd | .emptyStart _ | .frontStart | .frontSlot _ | .starting _      => 0
  | .process _ | .check                                                               => 0

/-- One once the engine has taken the request it deletes next out of the FIFO. -/
def Engine.taken : Engine → Nat
  | .popRead | .popReadSlot _ | .popReset _ | .popResetSlot _ _ | .delete _ => 1
  | _                                                                       => 0

/-- The slot of the request taken is not reset yet. -/
def Engine.unreset : Engine → Bool
  | .popRead | .popReadSlot _ | .popReset _ | .popResetSlot _ _ => true
  | _                                                           => false

def addressAt (accepted : List Call) (k : Nat) : Option Nat := accepted[k]?.map Call.newCommand

/-- What the producer knows between its steps, `t` requests taken. -/
def Producer.Knows (d t : Nat) (accepted : List Call) : Producer → Prop
  | .pushStart _ new => new = (accepted.length + 1) % 2
  | .pushData _ new  => new = (accepted.length + 1) % 2 ∧ accepted.length = t
  | .pushStore _ new => new = (accepted.length + 1) % 2 ∧ accepted.length = t
  | .frontSlot _ ix  => ix < 2
  | .print _ q       => ∃ k, d ≤ k ∧ addressAt accepted k = some q
  | _                => True

/-- What the engine knows between its steps. -/
def Engine.Knows (d turnBegan : Nat) (accepted : List Call) : Engine → Prop
  | .turn                   => True
  | .emptyEnd               => turnBegan ≤ accepted.length
  | .emptyStart e           => ∃ n, d ≤ n ∧ n ≤ d + 1 ∧ n ≤ accepted.length ∧ turnBegan ≤ n ∧ e = n % 2
  | .frontStart             => turnBegan ≤ d + 1 ∧ d < accepted.length
  | .frontSlot ix           => turnBegan ≤ d + 1 ∧ d < accepted.length ∧ ix = (d + 1) % 2
  | .starting p             => turnBegan ≤ d + 1 ∧ addressAt accepted d = some p
  | .process p              => turnBegan ≤ d + 1 ∧ addressAt accepted d = some p
  | .done p                 => turnBegan ≤ d + 1 ∧ addressAt accepted d = some p
  | .popEmptyEnd p          => turnBegan ≤ d + 1 ∧ addressAt accepted d = some p
  | .popEmptyStart _ e      => turnBegan ≤ d + 1 ∧ e = (d + 1) % 2
  | .popStart               => turnBegan ≤ d + 1
  | .popStore new           => turnBegan ≤ d + 1 ∧ new = (d + 1) % 2
  | .popRead                => turnBegan ≤ d + 1
  | .popReadSlot ix         => turnBegan ≤ d + 1 ∧ ix = (d + 1) % 2
  | .popReset item          => turnBegan ≤ d + 1 ∧ item = addressAt accepted d
  | .popResetSlot item ix   => turnBegan ≤ d + 1 ∧ item = addressAt accepted d ∧ ix = (d + 1) % 2
  | .delete item            => turnBegan ≤ d + 1 ∧ item = addressAt accepted d
  | .check                  => turnBegan ≤ d

structure Inv (d : Nat) (s : State) : Prop where
  length : s.data.length = 2
  ends : s.indexEnd = s.accepted.length % 2
  starts : s.indexStart = (d + s.engine.taken) % 2
  ahead_le : d + s.engine.ahead ≤ s.accepted.length
  room : s.accepted.length ≤ d + s.engine.taken + 1
  processed : s.processed = s.accepted.take (d + s.engine.ahead)
  slot : s.data[(d + s.engine.taken + 1) % 2]? =
    some (addressAt (s.accepted ++ s.producer.stored) (d + s.engine.taken))
  other : s.data[(d + s.engine.taken) % 2]? = some (if s.engine.unreset then addressAt s.accepted d else none)
  calls : ((s.accepted ++ s.rejected ++ s.producer.fresh).map Call.newCommand).Perm (List.range s.requests.length)
  ledger : (s.deleted ++ (s.accepted.drop d ++ s.producer.held).map Call.newCommand).Perm
    (List.range s.requests.length)
  filled : ∀ c ∈ s.accepted ++ s.producer.filled, s.requests[c.newCommand]? = some c.command
  producer : s.producer.Knows d (d + s.engine.taken) s.accepted
  engine : s.engine.Knows d s.turnBegan s.accepted
  turns : ∀ t ∈ s.turns, t.1 ≤ t.2

variable {d : Nat} {s : State}

theorem inv_start : Inv 0 start where
  length := rfl
  ends := rfl
  starts := rfl
  ahead_le := Nat.zero_le _
  room := Nat.zero_le _
  processed := rfl
  slot := rfl
  other := rfl
  calls := List.Perm.refl _
  ledger := List.Perm.refl _
  filled := nofun
  producer := trivial
  engine := trivial
  turns := nofun

theorem taken_le_ahead (e : Engine) : e.taken ≤ e.ahead := by
  cases e <;> simp [Engine.taken, Engine.ahead]

/-! ## Requests that exist -/

theorem Inv.read_held (hi : Inv d s) {c : Call} (hc : c ∈ s.accepted.drop d ++ s.producer.held) :
    ∃ command, s.read c.newCommand = some command ∧ s.requests[c.newCommand]? = some command := by
  have hnodup := hi.ledger.nodup_iff.2 List.nodup_range
  have hmem : c.newCommand ∈ (s.accepted.drop d ++ s.producer.held).map Call.newCommand := List.mem_map_of_mem hc
  have hlt : c.newCommand < s.requests.length :=
    List.mem_range.1 (hi.ledger.subset (List.mem_append_right _ hmem))
  have hdel : c.newCommand ∉ s.deleted := fun h => (List.nodup_append.1 hnodup).2.2 _ h _ hmem rfl
  obtain ⟨command, hcommand⟩ : ∃ command, s.requests[c.newCommand]? = some command :=
    ⟨_, List.getElem?_eq_getElem hlt⟩
  exact ⟨command, by rw [State.read, if_neg hdel, hcommand], hcommand⟩

theorem Inv.read_accepted (hi : Inv d s) {k p : Nat} (hk : d ≤ k) (hp : addressAt s.accepted k = some p) :
    ∃ command, s.accepted[k]? = some ⟨p, command⟩ ∧ s.read p = some command := by
  obtain ⟨c, hc, rfl⟩ := Option.map_eq_some_iff.1 hp
  have hdrop : c ∈ s.accepted.drop d := by
    refine List.mem_of_getElem? (i := k - d) ?_
    rw [List.getElem?_drop, Nat.add_sub_cancel' hk, hc]
  obtain ⟨command, hread, hreq⟩ := hi.read_held (List.mem_append_left _ hdrop)
  rw [hi.filled c (List.mem_append_left _ (List.mem_of_getElem? hc))] at hreq
  obtain rfl := Option.some.inj hreq
  exact ⟨c.command, hc, hread⟩

/-! ## Steps that move one thread only -/

theorem Inv.producer_moves (hi : Inv d s) {w : Producer} (hfresh : w.fresh = s.producer.fresh)
    (hheld : w.held = s.producer.held) (hstored : w.stored = s.producer.stored) (hfilled : w.filled ⊆ s.producer.filled)
    (hw : w.Knows d (d + s.engine.taken) s.accepted) : Inv d { s with producer := w } :=
  { hi with
    slot := by rw [hstored]; exact hi.slot
    calls := by rw [hfresh]; exact hi.calls
    ledger := by rw [hheld]; exact hi.ledger
    filled := fun c hc => hi.filled c (List.mem_append.2 ((List.mem_append.1 hc).imp_right fun h => hfilled h))
    producer := hw }

theorem Inv.engine_moves (hi : Inv d s) {e : Engine} (hahead : e.ahead = s.engine.ahead)
    (htaken : e.taken = s.engine.taken) (hunreset : e.unreset = s.engine.unreset)
    (he : e.Knows d s.turnBegan s.accepted) : Inv d { s with engine := e } :=
  { hi with
    starts := by rw [htaken]; exact hi.starts
    ahead_le := by rw [hahead]; exact hi.ahead_le
    room := by rw [htaken]; exact hi.room
    processed := by rw [hahead]; exact hi.processed
    slot := by rw [htaken]; exact hi.slot
    other := by rw [htaken, hunreset]; exact hi.other
    producer := by rw [htaken]; exact hi.producer
    engine := he }

theorem next_pendingSize (k : Nat) : next pendingSize (k % 2) = some ((k + 1) % 2) := next_mod (by decide) k

theorem frontIndex_mod (k : Nat) : frontIndex (k % 2) = some ((k + 1) % 2) := by
  have hlt : k % 2 < 2 := Nat.mod_lt k (by decide)
  rw [frontIndex, intAdd_of_le (by unfold intMax; omega), Option.bind_some, pendingSize, intAdd_of_le (by decide),
    Option.map_some, Nat.mod_add_mod]

/-- Neighbouring counts have the two slots of the FIFO. -/
theorem mod_two_ne (k : Nat) : k % 2 ≠ (k + 1) % 2 := @mod_ne 1 k (k + 1) (Nat.lt_succ_self k) (Nat.le_refl _)

/-! ## The producer's steps -/

theorem Inv.allocate (hi : Inv d s) {command : String} (h : s.producer = .allocate command) :
    Inv d { s with requests := s.requests ++ [""], producer := .fill ⟨s.requests.length, command⟩ } := by
  have hcalls := hi.calls
  have hledger := hi.ledger
  have hslot := hi.slot
  rw [h] at hcalls hledger hslot
  have hrange : List.range (s.requests ++ [""]).length = List.range s.requests.length ++ [s.requests.length] := by
    rw [List.length_append, List.length_singleton, List.range_succ]
  exact { hi with
    slot := hslot
    calls := by
      rw [hrange]
      simpa [Producer.fresh] using hcalls.append_right [s.requests.length]
    ledger := by
      rw [hrange]
      simpa [Producer.held] using hledger.append_right [s.requests.length]
    filled := fun c hc => by
      rw [List.getElem?_append_left]
      · exact hi.filled c (List.mem_append_left _ (by simpa [Producer.filled] using hc))
      · exact (List.getElem?_eq_some_iff.1
          (hi.filled c (List.mem_append_left _ (by simpa [Producer.filled] using hc)))).1
    producer := trivial }

theorem Inv.fill (hi : Inv d s) {c : Call} (h : s.producer = .fill c) :
    Inv d { s with requests := s.requests.set c.newCommand c.command, producer := .pushEnd c } := by
  have hcalls := hi.calls
  have hledger := hi.ledger
  have hslot := hi.slot
  rw [h] at hcalls hledger hslot
  have hlength : (s.requests.set c.newCommand c.command).length = s.requests.length := List.length_set
  have hlt : c.newCommand < s.requests.length :=
    List.mem_range.1 (hcalls.subset (List.mem_map_of_mem (by simp [Producer.fresh])))
  have hnodup := hcalls.nodup_iff.2 List.nodup_range
  rw [List.map_append] at hnodup
  exact { hi with
    slot := hslot
    calls := by rw [hlength]; exact hcalls
    ledger := by rw [hlength]; exact hledger
    filled := fun c' hc' => by
      rcases List.mem_append.1 hc' with hacc | hfill
      · -- an accepted request is another one
        have hne : c.newCommand ≠ c'.newCommand := fun he =>
          (List.nodup_append.1 hnodup).2.2 _ (List.mem_map_of_mem (List.mem_append_left _ hacc)) _
            (List.mem_map_of_mem (List.mem_singleton_self c)) he.symm
        rw [List.getElem?_set_ne hne]
        exact hi.filled c' (List.mem_append_left _ hacc)
      · obtain rfl := List.mem_singleton.1 hfill
        exact List.getElem?_set_self hlt
    producer := trivial }

theorem Inv.refuse (hi : Inv d s) {c : Call} {new : Nat} (h : s.producer = .pushStart c new) :
    Inv d { s with rejected := s.rejected ++ [c], producer := .usedEnd c } := by
  have hcalls := hi.calls
  have hledger := hi.ledger
  have hslot := hi.slot
  rw [h] at hcalls hledger hslot
  exact { hi with
    slot := hslot
    calls := by simpa [Producer.fresh] using hcalls
    ledger := hledger
    filled := fun c' hc' => hi.filled c' (List.mem_append_left _ (by simpa [Producer.filled] using hc'))
    producer := trivial }

theorem Inv.store (hi : Inv d s) {c : Call} {new : Nat} (h : s.producer = .pushData c new) :
    new < s.data.length ∧
      Inv d { s with data := s.data.set new (some c.newCommand), producer := .pushStore c new } := by
  have hknows := hi.producer
  have hcalls := hi.calls
  have hledger := hi.ledger
  have hfilled := hi.filled
  rw [h] at hknows hcalls hledger hfilled
  obtain ⟨hnew, hroom⟩ := hknows
  have hlt : new < s.data.length := by
    rw [hi.length, hnew]
    exact Nat.mod_lt _ (by decide)
  refine ⟨hlt, { hi with
    length := by rw [List.length_set]; exact hi.length
    slot := ?_
    other := ?_
    calls := hcalls
    ledger := hledger
    filled := hfilled
    producer := ⟨hnew, hroom⟩ }⟩
  · show (s.data.set new (some c.newCommand))[(d + s.engine.taken + 1) % 2]? =
      some (addressAt (s.accepted ++ [c]) (d + s.engine.taken))
    rw [← hroom, ← hnew, List.getElem?_set_self hlt, addressAt, List.getElem?_concat_length]
    rfl
  · show (s.data.set new (some c.newCommand))[(d + s.engine.taken) % 2]? = _
    rw [List.getElem?_set_ne, hi.other]
    rw [hnew, hroom]
    exact (mod_two_ne _).symm

theorem addressAt_append {accepted more : List Call} {k : Nat} (hk : k < accepted.length) :
    addressAt (accepted ++ more) k = addressAt accepted k := by
  rw [addressAt, List.getElem?_append_left hk, addressAt]

theorem lt_of_addressAt {accepted : List Call} {k p : Nat} (h : addressAt accepted k = some p) :
    k < accepted.length := by
  obtain ⟨c, hc, -⟩ := Option.map_eq_some_iff.1 h
  exact (List.getElem?_eq_some_iff.1 hc).1

theorem Engine.Knows.append {e : Engine} {turnBegan : Nat} {accepted more : List Call}
    (h : e.Knows d turnBegan accepted) (hle : d + e.ahead ≤ accepted.length) :
    e.Knows d turnBegan (accepted ++ more) := by
  have hgrows : accepted.length ≤ (accepted ++ more).length := by
    rw [List.length_append]
    exact Nat.le_add_right _ _
  have haddress : ∀ {p}, addressAt accepted d = some p → addressAt (accepted ++ more) d = some p := fun hp =>
    (addressAt_append (lt_of_addressAt hp)).trans hp
  cases e with
  | turn => trivial
  | emptyEnd => exact Nat.le_trans h hgrows
  | emptyStart e =>
    obtain ⟨n, hd, hd', hn, hturn, he⟩ := h
    exact ⟨n, hd, hd', Nat.le_trans hn hgrows, hturn, he⟩
  | frontStart => exact ⟨h.1, Nat.lt_of_lt_of_le h.2 hgrows⟩
  | frontSlot ix => exact ⟨h.1, Nat.lt_of_lt_of_le h.2.1 hgrows, h.2.2⟩
  | starting p => exact ⟨h.1, haddress h.2⟩
  | process p => exact ⟨h.1, haddress h.2⟩
  | done p => exact ⟨h.1, haddress h.2⟩
  | popEmptyEnd p => exact ⟨h.1, haddress h.2⟩
  | popEmptyStart p e => exact h
  | popStart => exact h
  | popStore new => exact h
  | popRead => exact h
  | popReadSlot ix => exact h
  | popReset item => exact ⟨h.1, by rw [addressAt_append hle]; exact h.2⟩
  | popResetSlot item ix => exact ⟨h.1, by rw [addressAt_append hle]; exact h.2.1, h.2.2⟩
  | delete item => exact ⟨h.1, by rw [addressAt_append hle]; exact h.2⟩
  | check => exact h

theorem Inv.accept (hi : Inv d s) {c : Call} {new : Nat} (h : s.producer = .pushStore c new) :
    Inv d { s with indexEnd := new, accepted := s.accepted ++ [c], producer := .idle } := by
  have hknows := hi.producer
  have hcalls := hi.calls
  have hledger := hi.ledger
  have hfilled := hi.filled
  have hslot := hi.slot
  have hle := hi.ahead_le
  rw [h] at hknows hcalls hledger hfilled hslot
  obtain ⟨hnew, hroom⟩ := hknows
  have hlength : (s.accepted ++ [c]).length = s.accepted.length + 1 := List.length_append
  exact { hi with
    ends := hnew.trans (by rw [hlength])
    ahead_le := by rw [hlength]; exact Nat.le_succ_of_le hle
    room := by rw [hlength, hroom]
    processed := by rw [List.take_append_of_le_length hle]; exact hi.processed
    slot := by simpa [Producer.stored] using hslot
    other := by
      rw [hi.other]
      by_cases hu : s.engine.unreset = true
      · have hahead : s.engine.ahead = 1 := by
          cases he : s.engine <;> rw [he] at hu <;> first | rfl | cases hu
        rw [if_pos hu, if_pos hu, addressAt_append (by omega)]
      · rw [if_neg hu, if_neg hu]
    calls := by
      refine (List.Perm.map _ ?_).trans hcalls
      simp only [Producer.fresh, List.append_nil, List.append_assoc]
      exact List.Perm.append_left _ List.perm_append_comm
    ledger := by
      rw [List.drop_append_of_le_length (by omega)]
      simpa [Producer.held] using hledger
    filled := by simpa [Producer.filled] using hfilled
    producer := trivial
    engine := hi.engine.append hle }

theorem Inv.drop (hi : Inv d s) {c : Call} (h : s.producer = .delete c) :
    ∃ s', s.delete (some c.newCommand) = some s' ∧ Inv d { s' with producer := .idle } := by
  have hcalls := hi.calls
  have hledger := hi.ledger
  have hslot := hi.slot
  rw [h] at hcalls hledger hslot
  obtain ⟨command, hread, -⟩ := hi.read_held (c := c) (by rw [h]; simp [Producer.held])
  refine ⟨{ s with deleted := s.deleted ++ [c.newCommand] }, by rw [State.delete, hread]; rfl, ?_⟩
  exact { hi with
    slot := hslot
    calls := hcalls
    ledger := by
      refine List.Perm.trans ?_ hledger
      simp only [Producer.held, List.append_nil, List.map_append, List.append_assoc, List.map_singleton]
      exact List.Perm.append_left _ List.perm_append_comm
    filled := fun c' hc' => hi.filled c' (List.mem_append_left _ (by simpa [Producer.filled] using hc'))
    producer := trivial }

/-- Whatever stands in a slot when the producer has nothing in it is an accepted request not deleted yet. -/
theorem Inv.slot_accepted (hi : Inv d s) (hstored : s.producer.stored = []) {ix : Nat} (hix : ix < 2) :
    ∃ item, s.data[ix]? = some item ∧ ∀ q ∈ item, ∃ k, d ≤ k ∧ addressAt s.accepted k = some q := by
  have hslot := hi.slot
  rw [hstored, List.append_nil] at hslot
  have hix' : ix = (d + s.engine.taken + 1) % 2 ∨ ix = (d + s.engine.taken) % 2 := by omega
  rcases hix' with rfl | rfl
  · exact ⟨_, hslot, fun q hq => ⟨_, Nat.le_add_right _ _, hq⟩⟩
  · refine ⟨_, hi.other, fun q hq => ?_⟩
    split at hq
    · exact ⟨d, Nat.le_refl d, hq⟩
    · cases hq

/-- The FIFO is not full: all that is accepted has been taken. -/
theorem Inv.pushStart (hi : Inv d s) {c : Call} {new : Nat} (h : s.producer = .pushStart c new)
    (hfull : new ≠ s.indexStart) : Inv d { s with producer := .pushData c new } := by
  have hknows := hi.producer
  rw [h] at hknows
  have hroom : s.accepted.length = d + s.engine.taken := by
    have hle := hi.ahead_le
    have hle' := hi.room
    have htaken := taken_le_ahead s.engine
    rw [show new = _ from hknows, hi.starts] at hfull
    by_contra hn
    exact hfull (by rw [show s.accepted.length + 1 = d + s.engine.taken + 2 by omega, Nat.add_mod_right])
  exact hi.producer_moves (by rw [h]; rfl) (by rw [h]; rfl) (by rw [h]; rfl) (by rw [h]; exact List.Subset.refl _)
    ⟨hknows, hroom⟩

theorem Inv.readFront (hi : Inv d s) {c : Call} {ix : Nat} (h : s.producer = .frontSlot c ix)
    (command : String) : ∃ s', stepProducer command s = some s' ∧ Inv d s' := by
  have hknows := hi.producer
  rw [h] at hknows
  unfold stepProducer
  rw [h]
  obtain ⟨item, hitem, haccepted⟩ := hi.slot_accepted (by rw [h]; rfl) hknows
  refine ⟨_, Option.map_eq_some_iff.2 ⟨item, hitem, rfl⟩, ?_⟩
  cases item with
  | none =>
    exact hi.producer_moves (by rw [h]; rfl) (by rw [h]; rfl) (by rw [h]; rfl) (List.nil_subset _) trivial
  | some q =>
    exact hi.producer_moves (by rw [h]; rfl) (by rw [h]; rfl) (by rw [h]; rfl) (List.nil_subset _) (haccepted q rfl)

/-- **A step of the producer.** -/
theorem Inv.stepProducer (hi : Inv d s) (command : String) : ∃ s', stepProducer command s = some s' ∧ Inv d s' := by
  have hknows := hi.producer
  unfold Control.stepProducer
  cases h : s.producer with
  | idle =>
    exact ⟨_, rfl, hi.producer_moves (by rw [h]; rfl) (by rw [h]; rfl) (by rw [h]; rfl) (List.nil_subset _) trivial⟩
  | allocate command => exact ⟨_, rfl, hi.allocate h⟩
  | fill c =>
    obtain ⟨command, hread, -⟩ := hi.read_held (c := c) (by rw [h]; simp [Producer.held])
    exact ⟨_, Option.map_eq_some_iff.2 ⟨command, hread, rfl⟩, hi.fill h⟩
  | pushEnd c =>
    refine ⟨_, Option.map_eq_some_iff.2 ⟨_, hi.ends ▸ next_pendingSize _, rfl⟩, ?_⟩
    exact hi.producer_moves (by rw [h]; rfl) (by rw [h]; rfl) (by rw [h]; rfl) (by rw [h]; exact List.Subset.refl _) rfl
  | pushStart c new =>
    by_cases hfull : new = s.indexStart
    · exact ⟨_, if_pos hfull, hi.refuse h⟩
    · exact ⟨_, if_neg hfull, hi.pushStart h hfull⟩
  | pushData c new =>
    obtain ⟨hlt, hi'⟩ := hi.store h
    exact ⟨_, if_pos hlt, hi'⟩
  | pushStore c new => exact ⟨_, rfl, hi.accept h⟩
  | usedEnd c =>
    exact ⟨_, rfl, hi.producer_moves (by rw [h]; rfl) (by rw [h]; rfl) (by rw [h]; rfl) (List.nil_subset _) trivial⟩
  | usedStart c =>
    exact ⟨_, rfl, hi.producer_moves (by rw [h]; rfl) (by rw [h]; rfl) (by rw [h]; rfl) (List.nil_subset _) trivial⟩
  | emptyEnd c =>
    exact ⟨_, rfl, hi.producer_moves (by rw [h]; rfl) (by rw [h]; rfl) (by rw [h]; rfl) (List.nil_subset _) trivial⟩
  | emptyStart c e =>
    refine ⟨_, rfl, ?_⟩
    split
    all_goals exact hi.producer_moves (by rw [h]; rfl) (by rw [h]; rfl) (by rw [h]; rfl) (List.nil_subset _) trivial
  | frontStart c =>
    refine ⟨_, Option.map_eq_some_iff.2 ⟨_, hi.starts ▸ frontIndex_mod _, rfl⟩, ?_⟩
    exact hi.producer_moves (by rw [h]; rfl) (by rw [h]; rfl) (by rw [h]; rfl) (List.nil_subset _)
      (Nat.mod_lt _ (by decide))
  | frontSlot c ix =>
    obtain ⟨s', hs', hi'⟩ := hi.readFront h command
    rw [Control.stepProducer, h] at hs'
    exact ⟨s', hs', hi'⟩
  | print c q =>
    rw [h] at hknows
    obtain ⟨k, hk, hq⟩ := hknows
    obtain ⟨command, -, hread⟩ := hi.read_accepted hk hq
    exact ⟨_, Option.map_eq_some_iff.2 ⟨command, hread, rfl⟩,
      hi.producer_moves (by rw [h]; rfl) (by rw [h]; rfl) (by rw [h]; rfl) (List.nil_subset _) trivial⟩
  | delete c =>
    obtain ⟨s', hs', hi'⟩ := hi.drop h
    exact ⟨_, Option.map_eq_some_iff.2 ⟨s', hs', rfl⟩, hi'⟩

/-! ## The engine's steps -/

theorem Inv.process (hi : Inv d s) {p : Nat} (h : s.engine = .process p) : ∃ command, s.read p = some command ∧
    Inv d { s with processed := s.processed ++ [⟨p, command⟩], engine := .done p } := by
  have hknows := hi.engine
  have hprocessed := hi.processed
  have hother := hi.other
  have hslot := hi.slot
  have hstarts := hi.starts
  have hroom := hi.room
  have hproducer := hi.producer
  rw [h] at hknows hprocessed hother hslot hstarts hroom hproducer
  obtain ⟨hturn, hp⟩ := hknows
  obtain ⟨command, hat, hread⟩ := hi.read_accepted (Nat.le_refl d) hp
  refine ⟨command, hread, { hi with
    starts := hstarts
    ahead_le := lt_of_addressAt hp
    room := hroom
    processed := ?_
    slot := hslot
    other := hother
    producer := hproducer
    engine := ⟨hturn, hp⟩ }⟩
  show s.processed ++ [⟨p, command⟩] = s.accepted.take (d + 1)
  rw [List.take_add_one, hat, hprocessed]
  rfl

/-- The request is taken out of the FIFO: the other slot is free from now on. -/
theorem Inv.take (hi : Inv d s) {new : Nat} (h : s.engine = .popStore new) :
    Inv d { s with indexStart := new, engine := .popRead } := by
  have hknows := hi.engine
  have hprocessed := hi.processed
  have hother := hi.other
  have hslot := hi.slot
  have hroom := hi.room
  have hle := hi.ahead_le
  have hproducer := hi.producer
  rw [h] at hknows hprocessed hother hslot hroom hle hproducer
  obtain ⟨hturn, hnew⟩ := hknows
  have hle' : d + 1 ≤ s.accepted.length := hle
  have hroom' : s.accepted.length ≤ d + 1 := hroom
  -- nothing is in the slot yet: the FIFO is full
  have hstored : s.producer.stored = [] := by
    cases hw : s.producer with
    | pushStore c ix =>
      rw [hw] at hproducer
      exact absurd hproducer.2 (Nat.ne_of_gt hle')
    | _ => rfl
  refine { hi with
    starts := hnew
    ahead_le := hle
    room := Nat.le_succ_of_le hroom'
    processed := hprocessed
    slot := ?_
    other := ?_
    producer := ?_
    engine := hturn }
  · show s.data[(d + 2) % 2]? = some (addressAt (s.accepted ++ s.producer.stored) (d + 1))
    rw [hstored, List.append_nil, Nat.add_mod_right, addressAt, List.getElem?_eq_none hroom']
    exact hother
  · show s.data[(d + 1) % 2]? = some (addressAt s.accepted d)
    rw [hstored, List.append_nil] at hslot
    exact hslot
  · show s.producer.Knows d (d + 1) s.accepted
    cases hw : s.producer <;> rw [hw] at hproducer
    case pushData c ix => exact absurd hproducer.2 (Nat.ne_of_gt hle')
    case pushStore c ix => exact absurd hproducer.2 (Nat.ne_of_gt hle')
    all_goals exact hproducer

theorem Inv.reset (hi : Inv d s) {item : Option Nat} {ix : Nat} (h : s.engine = .popResetSlot item ix) :
    ix < s.data.length ∧ Inv d { s with data := s.data.set ix none, engine := .delete item } := by
  have hknows := hi.engine
  have hslot := hi.slot
  have hstarts := hi.starts
  have hle := hi.ahead_le
  have hroom := hi.room
  have hprocessed := hi.processed
  have hproducer := hi.producer
  rw [h] at hknows hslot hstarts hle hroom hprocessed hproducer
  obtain ⟨hturn, hitem, hix⟩ := hknows
  have hlt : ix < s.data.length := by
    rw [hi.length, hix]
    exact Nat.mod_lt _ (by decide)
  refine ⟨hlt, { hi with
    length := by rw [List.length_set]; exact hi.length
    starts := hstarts
    ahead_le := hle
    room := hroom
    processed := hprocessed
    slot := ?_
    other := ?_
    producer := hproducer
    engine := ⟨hturn, hitem⟩ }⟩
  · refine (List.getElem?_set_ne ?_).trans hslot
    rw [hix]
    exact mod_two_ne (d + 1)
  · show (s.data.set ix none)[(d + 1) % 2]? = some none
    rw [← hix, List.getElem?_set_self hlt]

/-- The engine deletes the request, which the other thread is not about to print. -/
theorem Inv.delete (hi : Inv d s) {item : Option Nat} (h : s.engine = .delete item)
    (hspared : ∀ c q, s.producer = .print c q → item ≠ some q) :
    ∃ s', s.delete item = some s' ∧ Inv (d + 1) { s' with engine := .check } := by
  have hknows := hi.engine
  have hother := hi.other
  have hslot := hi.slot
  have hstarts := hi.starts
  have hle := hi.ahead_le
  have hroom := hi.room
  have hprocessed := hi.processed
  have hproducer := hi.producer
  rw [h] at hknows hother hslot hstarts hle hroom hprocessed hproducer
  obtain ⟨hturn, hitem⟩ := hknows
  have hlt : d < s.accepted.length := hle
  obtain ⟨c, hc⟩ : ∃ c, s.accepted[d]? = some c := ⟨_, List.getElem?_eq_getElem hlt⟩
  have hitem' : item = some c.newCommand := by rw [hitem, addressAt, hc]; rfl
  obtain ⟨command, -, hread⟩ := hi.read_accepted (Nat.le_refl d) (hitem.symm.trans hitem')
  refine ⟨{ s with deleted := s.deleted ++ [c.newCommand] }, by rw [hitem', State.delete, hread]; rfl, ?_⟩
  have hdrop : s.accepted.drop d = c :: s.accepted.drop (d + 1) := by
    obtain ⟨hlt', hget⟩ := List.getElem?_eq_some_iff.1 hc
    rw [List.drop_eq_getElem_cons hlt', hget]
  refine { hi with
    starts := hstarts
    ahead_le := hle
    room := hroom
    processed := hprocessed
    slot := hslot
    other := hother
    ledger := ?_
    producer := ?_
    engine := hturn }
  · refine List.Perm.trans ?_ hi.ledger
    rw [hdrop]
    simp
  · show s.producer.Knows (d + 1) (d + 1) s.accepted
    cases hw : s.producer with
    | print c' q =>
      rw [hw] at hproducer
      obtain ⟨k, hk, hq⟩ := hproducer
      refine ⟨k, ?_, hq⟩
      -- the engine deletes the request of count `d`
      rcases Nat.lt_or_eq_of_le hk with hlt' | rfl
      · exact hlt'
      · exact absurd (hitem.trans hq) (hspared c' q hw)
    | _ =>
      rw [hw] at hproducer
      exact hproducer

/-- `isEmpty` compares what it read: it is right about the FIFO as it was then, and nothing else takes from it. -/
theorem Inv.emptyStart (hi : Inv d s) {e : Nat} (h : s.engine = .emptyStart e) :
    Inv d { s with engine := if e = s.indexStart then .check else .frontStart } := by
  have hknows := hi.engine
  have hstarts := hi.starts
  rw [h] at hknows hstarts
  obtain ⟨n, hd, hd', hn, hturn, he⟩ := hknows
  by_cases hempty : e = s.indexStart
  · have hnd : n = d := by
      rw [he, hstarts] at hempty
      by_contra hne
      have hn' : n = d + 1 := by omega
      rw [hn'] at hempty
      exact mod_two_ne d hempty.symm
    rw [if_pos hempty]
    exact hi.engine_moves (by rw [h]; rfl) (by rw [h]; rfl) (by rw [h]; rfl) (hnd ▸ hturn)
  · have hnd : n ≠ d := by
      rintro rfl
      exact hempty (he.trans hstarts.symm)
    rw [if_neg hempty]
    exact hi.engine_moves (by rw [h]; rfl) (by rw [h]; rfl) (by rw [h]; rfl) ⟨by omega, by omega⟩

/-- `front` finds the first request that is not deleted. -/
theorem Inv.frontSlot (hi : Inv d s) {ix : Nat} (h : s.engine = .frontSlot ix) :
    ∃ p, s.data[ix]? = some (some p) ∧ Inv d { s with engine := .starting p } := by
  have hknows := hi.engine
  have hslot := hi.slot
  rw [h] at hknows hslot
  obtain ⟨hturn, hlt, rfl⟩ := hknows
  obtain ⟨p, hp⟩ : ∃ p, addressAt s.accepted d = some p := by
    rw [addressAt, List.getElem?_eq_getElem hlt]
    exact ⟨_, rfl⟩
  rw [show d + (Engine.frontSlot ((d + 1) % 2)).taken = d from rfl, addressAt_append hlt, hp] at hslot
  exact ⟨p, hslot, hi.engine_moves (by rw [h]; rfl) (by rw [h]; rfl) (by rw [h]; rfl) ⟨hturn, hp⟩⟩

/-- The request processed is still in the FIFO: `pop` does not find it empty. -/
theorem Inv.popEmptyStart (hi : Inv d s) {p e : Nat} (h : s.engine = .popEmptyStart p e) :
    e ≠ s.indexStart ∧ Inv d { s with engine := .popStart } := by
  have hknows := hi.engine
  have hstarts := hi.starts
  rw [h] at hknows hstarts
  refine ⟨?_, hi.engine_moves (by rw [h]; rfl) (by rw [h]; rfl) (by rw [h]; rfl) hknows.1⟩
  rw [hknows.2, hstarts]
  exact (mod_two_ne d).symm

/-- A turn ends: what was accepted before it is processed. -/
theorem Inv.check (hi : Inv d s) (h : s.engine = .check) :
    Inv d { s with turns := s.turns ++ [(s.turnBegan, s.processed.length)], engine := .turn } := by
  have hknows := hi.engine
  have hle := hi.ahead_le
  rw [h] at hknows hle
  have hmoved := hi.engine_moves (e := .turn) (by rw [h]; rfl) (by rw [h]; rfl) (by rw [h]; rfl) trivial
  refine { hmoved with turns := fun t ht => ?_ }
  rcases List.mem_append.1 ht with ht | ht
  · exact hi.turns t ht
  · rw [List.mem_singleton.1 ht, hi.processed, h, List.length_take]
    exact Nat.le_min.2 ⟨hknows, Nat.le_trans hknows hle⟩

/-- **A step of the engine**, which leaves alone what the other thread is about to print. -/
theorem Inv.stepEngine (hi : Inv d s) (hspared : ∀ c q, s.producer = .print c q → s.engine ≠ .delete (some q)) :
    ∃ s', stepEngine s = some s' ∧ ∃ d', Inv d' s' := by
  have hknows := hi.engine
  have hle := hi.ahead_le
  have hroom := hi.room
  have hstarts := hi.starts
  unfold Control.stepEngine
  cases h : s.engine with
  | turn =>
    refine ⟨_, rfl, d, ?_⟩
    have hmoved := hi.engine_moves (e := .turn) (by rw [h]) (by rw [h]) (by rw [h]) trivial
    exact { hmoved with engine := Nat.le_refl _ }
  | emptyEnd =>
    rw [h] at hknows hle hroom
    refine ⟨_, rfl, d, hi.engine_moves (by rw [h]; rfl) (by rw [h]; rfl) (by rw [h]; rfl) ?_⟩
    exact ⟨_, hle, hroom, Nat.le_refl _, hknows, hi.ends⟩
  | emptyStart e => exact ⟨_, rfl, d, hi.emptyStart h⟩
  | frontStart =>
    rw [h] at hknows
    rw [h] at hstarts
    refine ⟨_, Option.map_eq_some_iff.2 ⟨_, hstarts ▸ frontIndex_mod _, rfl⟩, d, ?_⟩
    exact hi.engine_moves (by rw [h]; rfl) (by rw [h]; rfl) (by rw [h]; rfl) ⟨hknows.1, hknows.2, rfl⟩
  | frontSlot ix =>
    obtain ⟨p, hp, hi'⟩ := hi.frontSlot h
    exact ⟨_, Option.map_eq_some_iff.2 ⟨some p, hp, rfl⟩, d, hi'⟩
  | starting p =>
    rw [h] at hknows
    obtain ⟨command, -, hread⟩ := hi.read_accepted (Nat.le_refl d) hknows.2
    exact ⟨_, Option.map_eq_some_iff.2 ⟨command, hread, rfl⟩, d,
      hi.engine_moves (by rw [h]; rfl) (by rw [h]; rfl) (by rw [h]; rfl) hknows⟩
  | process p =>
    obtain ⟨command, hread, hi'⟩ := hi.process h
    exact ⟨_, Option.map_eq_some_iff.2 ⟨command, hread, rfl⟩, d, hi'⟩
  | done p =>
    rw [h] at hknows
    obtain ⟨command, -, hread⟩ := hi.read_accepted (Nat.le_refl d) hknows.2
    exact ⟨_, Option.map_eq_some_iff.2 ⟨command, hread, rfl⟩, d,
      hi.engine_moves (by rw [h]; rfl) (by rw [h]; rfl) (by rw [h]; rfl) hknows⟩
  | popEmptyEnd p =>
    rw [h] at hknows hle hroom
    have hlength : s.accepted.length = d + 1 := Nat.le_antisymm hroom hle
    exact ⟨_, rfl, d, hi.engine_moves (by rw [h]; rfl) (by rw [h]; rfl) (by rw [h]; rfl)
      ⟨hknows.1, by rw [hi.ends, hlength]⟩⟩
  | popEmptyStart p e =>
    obtain ⟨hne, hi'⟩ := hi.popEmptyStart h
    refine ⟨_, rfl, d, ?_⟩
    rw [if_neg hne]
    exact hi'
  | popStart =>
    rw [h] at hknows hstarts
    refine ⟨_, Option.map_eq_some_iff.2 ⟨_, hstarts ▸ next_pendingSize _, rfl⟩, d, ?_⟩
    exact hi.engine_moves (by rw [h]; rfl) (by rw [h]; rfl) (by rw [h]; rfl) ⟨hknows, rfl⟩
  | popStore new => exact ⟨_, rfl, d, hi.take h⟩
  | popRead =>
    rw [h] at hknows hstarts
    exact ⟨_, rfl, d, hi.engine_moves (by rw [h]; rfl) (by rw [h]; rfl) (by rw [h]; rfl) ⟨hknows, hstarts⟩⟩
  | popReadSlot ix =>
    rw [h] at hknows
    have hother := hi.other
    rw [h] at hother
    refine ⟨_, Option.map_eq_some_iff.2 ⟨addressAt s.accepted d, hknows.2 ▸ hother, rfl⟩, d, ?_⟩
    exact hi.engine_moves (by rw [h]; rfl) (by rw [h]; rfl) (by rw [h]; rfl) ⟨hknows.1, rfl⟩
  | popReset item =>
    rw [h] at hknows hstarts
    exact ⟨_, rfl, d, hi.engine_moves (by rw [h]; rfl) (by rw [h]; rfl) (by rw [h]; rfl) ⟨hknows.1, hknows.2, hstarts⟩⟩
  | popResetSlot item ix =>
    obtain ⟨hlt, hi'⟩ := hi.reset h
    exact ⟨_, if_pos hlt, d, hi'⟩
  | delete item =>
    obtain ⟨s', hs', hi'⟩ := hi.delete h fun c q hw he => hspared c q hw (by rw [h, he])
    exact ⟨_, Option.map_eq_some_iff.2 ⟨s', hs', rfl⟩, d + 1, hi'⟩
  | check => exact ⟨_, rfl, d, hi.check h⟩

/-! ## The hand-off -/

/-- What the hand-off is for: the engine processes what was accepted in that order, in each turn at least what was
accepted before it; a refused request is never processed; and a request is deleted once, none being left when the
engine has caught up and both threads rest. -/
structure HandedOff (s : State) : Prop where
  processed : s.processed <+: s.accepted
  once : (s.processed.map Call.newCommand).Nodup
  never : ∀ c ∈ s.rejected, c.newCommand ∉ s.processed.map Call.newCommand
  turns : ∀ t ∈ s.turns, t.1 ≤ t.2
  deleted : s.deleted.Nodup
  rest : s.producer = .idle → s.engine = .turn → s.processed = s.accepted →
    s.deleted.Perm (List.range s.requests.length)

theorem Inv.handedOff (hi : Inv d s) : HandedOff s := by
  have hbegins : s.processed <+: s.accepted := by
    rw [hi.processed]
    exact List.take_prefix _ _
  have hnodup := hi.calls.nodup_iff.2 List.nodup_range
  rw [List.map_append, List.map_append] at hnodup
  have hboth := (List.nodup_append.1 hnodup).1
  refine ⟨hbegins, ?_, fun c hc hmem => ?_, hi.turns, ?_, fun hidle hturn heq => ?_⟩
  · exact (List.nodup_append.1 hboth).1.sublist (hbegins.sublist.map _)
  · exact (List.nodup_append.1 hboth).2.2 _ ((hbegins.sublist.map _).subset hmem) _ (List.mem_map_of_mem hc) rfl
  · exact (List.nodup_append.1 (hi.ledger.nodup_iff.2 List.nodup_range)).1
  · have hledger := hi.ledger
    have hprocessed := hi.processed
    rw [heq, hturn] at hprocessed
    have hdrop : s.accepted.drop d = [] := by
      refine List.drop_eq_nil_of_le ?_
      rw [hprocessed, List.length_take]
      exact Nat.min_le_left _ _
    rw [hdrop, hidle] at hledger
    simpa [Producer.held] using hledger

theorem not_spared {a : Action} (hn : ¬ Spared s a) :
    a = .engine ∧ ∃ c q, s.producer = .print c q ∧ s.engine = .delete (some q) := by
  cases a with
  | producer command => exact absurd trivial hn
  | engine => simpa [Spared] using hn

/-- **A step** that spares what is about to be printed. -/
theorem Inv.step (hi : Inv d s) {a : Action} (hspared : Spared s a) : ∃ s', step s a = some s' ∧ ∃ d', Inv d' s' := by
  cases a with
  | producer command =>
    obtain ⟨s', hs', hi'⟩ := hi.stepProducer command
    exact ⟨s', hs', d, hi'⟩
  | engine => exact hi.stepEngine hspared

/-- The next step of either thread reads and deletes requests that exist, also one that spares nothing. -/
theorem Inv.step_isSome (hi : Inv d s) (a : Action) : ∃ s', Control.step s a = some s' := by
  by_cases hspared : Spared s a
  · obtain ⟨s', hs', -⟩ := hi.step hspared
    exact ⟨s', hs'⟩
  · obtain ⟨rfl, c, q, -, he⟩ := not_spared hspared
    have hknows := hi.engine
    rw [he] at hknows
    obtain ⟨command, -, hread⟩ := hi.read_accepted (Nat.le_refl d) hknows.2.symm
    exact ⟨_, by rw [Control.step, Control.stepEngine, he]; exact
      Option.map_eq_some_iff.2 ⟨_, Option.map_eq_some_iff.2 ⟨command, hread, rfl⟩, rfl⟩⟩

/-- After a step that spares nothing the producer reads a deleted request. -/
theorem not_spared_breaks {s' : State} {a : Action} (hn : ¬ Spared s a) (h : Control.step s a = some s')
    (command : String) : Control.step s' (.producer command) = none := by
  obtain ⟨rfl, c, q, hw, he⟩ := not_spared hn
  have hs' : (s.delete (some q)).map (fun s => { s with engine := .check }) = some s' := by
    rw [← h, Control.step, Control.stepEngine, he]
  rw [State.delete, Option.map_map, Option.map_eq_some_iff] at hs'
  obtain ⟨_, -, rfl⟩ := hs'
  have hread : State.read { s with deleted := s.deleted ++ [q], engine := .check } q = none :=
    if_pos (List.mem_append_right _ (List.mem_singleton_self q))
  unfold Control.step Control.stepProducer
  simp only [Function.comp_apply, hw]
  exact Option.map_eq_none_iff.2 hread

/-- **The hand-off of commands**: every interleaving reads and deletes only requests that exist, up to and in whatever
step comes next, and hands them off as it should, exactly when the engine never deletes the request that the other
thread is about to print. -/
theorem handed_off_iff (as : List Action) :
    (∀ bs, bs <+: as → ∃ s, run step start bs = some s ∧ HandedOff s ∧ ∀ a, ∃ s', step s a = some s') ↔
      Legal step Spared start as := by
  refine forall_prefix_iff_legal (I := fun s => ∃ d, Inv d s) ?_ ?_ ?_ as start ⟨0, inv_start⟩
  · rintro s ⟨d, hi⟩
    exact ⟨hi.handedOff, hi.step_isSome⟩
  · rintro s a ⟨d, hi⟩ hspared
    exact hi.step hspared
  · rintro s a s' - hn hs' ⟨-, hnext⟩
    obtain ⟨s₂, hs₂⟩ := hnext (.producer "")
    rw [not_spared_breaks hn hs' ""] at hs₂
    cases hs₂

/-- A command is accepted; a second one is refused, and when its call is about to print the first the engine takes a
turn, processes it and deletes it. -/
def printedLate : List Action :=
  List.replicate 7 (.producer "prepare") ++ List.replicate 11 (.producer "start") ++ List.replicate 17 .engine ++
    [.producer "start"]

/-- A deleted request is printed. -/
theorem printedLate_reads_deleted :
    ¬ ∀ bs, bs <+: printedLate → ∃ s, run step start bs = some s ∧ HandedOff s ∧ ∀ a, ∃ s', step s a = some s' := by
  intro h
  obtain ⟨s, hs, -⟩ := h printedLate List.prefix_rfl
  have hnone : run step start printedLate = none := by decide +kernel
  rw [hnone] at hs
  cases hs

end Control
end Flp
