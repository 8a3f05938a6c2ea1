import FlpPrototype.Rorc.DmaBench
/-!
# DmaBenchRuns — every superpage stays in circulation

The offsets in all places are the offsets of the buffer, rearranged (`Inv`), when the superpage that was published and
is about to be popped is not counted in the driver.  A queue then never has all of them when one more is written, so no
write fails; and an offset that is read from the free queue is nowhere else.
-/
namespace Flp
namespace DmaBench

variable {S : Sizes} {offsets : List Nat} {s s' : Bench}

/-! ## The queues -/

/-- **The free queue takes every offset** exactly when it has a usable slot for each. -/
theorem fill_eq (size superpageSize : Nat) : ∀ n : Nat, fill size superpageSize n =
    if n ≤ size - 1 then some ((List.range n).map (· * superpageSize)) else none
  | 0 => rfl
  | n + 1 => by
    have ih := fill_eq size superpageSize n
    unfold fill at ih ⊢
    rw [List.range_succ, List.foldlM_append, ih]
    by_cases hn : n + 1 ≤ size - 1
    · rw [if_pos (by omega), if_pos hn]
      have hlt : n < size - 1 := hn
      simp [write, hlt]
    · rw [if_neg hn]
      by_cases hn' : n ≤ size - 1
      · rw [if_pos hn']
        simp [write]
        omega
      · rw [if_neg hn']
        rfl

theorem queueSize_of_lt {n : Nat} (h : n + 1 < 2 ^ 32) : queueSize n = n + 1 := by
  unfold queueSize
  rw [Nat.mod_eq_of_lt (by omega : n < 2 ^ 32), Nat.mod_eq_of_lt h]

/-- **`dmaLoop` starts** exactly when the number of slots fits the queue's `uint32_t`. -/
theorem dmaLoop_eq {bufferSize superpageSize : Nat} (hpos : 1 ≤ maxSuperpages bufferSize superpageSize) :
    dmaLoop bufferSize superpageSize =
      if maxSuperpages bufferSize superpageSize + 1 < 2 ^ 32 then
        some ⟨(List.range (maxSuperpages bufferSize superpageSize)).map (· * superpageSize), [], [], [], .loop, .loop,
          0⟩
      else none := by
  unfold dmaLoop
  generalize maxSuperpages bufferSize superpageSize = n at hpos
  simp only [guard, if_pos hpos, fill_eq]
  by_cases hn : n + 1 < 2 ^ 32
  · rw [queueSize_of_lt hn, if_pos (by omega), if_pos (by omega), if_pos hn]
    rfl
  · rw [if_neg hn, if_neg (show ¬ n ≤ queueSize n - 1 by unfold queueSize; omega)]
    by_cases hq : 2 ≤ queueSize n
    · rw [if_pos hq]
      rfl
    · rw [if_neg hq]
      rfl

theorem one_le_maxSuperpages {bufferSize superpageSize pageSize : Nat} {iommu : Bool}
    (h : Admitted bufferSize superpageSize pageSize iommu) :
    1 ≤ maxSuperpages bufferSize superpageSize ∧ 0 < superpageSize := by
  obtain ⟨-, -, hle, hmul⟩ := h
  simp only [isMultiple, Bool.and_eq_true, decide_eq_true_eq] at hmul
  have hpos : 0 < superpageSize := Nat.lt_of_lt_of_le (Nat.pos_of_ne_zero hmul.1.1) hmul.1.2
  exact ⟨(Nat.one_le_div_iff hpos).2 hle, hpos⟩

/-! ## The invariant -/

/-- What the push thread knows of the driver's ready queue. -/
def PushPc.Knows (ready : List Superpage) : PushPc → Prop
  | .getSuperpage    => ready ≠ []
  | .writeReadout sp => (ready.map Superpage.offset).head? = some sp.offset
  | .popSuperpage    => ready ≠ []
  | _                => True

structure Inv (offsets : List Nat) (s : Bench) : Prop where
  perm : s.places.Perm offsets
  knows : s.push.Knows s.ready
  writes : s.failedWrites = 0

theorem Inv.push_moves (hi : Inv offsets s) {p : PushPc} (hp : p.offsets = s.push.offsets)
    (hpop : s.push ≠ .popSuperpage) (hpop' : p ≠ .popSuperpage) (hk : p.Knows s.ready) :
    Inv offsets { s with push := p } where
  perm := perm_of_count hi.perm fun o => by
    rw [count_places, count_places]
    simp only [if_neg hpop, if_neg hpop', hp]
  knows := hk
  writes := hi.writes

theorem Inv.readout_moves (hi : Inv offsets s) {r : ReadoutPc} (hr : r.offsets = s.readout.offsets) :
    Inv offsets { s with readout := r } where
  perm := perm_of_count hi.perm fun o => by
    rw [count_places, count_places]
    simp only [hr]
  knows := hi.knows
  writes := hi.writes

/-- The readout queue has room for a superpage the driver still has. -/
theorem Inv.readoutQueue_lt (hi : Inv offsets s) (hpop : s.push ≠ .popSuperpage) (hne : s.ready ≠ []) :
    s.readoutQueue.length < offsets.length := by
  have hlen := hi.perm.length_eq
  have hpos := List.length_pos_of_ne_nil hne
  rw [Bench.places, Bench.driver, if_neg hpop] at hlen
  simp only [List.length_append, List.length_map] at hlen
  omega

/-- The free queue has room for the superpage that is being read. -/
theorem Inv.freeQueue_lt (hi : Inv offsets s) {offset : Nat} (h : s.readout = .writeFree offset) :
    s.freeQueue.length < offsets.length := by
  have hlen := hi.perm.length_eq
  rw [Bench.places, h] at hlen
  simp only [List.length_append, ReadoutPc.offsets, List.length_singleton] at hlen
  omega

/-- **Every step of the push thread.** -/
theorem inv_stepPush (env : Env) (hS : S.queueSize = offsets.length + 1) (hi : Inv offsets s)
    (hpc : s.push ≠ .stopped) : ∃ s', stepPush S s env = some s' ∧ Inv offsets s' := by
  have hk := hi.knows
  have ho : ∀ {p q : PushPc}, s.push = p → q.offsets = p.offsets → q.offsets = s.push.offsets :=
    fun h hq => hq.trans (by rw [h])
  unfold stepPush
  cases h : s.push with
  | stopped => exact absurd h hpc
  | loop =>
    cases env.stop with
    | true => exact ⟨_, rfl, hi.push_moves (ho h rfl) (by simp [h]) (by simp) trivial⟩
    | false => exact ⟨_, rfl, hi.push_moves (ho h rfl) (by simp [h]) (by simp) trivial⟩
  | fillSuperpages => exact ⟨_, rfl, hi.push_moves (ho h rfl) (by simp [h]) (by simp) trivial⟩
  | transferAvailable =>
    refine ⟨_, rfl, ?_⟩
    split
    · exact hi.push_moves (ho h rfl) (by simp [h]) (by simp) trivial
    · exact hi.push_moves (ho h rfl) (by simp [h]) (by simp) trivial
  | readFree =>
    cases hf : s.freeQueue with
    | nil =>
      exact ⟨{ s with push := .readySize }, by simp [hf], hi.push_moves (ho h rfl) (by simp [h]) (by simp) trivial⟩
    | cons offset rest =>
      refine ⟨_, rfl, perm_of_count hi.perm fun o => ?_, trivial, hi.writes⟩
      rw [count_places, count_places, h, hf, ← List.singleton_append (l := rest), List.count_append]
      simp only [PushPc.offsets, List.count_nil, reduceCtorEq, if_false]
      omega
  | pushSuperpage offset =>
    refine ⟨_, rfl, perm_of_count hi.perm fun o => ?_, trivial, hi.writes⟩
    have hone : countBy Superpage.offset o [⟨offset, S.superpageSize, false⟩] = [offset].count o := rfl
    rw [count_places, count_places, h, countBy_append, hone]
    simp only [PushPc.offsets, List.count_nil, reduceCtorEq, if_false]
    omega
  | readySize =>
    refine ⟨_, rfl, ?_⟩
    by_cases hr : s.ready.length ≠ 0
    · rw [if_pos hr]
      exact hi.push_moves (ho h rfl) (by simp [h]) (by simp) (List.ne_nil_of_length_pos (Nat.pos_of_ne_zero hr))
    · rw [if_neg hr]
      exact hi.push_moves (ho h rfl) (by simp [h]) (by simp) trivial
  | getSuperpage =>
    rw [h] at hk
    obtain ⟨sp, hsp⟩ : ∃ sp, s.ready.head? = some sp := ⟨_, List.head?_eq_some_head hk⟩
    refine ⟨_, Option.map_eq_some_iff.2 ⟨sp, hsp, rfl⟩, hi.push_moves (ho h rfl) (by simp [h]) (by simp) ?_⟩
    exact (List.head?_map ..).trans (by rw [hsp]; rfl)
  | writeReadout sp =>
    rw [h] at hk
    obtain ⟨front, hfront, heq⟩ := Option.map_eq_some_iff.1 ((List.head?_map ..).symm.trans hk)
    have hne : s.ready ≠ [] := by
      rintro hnil
      rw [hnil] at hfront
      cases hfront
    by_cases hready : sp.ready = true
    · have hroom := hi.readoutQueue_lt (by simp [h]) hne
      have hwrite : write S.queueSize s.readoutQueue sp.offset = some (s.readoutQueue ++ [sp.offset]) :=
        if_pos (by omega)
      refine ⟨{ s with readoutQueue := s.readoutQueue ++ [sp.offset], push := .popSuperpage },
        by simp only [if_pos hready, hwrite], perm_of_count hi.perm fun o => ?_, hne, hi.writes⟩
      have htail := countBy_tail Superpage.offset o hfront
      have hone : countBy Superpage.offset o [front] = [sp.offset].count o := by rw [← heq]; rfl
      rw [count_places, count_places, h, List.count_append]
      simp only [PushPc.offsets, List.count_nil, reduceCtorEq, if_true, if_false]
      omega
    · exact ⟨_, if_neg hready, hi.push_moves (ho h rfl) (by simp [h]) (by simp) trivial⟩
  | popSuperpage =>
    refine ⟨_, rfl, perm_of_count hi.perm fun o => ?_, trivial, hi.writes⟩
    rw [count_places, count_places, h]
    simp only [PushPc.offsets, reduceCtorEq, if_true, if_false]

/-- **Every step of the readout thread.** -/
theorem inv_stepReadout (env : Env) (hS : S.queueSize = offsets.length + 1) (hi : Inv offsets s)
    (hpc : s.readout ≠ .stopped) : ∃ s', stepReadout S s env = some s' ∧ Inv offsets s' := by
  unfold stepReadout
  cases h : s.readout with
  | stopped => exact absurd h hpc
  | loop =>
    cases env.stop with
    | true => exact ⟨_, rfl, hi.readout_moves (by rw [h]; rfl)⟩
    | false => exact ⟨_, rfl, hi.readout_moves (by rw [h]; rfl)⟩
  | readReadout =>
    cases hq : s.readoutQueue with
    | nil => exact ⟨{ s with readout := .loop }, by simp [hq], hi.readout_moves (by rw [h]; rfl)⟩
    | cons offset rest =>
      refine ⟨_, rfl, perm_of_count hi.perm fun o => ?_, hi.knows, hi.writes⟩
      rw [count_places, count_places, h, hq, ← List.singleton_append (l := rest), List.count_append]
      simp only [ReadoutPc.offsets, List.count_nil]
      omega
  | readoutPage offset i =>
    refine ⟨_, rfl, ?_⟩
    split
    · exact hi.readout_moves (by rw [h]; rfl)
    · exact hi.readout_moves (by rw [h]; rfl)
  | writeFree offset =>
    have hroom := hi.freeQueue_lt h
    have hwrite : write S.queueSize s.freeQueue offset = some (s.freeQueue ++ [offset]) := if_pos (by omega)
    refine ⟨{ s with freeQueue := s.freeQueue ++ [offset], readout := .loop }, by simp only [hwrite],
      perm_of_count hi.perm fun o => ?_, hi.knows, hi.writes⟩
    rw [count_places, count_places, h, List.count_append]
    simp only [ReadoutPc.offsets, List.count_nil]
    omega

theorem PushPc.Knows.mono {p : PushPc} {ready ready' : List Superpage} (h : p.Knows ready)
    (hr : ready.map Superpage.offset <+: ready'.map Superpage.offset) : p.Knows ready' := by
  obtain ⟨more, hmore⟩ := hr
  have hne : ready ≠ [] → ready' ≠ [] := by
    rintro hne rfl
    exact hne (List.map_eq_nil_iff.1 (List.append_eq_nil_iff.1 hmore).1)
  cases p with
  | getSuperpage => exact hne h
  | writeReadout sp =>
    have hhead : (ready.map Superpage.offset).head? = some sp.offset := h
    rw [Knows, ← hmore, List.head?_append, hhead]
    rfl
  | popSuperpage => exact hne h
  | _ => trivial

theorem map_set_ready {l : List Superpage} {k : Nat} {sp : Superpage} (h : l[k]? = some sp) :
    (l.set k { sp with ready := true }).map Superpage.offset = l.map Superpage.offset := by
  obtain ⟨hk, rfl⟩ := List.getElem?_eq_some_iff.1 h
  rw [List.map_set]
  have hget : (l.map Superpage.offset)[k]? = some l[k].offset := by simp [hk]
  obtain ⟨hk', he⟩ := List.getElem?_eq_some_iff.1 hget
  rw [← he, List.set_getElem_self]

theorem inv_step (hS : S.queueSize = offsets.length + 1) (s : Bench) (a : Action) (hi : Inv offsets s)
    (hok : Proper s a) : ∃ s', step S s a = some s' ∧ Inv offsets s' := by
  cases a with
  | push env => exact inv_stepPush env hS hi hok
  | readout env => exact inv_stepReadout env hS hi hok
  | drive k ready =>
    have hget : s.transfer[k]? = some s.transfer[k] := List.getElem?_eq_getElem hok
    refine ⟨_, Option.map_eq_some_iff.2 ⟨_, hget, rfl⟩, perm_of_count hi.perm fun o => ?_, hi.knows.mono (by simp),
      hi.writes⟩
    have := countBy_eraseIdx Superpage.offset o hget
    have hsame : countBy Superpage.offset o [{ s.transfer[k] with ready := ready }] =
        countBy Superpage.offset o [s.transfer[k]] := rfl
    rw [count_places, count_places]
    by_cases hpop : s.push = .popSuperpage
    · have hknows := hi.knows
      rw [hpop] at hknows
      simp only [if_pos hpop, List.tail_append_of_ne_nil hknows, countBy_append, hsame]
      omega
    · simp only [if_neg hpop, countBy_append, hsame]
      omega
  | complete k =>
    have hget : s.ready[k]? = some s.ready[k] := List.getElem?_eq_getElem hok
    have hmap := map_set_ready hget
    refine ⟨_, Option.map_eq_some_iff.2 ⟨_, hget, rfl⟩, perm_of_count hi.perm fun o => ?_,
      hi.knows.mono ⟨[], by rw [List.append_nil, hmap]⟩, hi.writes⟩
    rw [count_places, count_places]
    by_cases hpop : s.push = .popSuperpage
    · simp only [if_pos hpop, countBy, List.map_tail, hmap]
    · simp only [if_neg hpop, countBy, hmap]

/-! ## The result -/

/-- Each offset is in one place, a superpage that was published but not yet popped being counted where it was
published; no offset that is handed to the driver is there already, or being read out; no write failed. -/
structure Circulates (offsets : List Nat) (s : Bench) : Prop where
  once : s.push ≠ .popSuperpage → (s.freeQueue ++ (s.transfer ++ s.ready).map Superpage.offset ++ s.readoutQueue ++
    s.push.offsets ++ s.readout.offsets).Perm offsets
  published : s.push = .popSuperpage → (s.freeQueue ++ (s.transfer ++ s.ready.tail).map Superpage.offset ++
    s.readoutQueue ++ s.readout.offsets).Perm offsets
  handed : ∀ offset, s.push = .pushSuperpage offset →
    offset ∉ (s.transfer ++ s.ready).map Superpage.offset ∧ offset ∉ s.readout.offsets
  writes : s.failedWrites = 0

theorem Inv.circulates (hi : Inv offsets s) (hnd : offsets.Nodup) : Circulates offsets s where
  once hpop := by
    have hperm := hi.perm
    rwa [Bench.places, Bench.driver, if_neg hpop] at hperm
  published hpop := by
    have hperm := hi.perm
    rw [Bench.places, Bench.driver, if_pos hpop, hpop] at hperm
    simpa [PushPc.offsets] using hperm
  handed offset h := by
    have hle := List.nodup_iff_count_le_one.1 (hi.perm.nodup_iff.2 hnd) offset
    have hone : s.push.offsets.count offset = 1 := by simp [h, PushPc.offsets]
    rw [count_places, hone, if_neg (by simp [h])] at hle
    constructor
    · rw [← List.count_eq_zero, ← countBy, countBy_append]
      omega
    · rw [← List.count_eq_zero]
      omega
  writes := hi.writes

/-- **Every superpage stays in circulation**, in every run of the two threads and the driver, exactly when the number
of superpages leaves the queue size below `2^32`. -/
theorem circulates_iff (bufferSize superpageSize pageSize : Nat) (iommu : Bool)
    (h : Admitted bufferSize superpageSize pageSize iommu) :
    let n := maxSuperpages bufferSize superpageSize
    let S : Sizes := ⟨queueSize n, superpageSize, pageSize⟩
    (∃ s₀, dmaLoop bufferSize superpageSize = some s₀ ∧ ∀ as, Legal (step S) Proper s₀ as →
      ∃ s, run (step S) s₀ as = some s ∧ Circulates ((List.range n).map (· * superpageSize)) s) ↔ n + 1 < 2 ^ 32 := by
  intro n S
  obtain ⟨hone, hpos⟩ := one_le_maxSuperpages h
  rw [dmaLoop_eq hone]
  constructor
  · rintro ⟨s₀, hs, -⟩
    by_contra hn
    rw [if_neg hn] at hs
    cases hs
  · intro hn
    refine ⟨_, if_pos hn, fun as hl => ?_⟩
    have hS : S.queueSize = ((List.range n).map (· * superpageSize)).length + 1 := by
      simp [S, queueSize_of_lt hn]
    have hstart : Inv ((List.range n).map (· * superpageSize))
        ⟨(List.range n).map (· * superpageSize), [], [], [], .loop, .loop, 0⟩ :=
      ⟨by simp [Bench.places, Bench.driver, PushPc.offsets, ReadoutPc.offsets], trivial, rfl⟩
    obtain ⟨s, hr, hi⟩ := run_inv (inv_step hS) as _ hstart hl
    exact ⟨s, hr, hi.circulates (nodup_multiples n hpos)⟩

theorem circulates_iff_defaults :
    (∃ s₀, dmaLoop 1073741824 1048576 = some s₀ ∧ ∀ as,
      Legal (step ⟨queueSize 1024, 1048576, 8192⟩) Proper s₀ as →
      ∃ s, run (step ⟨queueSize 1024, 1048576, 8192⟩) s₀ as = some s ∧
        Circulates ((List.range 1024).map (· * 1048576)) s) ↔ 1024 + 1 < 2 ^ 32 :=
  circulates_iff 1073741824 1048576 8192 false (by unfold Admitted; decide +kernel)

/-- **A buffer of `2^32` superpages** of 8 KiB gets queues without a usable slot. -/
theorem too_many_superpages : Admitted (2 ^ 45) 8192 8192 true ∧ ¬ ∃ s₀, dmaLoop (2 ^ 45) 8192 = some s₀ ∧ ∀ as,
    Legal (step ⟨queueSize (maxSuperpages (2 ^ 45) 8192), 8192, 8192⟩) Proper s₀ as →
    ∃ s, run (step ⟨queueSize (maxSuperpages (2 ^ 45) 8192), 8192, 8192⟩) s₀ as = some s ∧
      Circulates ((List.range (maxSuperpages (2 ^ 45) 8192)).map (· * 8192)) s := by
  refine ⟨by unfold Admitted; decide +kernel, ?_⟩
  rintro ⟨s₀, hs, -⟩
  rw [dmaLoop_eq (by decide), if_neg (by decide)] at hs
  cases hs

end DmaBench
end Flp
