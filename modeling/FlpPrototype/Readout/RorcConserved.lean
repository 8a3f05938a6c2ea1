import FlpPrototype.Readout.RorcPages
import Mathlib.Data.List.Nodup
/-!
# RorcConserved — a page is in one place

The places of all pages are the offsets of the handler, rearranged (`Inv`): a step takes a page from one place and puts
it into another.  The FIFO of free pages has room for all of them, so freeing one never fails.  The one step that puts
a page nowhere is a `pushSuperpage` that throws.
-/
namespace Flp
namespace RorcPages

open Readout (CallbackResult)

variable {S : Sizes} {offsets : List Nat} {s s' : Equipment}

/-! ## The handler -/

theorem memorySize_le {vMemorySize baseAddress : Nat} (h : vMemorySize < 2 ^ 31) :
    memorySize vMemorySize baseAddress ≤ 2 ^ 31 := by
  unfold memorySize hugePageSize
  simp only
  split <;> split <;> omega

theorem dvd_memorySize {vMemorySize baseAddress : Nat} (h : 4096 ∣ baseAddress) :
    4096 ∣ memorySize vMemorySize baseAddress := by
  unfold memorySize hugePageSize baseAlignment
  simp only
  split <;> split <;> omega

theorem mapM_eq_map {f : Nat → Option Nat} {g : Nat → Nat} : ∀ {l : List Nat}, (∀ i ∈ l, f i = some (g i)) →
    l.mapM f = some (l.map g)
  | [], _ => rfl
  | i :: l, h => by
    rw [List.mapM_cons, h i List.mem_cons_self, mapM_eq_map fun j hj => h j (List.mem_cons_of_mem i hj)]
    rfl

/-- **The handler has every page of its buffer once.** -/
theorem memoryHandler_eq {vMemorySize pageSize baseAddress : Nat} (hmem : vMemorySize < 2 ^ 31)
    (hbase : 4096 ∣ baseAddress) (hn : 1 ≤ numberOfPages (memorySize vMemorySize baseAddress) pageSize) :
    ∃ n, memoryHandler vMemorySize pageSize baseAddress = some ((List.range n).map (· * pageSize)) ∧
      numberOfPages (memorySize vMemorySize baseAddress) pageSize = n ∧ 0 < pageSize := by
  have hle := @memorySize_le _ baseAddress hmem
  have hdvd := @dvd_memorySize vMemorySize _ hbase
  have hmax : intMax = 2 ^ 31 - 1 := rfl
  generalize hM : memorySize vMemorySize baseAddress = M at hn hle hdvd
  have hpos : 0 < pageSize := by
    rcases Nat.eq_zero_or_pos pageSize with rfl | h
    · simp [numberOfPages, toSigned] at hn
    · exact h
  have hdiv : M / pageSize ≤ M := Nat.div_le_self M pageSize
  have hsmall : M / pageSize < 2 ^ 31 := by
    refine Nat.lt_of_le_of_ne (Nat.le_trans hdiv hle) fun he => ?_
    rw [numberOfPages, he] at hn
    revert hn
    decide
  have hpages : numberOfPages M pageSize = (M / pageSize : Nat) := toSigned_of_lt hsmall
  have hroom : M / pageSize + 1 ≤ intMax := by
    rcases Nat.lt_or_ge pageSize 2 with h1 | h2
    · obtain rfl : pageSize = 1 := by omega
      rw [Nat.div_one] at hsmall ⊢
      omega
    · have : M / pageSize ≤ M / 2 := Nat.div_le_div_left h2 (by decide)
      omega
  refine ⟨M / pageSize, ?_, hpages, hpos⟩
  rw [memoryHandler, hM, hpages, Int.toNat_natCast, intAdd_of_le hroom, Option.bind_eq_bind, Option.bind_some]
  refine mapM_eq_map fun i hi => if_pos ?_
  have hlt : (i + 1) * pageSize ≤ M :=
    Nat.le_trans (Nat.mul_le_mul_right _ (List.mem_range.1 hi)) (Nat.div_mul_le_self M pageSize)
  rw [Nat.succ_mul] at hlt
  omega

/-! ## The invariant -/

/-- What `populateFifoOut` knows between its calls: the room it saw in the output, with `len` containers there now, and
the superpage at the front of the driver's ready queue. -/
def Pc.Knows (outFifoSize len : Nat) (ready : List Superpage) : Pc → Prop
  | .readySize _    => len < outFifoSize
  | .getSuperpage _ => len < outFifoSize ∧ ready ≠ []
  | .construct _ d  => len < outFifoSize ∧ ready.head? = some d
  | .popSuperpage d => len < outFifoSize ∧ ready.head? = some d
  | .pushOut _      => len < outFifoSize
  | _               => True

structure Inv (S : Sizes) (offsets : List Nat) (s : Equipment) : Prop where
  perm : s.places.Perm offsets
  knows : s.pc.Knows S.outFifoSize s.dataOut.length s.ready

theorem inv_start (S : Sizes) (offsets : List Nat) : Inv S offsets (.start offsets) where
  perm := by simp [Equipment.places, Equipment.start, Pc.page]
  knows := trivial

theorem Pc.Knows.mono {p : Pc} {n len len' : Nat} {ready : List Superpage} (h : p.Knows n len ready) (hl : len' ≤ len)
    (more : List Superpage) : p.Knows n len' (ready ++ more) := by
  cases p with
  | readySize _ => exact Nat.lt_of_le_of_lt hl h
  | getSuperpage _ => exact ⟨Nat.lt_of_le_of_lt hl h.1, List.append_ne_nil_of_left_ne_nil h.2 more⟩
  | construct _ d => exact ⟨Nat.lt_of_le_of_lt hl h.1, by rw [List.head?_append, h.2]; rfl⟩
  | popSuperpage d => exact ⟨Nat.lt_of_le_of_lt hl h.1, by rw [List.head?_append, h.2]; rfl⟩
  | pushOut d => exact Nat.lt_of_le_of_lt hl h
  | _ => trivial

/-- The FIFO of free pages has room for every page that is elsewhere. -/
theorem Inv.available_lt (hi : Inv S offsets s) (hS : offsets.length = S.nPages) {d : Superpage}
    (hd : d ∈ s.held ++ s.pc.page) : s.pagesAvailable.length < S.nPages := by
  have hlen := hi.perm.length_eq
  have hpos := List.length_pos_of_mem hd
  simp only [Equipment.places, List.length_append, List.length_map] at hlen hpos
  omega

theorem Inv.moves (hi : Inv S offsets s) {p : Pc} {r : CallbackResult} (hp : p.page = s.pc.page)
    (hk : p.Knows S.outFifoSize s.dataOut.length s.ready) : Inv S offsets { s with pc := p, result := r } where
  perm := perm_of_count hi.perm fun o => by rw [count_places, count_places, hp]
  knows := hk

/-- **A container is destroyed**: its page is available again. -/
theorem Inv.destroy_eq (hi : Inv S offsets s) (hS : offsets.length = S.nPages) {k : Nat} {d : Superpage}
    (hd : s.held[k]? = some d) : ({ s with held := s.held.eraseIdx k } : Equipment).release S d =
      { s with held := s.held.eraseIdx k, pagesAvailable := s.pagesAvailable ++ [d.offset] } :=
  if_pos (hi.available_lt hS (List.mem_append_left _ (List.mem_of_getElem? hd)))

/-- **Every step of `populateFifoOut`** has a result and keeps the pages. -/
theorem inv_stepPopulate (env : Env) (hi : Inv S offsets s) (hpc : s.pc ≠ .idle) :
    ∃ s', stepPopulate S s env = some s' ∧ Inv S offsets s' := by
  have hk := hi.knows
  have hp : ∀ {p q : Pc}, s.pc = p → q.page = p.page → q.page = s.pc.page := fun h hq => hq.trans (by rw [h])
  unfold stepPopulate
  cases h : s.pc with
  | idle => exact absurd h hpc
  | fillSuperpages => exact ⟨_, rfl, hi.moves (hp h rfl) trivial⟩
  | transferAvailable isActive =>
    by_cases ha : env.transferQueueAvailable ≠ 0
    · exact ⟨_, if_pos ha, hi.moves (hp h rfl) trivial⟩
    · exact ⟨_, if_neg ha, hi.moves (hp h rfl) trivial⟩
  | popPage isActive =>
    cases havail : s.pagesAvailable with
    | nil => exact ⟨_, rfl, hi.moves (hp h rfl) trivial⟩
    | cons offset rest =>
      refine ⟨_, rfl, perm_of_count hi.perm fun o => ?_, trivial⟩
      rw [count_places, count_places, h, havail, ← List.singleton_append (l := rest), List.count_append]
      simp only [Pc.page, countBy, List.map_cons, List.map_nil, List.count_nil]
      omega
  | pushSuperpage isActive sp =>
    by_cases hthrow : env.pushThrows = true
    · refine ⟨_, if_pos hthrow, perm_of_count hi.perm fun o => ?_, trivial⟩
      rw [count_places, count_places, h, List.count_append]
      simp only [Pc.page, countBy, List.map_cons, List.map_nil, List.count_nil]
      omega
    · refine ⟨_, if_neg hthrow, perm_of_count hi.perm fun o => ?_, trivial⟩
      rw [count_places, count_places, h, countBy_append]
      simp only [Pc.page, countBy_nil]
      omega
  | outFull isActive =>
    by_cases hr : s.dataOut.length < S.outFifoSize
    · exact ⟨_, if_pos hr, hi.moves (hp h rfl) hr⟩
    · exact ⟨_, if_neg hr, hi.moves (hp h rfl) trivial⟩
  | readySize isActive =>
    rw [h] at hk
    by_cases hr : s.ready.length > 0
    · exact ⟨_, if_pos hr, hi.moves (hp h rfl) ⟨hk, List.ne_nil_of_length_pos hr⟩⟩
    · exact ⟨_, if_neg hr, hi.moves (hp h rfl) trivial⟩
  | getSuperpage isActive =>
    rw [h] at hk
    obtain ⟨sp, hsp⟩ : ∃ sp, s.ready.head? = some sp := ⟨_, List.head?_eq_some_head hk.2⟩
    refine ⟨_, Option.map_eq_some_iff.2 ⟨sp, hsp, rfl⟩, ?_⟩
    by_cases hf : sp.isFilled = true
    · rw [if_pos hf]
      exact hi.moves (hp h rfl) ⟨hk.1, hsp⟩
    · rw [if_neg hf]
      exact hi.moves (hp h rfl) trivial
  | construct isActive sp =>
    rw [h] at hk
    by_cases ha : env.allocated = true
    · exact ⟨_, if_pos ha, hi.moves (hp h rfl) hk⟩
    · exact ⟨_, if_neg ha, hi.moves (hp h rfl) trivial⟩
  | popSuperpage d =>
    rw [h] at hk
    refine ⟨_, rfl, perm_of_count hi.perm fun o => ?_, hk.1⟩
    have := countBy_tail Superpage.offset o hk.2
    rw [count_places, count_places, h]
    simp only [Pc.page, countBy_nil]
    omega
  | pushOut d =>
    rw [h] at hk
    refine ⟨_, if_pos hk, perm_of_count hi.perm fun o => ?_, trivial⟩
    rw [count_places, count_places, h, countBy_append]
    simp only [Pc.page, countBy_nil]
    omega

theorem inv_step (hS : offsets.length = S.nPages) (s : Equipment) (a : Action) (hi : Inv S offsets s)
    (hok : Proper s a) : ∃ s', step S s a = some s' ∧ Inv S offsets s' := by
  cases a with
  | populateFifoOut => exact ⟨_, rfl, hi.moves (by rw [hok]; rfl) trivial⟩
  | step env => exact inv_stepPopulate env hi hok
  | drive k received =>
    have hget : s.transfer[k]? = some s.transfer[k] := List.getElem?_eq_getElem hok
    refine ⟨_, Option.map_eq_some_iff.2 ⟨_, hget, rfl⟩, perm_of_count hi.perm fun o => ?_,
      hi.knows.mono (Nat.le_refl _) _⟩
    have := countBy_eraseIdx Superpage.offset o hget
    have hsame : countBy Superpage.offset o [{ s.transfer[k] with received := received }] =
        countBy Superpage.offset o [s.transfer[k]] := rfl
    rw [count_places, count_places, countBy_append, hsame]
    simp only
    omega
  | consume =>
    rw [step]
    cases ho : s.dataOut with
    | nil => exact ⟨s, rfl, hi⟩
    | cons d rest =>
      have hk := hi.knows
      rw [ho] at hk
      refine ⟨_, rfl, perm_of_count hi.perm fun o => ?_, ?_⟩
      · rw [count_places, count_places, ho, countBy_append, countBy_cons _ _ d rest]
        simp only
        omega
      · simpa using hk.mono (Nat.le_succ _) []
  | destroy k =>
    have hget : s.held[k]? = some s.held[k] := List.getElem?_eq_getElem hok
    refine ⟨_, Option.map_eq_some_iff.2 ⟨_, hget, hi.destroy_eq hS hget⟩, perm_of_count hi.perm fun o => ?_, hi.knows⟩
    have := countBy_eraseIdx Superpage.offset o hget
    have hone : countBy Superpage.offset o [s.held[k]] = [s.held[k].offset].count o := rfl
    rw [count_places, count_places, List.count_append]
    simp only
    omega

/-! ## Pages that are lost -/

/-- **A page is lost** by a `pushSuperpage` that throws, and by nothing else. -/
theorem lost_step (hS : offsets.length = S.nPages) {a : Action} (hi : Inv S offsets s) (hok : Proper s a)
    (h : step S s a = some s') :
    (Throws s a → s'.lost ≠ [] ∧ s'.pc = .idle) ∧ (¬ Throws s a → s'.lost = s.lost) := by
  cases a with
  | populateFifoOut =>
    cases h
    exact ⟨False.elim, fun _ => rfl⟩
  | drive k received =>
    obtain ⟨d, -, rfl⟩ := Option.map_eq_some_iff.1 h
    exact ⟨False.elim, fun _ => rfl⟩
  | consume =>
    rw [step] at h
    cases ho : s.dataOut <;> rw [ho] at h <;> cases h <;> exact ⟨False.elim, fun _ => rfl⟩
  | destroy k =>
    obtain ⟨d, hd, rfl⟩ := Option.map_eq_some_iff.1 h
    rw [hi.destroy_eq hS hd]
    exact ⟨False.elim, fun _ => rfl⟩
  | step env =>
    have hk := hi.knows
    have hquiet : s'.lost = s.lost → (∀ isActive sp, s.pc ≠ .pushSuperpage isActive sp) →
        (Throws s (.step env) → s'.lost ≠ [] ∧ s'.pc = .idle) ∧ (¬ Throws s (.step env) → s'.lost = s.lost) := by
      refine fun hl hpc => ⟨?_, fun _ => hl⟩
      rintro ⟨-, isActive, sp, hsp⟩
      exact absurd hsp (hpc isActive sp)
    rw [step, stepPopulate] at h
    cases hpc : s.pc with
    | pushSuperpage isActive sp =>
      simp only [hpc] at h
      by_cases hthrow : env.pushThrows = true
      · rw [if_pos hthrow] at h
        cases h
        exact ⟨fun _ => ⟨by simp, rfl⟩, fun hn => absurd ⟨hthrow, isActive, sp, hpc⟩ hn⟩
      · rw [if_neg hthrow] at h
        cases h
        exact ⟨fun ht => absurd ht.1 hthrow, fun _ => rfl⟩
    | idle => exact absurd hpc hok
    | popPage isActive =>
      simp only [hpc] at h
      refine hquiet ?_ (by simp [hpc])
      split at h <;> cases h <;> rfl
    | getSuperpage isActive =>
      simp only [hpc] at h
      refine hquiet ?_ (by simp [hpc])
      obtain ⟨sp, -, rfl⟩ := Option.map_eq_some_iff.1 h
      split <;> rfl
    | pushOut d =>
      rw [hpc] at hk
      have hroom : s.dataOut.length < S.outFifoSize := hk
      simp only [hpc] at h
      rw [if_pos hroom] at h
      cases h
      exact hquiet rfl (by simp [hpc])
    | fillSuperpages =>
      simp only [hpc] at h
      cases h
      exact hquiet rfl (by simp [hpc])
    | popSuperpage d =>
      simp only [hpc] at h
      cases h
      exact hquiet rfl (by simp [hpc])
    | _ =>
      simp only [hpc] at h
      refine hquiet ?_ (by simp [hpc])
      split at h <;> cases h <;> rfl

/-- Every page is in one place: the FIFO of free pages, the driver, or a container. -/
def OnePlace (offsets : List Nat) (s : Equipment) : Prop :=
  (s.pagesAvailable ++ (s.transfer ++ s.ready ++ (s.dataOut ++ s.held)).map Superpage.offset).Perm offsets

theorem Inv.nothing_lost_iff (hi : Inv S offsets s) (hidle : s.pc = .idle) : OnePlace offsets s ↔ s.lost = [] := by
  have hperm := hi.perm
  have hpage : s.pc.page = [] := by
    rw [hidle]
    rfl
  rw [Equipment.places, hpage, List.append_nil, List.append_assoc (s.transfer ++ s.ready)] at hperm
  constructor
  · intro h
    have := (h.trans hperm.symm).length_eq
    rw [List.length_append] at this
    exact List.length_eq_zero_iff.1 (by simpa using this)
  · intro h
    rwa [h, List.append_nil] at hperm

/-- At every boundary of a run nothing is lost exactly when nothing threw. -/
theorem lost_iff (hS : offsets.length = S.nPages) : ∀ (as : List Action) (s : Equipment), Inv S offsets s →
    s.lost = [] → Legal (step S) Proper s as →
    ((∀ pre s', pre <+: as → run (step S) s pre = some s' → s'.pc = .idle → s'.lost = []) ↔
      Legal (step S) (fun s a => ¬ Throws s a) s as)
  | [], s, _, h0, _ => by
    refine ⟨fun _ => trivial, fun _ pre s' hpre hr _ => ?_⟩
    rw [List.prefix_nil.1 hpre] at hr
    rwa [← Option.some.inj hr]
  | a :: as, s, hi, h0, hl => by
    obtain ⟨s₁, h₁, hi₁⟩ := inv_step hS s a hi hl.1
    obtain ⟨hthrow, hquiet⟩ := lost_step hS hi hl.1 h₁
    by_cases ht : Throws s a
    · refine iff_of_false (fun h => ?_) fun h => h.1 ht
      exact (hthrow ht).1 (h [a] s₁ (List.prefix_append [a] as) (by rw [run_cons h₁]; rfl) (hthrow ht).2)
    · have ih := lost_iff hS as s₁ hi₁ ((hquiet ht).trans h0) (hl.2 s₁ h₁)
      constructor
      · refine fun h => ⟨ht, fun s₂ h₂ => ?_⟩
        rw [← Option.some.inj (h₁.symm.trans h₂)]
        exact ih.1 fun pre s' hpre hr hidle =>
          h (a :: pre) s' (List.cons_prefix_cons.2 ⟨rfl, hpre⟩) (by rw [run_cons h₁]; exact hr) hidle
      · intro h pre s' hpre hr hidle
        cases pre with
        | nil => rwa [← Option.some.inj hr]
        | cons b pre =>
          obtain ⟨rfl, hpre'⟩ := List.cons_prefix_cons.1 hpre
          rw [run_cons h₁] at hr
          exact ih.2 (h.2 s₁ h₁) pre s' hpre' hr hidle

/-- **No page of a consumer is given to the driver.** -/
theorem Inv.pushed_apart (hi : Inv S offsets s) (hnd : offsets.Nodup) {isActive : Bool} {sp : Superpage}
    (h : s.pc = .pushSuperpage isActive sp) :
    sp.offset ∉ (s.transfer ++ s.ready ++ s.dataOut ++ s.held).map Superpage.offset := by
  intro hmem
  have hle := List.nodup_iff_count_le_one.1 (hi.perm.nodup_iff.2 hnd) sp.offset
  have hpos := List.count_pos_iff.2 hmem
  rw [Equipment.places, h, Pc.page, List.map_append, List.map_cons, List.map_nil, List.count_append, List.count_append,
    List.count_append, List.count_singleton_self] at hle
  omega

/-- The sizes of an equipment whose handler got `vMemorySize` bytes at `baseAddress`. -/
def sizesOf (vMemorySize pageSize baseAddress outFifoSize : Nat) : Sizes :=
  ⟨(numberOfPages (memorySize vMemorySize baseAddress) pageSize).toNat, pageSize, outFifoSize⟩

/-- **Every page is in one place at every boundary** of a run exactly when no `pushSuperpage` of the run throws; and no
page that the driver or a consumer has is given to the driver. -/
theorem onePlace_iff (vMemorySize pageSize baseAddress outFifoSize : Nat) (hmem : vMemorySize < 2 ^ 31)
    (hbase : 4096 ∣ baseAddress) (hn : 1 ≤ numberOfPages (memorySize vMemorySize baseAddress) pageSize) :
    let S := sizesOf vMemorySize pageSize baseAddress outFifoSize
    ∃ offsets, memoryHandler vMemorySize pageSize baseAddress = some offsets ∧ offsets.Nodup ∧
      ∀ as, Legal (step S) Proper (.start offsets) as →
        (∃ s, run (step S) (.start offsets) as = some s ∧ ∀ isActive sp, s.pc = .pushSuperpage isActive sp →
          sp.offset ∉ (s.transfer ++ s.ready ++ s.dataOut ++ s.held).map Superpage.offset) ∧
        ((∀ pre s, pre <+: as → run (step S) (.start offsets) pre = some s → s.pc = .idle → OnePlace offsets s) ↔
          Legal (step S) (fun s a => ¬ Throws s a) (.start offsets) as) := by
  intro S
  obtain ⟨n, hoff, hpages, hpos⟩ := memoryHandler_eq hmem hbase hn
  have hS : ((List.range n).map (· * pageSize)).length = S.nPages := by
    simp [S, sizesOf, hpages]
  have hnd := nodup_multiples n hpos
  refine ⟨_, hoff, hnd, fun as hl => ⟨?_, ?_⟩⟩
  · obtain ⟨s, hr, hi⟩ := run_inv (inv_step hS) as _ (inv_start S _) hl
    exact ⟨s, hr, fun _ _ => hi.pushed_apart hnd⟩
  · rw [← lost_iff hS as _ (inv_start S _) rfl hl]
    have hinv : ∀ pre s, pre <+: as → run (step S) (.start ((List.range n).map (· * pageSize))) pre = some s →
        Inv S ((List.range n).map (· * pageSize)) s := by
      rintro pre s ⟨post, rfl⟩ hr
      obtain ⟨s', hr', hi⟩ := run_inv (inv_step hS) pre _ (inv_start S _) (Legal.append.1 hl).1
      rwa [← Option.some.inj (hr.symm.trans hr')] at hi
    constructor
    · exact fun h pre s hpre hr hidle => ((hinv pre s hpre hr).nothing_lost_iff hidle).1 (h pre s hpre hr hidle)
    · exact fun h pre s hpre hr hidle => ((hinv pre s hpre hr).nothing_lost_iff hidle).2 (h pre s hpre hr hidle)

/-! ## Two pages -/

/-- An answer of the surroundings: the driver has room, nothing fails. -/
def Env.quiet : Env := ⟨1, false, true⟩

/-- Both pages go to the driver; the first comes back filled, becomes a container and is freed. -/
def roundRun : List Action :=
  .populateFifoOut :: List.replicate 7 (.step .quiet) ++ [.drive 0 2097152] ++ List.replicate 10 (.step .quiet) ++
    [.consume, .destroy 0]

theorem onePlace_iff_roundRun :
    let S := sizesOf 4194304 2097152 0 2
    (∃ s, run (step S) (.start [0, 2097152]) roundRun = some s ∧ ∀ isActive sp, s.pc = .pushSuperpage isActive sp →
      sp.offset ∉ (s.transfer ++ s.ready ++ s.dataOut ++ s.held).map Superpage.offset) ∧
    ((∀ pre s, pre <+: roundRun → run (step S) (.start [0, 2097152]) pre = some s → s.pc = .idle →
        OnePlace [0, 2097152] s) ↔
      Legal (step S) (fun s a => ¬ Throws s a) (.start [0, 2097152]) roundRun) := by
  obtain ⟨offsets, ho, -, h⟩ := onePlace_iff 4194304 2097152 0 2 (by decide) (by decide) (by decide +kernel)
  have hoffsets : memoryHandler 4194304 2097152 0 = some [0, 2097152] := by decide +kernel
  obtain rfl := Option.some.inj (ho.symm.trans hoffsets)
  exact h roundRun (by decide +kernel)

/-- The first `pushSuperpage` throws. -/
def throwingRun : List Action :=
  .populateFifoOut :: List.replicate 3 (.step .quiet) ++ [.step ⟨1, true, true⟩]

/-- **A page is lost** when `pushSuperpage` throws: it was popped from the free pages. -/
theorem throwing_loses : ¬ ∀ as, Legal (step (sizesOf 4194304 2097152 0 2)) Proper (.start [0, 2097152]) as →
    ∀ pre s, pre <+: as → run (step (sizesOf 4194304 2097152 0 2)) (.start [0, 2097152]) pre = some s → s.pc = .idle →
      OnePlace [0, 2097152] s := by
  intro h
  have hrun : (run (step (sizesOf 4194304 2097152 0 2)) (.start [0, 2097152]) throwingRun).map
      (fun s => (s.pc, s.pagesAvailable, s.transfer ++ s.ready ++ (s.dataOut ++ s.held))) =
        some (.idle, [2097152], []) := by decide +kernel
  obtain ⟨s, hs, heq⟩ := Option.map_eq_some_iff.1 hrun
  simp only [Prod.mk.injEq] at heq
  have hone := h throwingRun (by decide +kernel) throwingRun s (List.prefix_refl _) hs heq.1
  rw [OnePlace, heq.2.1, heq.2.2] at hone
  exact absurd hone.length_eq (by decide)

end RorcPages
end Flp
