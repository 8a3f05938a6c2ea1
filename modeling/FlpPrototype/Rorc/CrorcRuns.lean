import FlpPrototype.Lib.Run
import FlpPrototype.Rorc.CrorcSteps
/-!
# CrorcRuns — the C-RORC's channel over whole runs

From `deviceStartDma` on: superpages are pushed, the first filling starts the DMA with the initial pages, later ones
push and take arrivals, and filled superpages are popped.  As long as the number of pages of every superpage fits an
`int` the accounts of the channel are right in every state of every run (`channel_runs`).
-/
namespace Flp
namespace Rorc

open SuperpageQueue (Represents)

variable {cfg : Config} {s : Channel} {first c : Nat} {filled done pushing later : List (Flight cfg.pageSize)}

/-! ## The pending start -/

/-- The channel before the DMA is started: superpages wait, and no page has been pushed. -/
structure Waiting (cfg : Config) (s : Channel) (first : Nat) (pushing : List (Flight cfg.pageSize)) : Prop where
  core : Core cfg s first [] [] pushing
  untouched : ∀ f ∈ pushing, f.pushed = 0
  back : s.mFifoBack = 0
  pending : s.mPendingDmaStart = true

theorem Waiting.fifoSize (h : Waiting cfg s first pushing) : s.mFifoSize = 0 := by
  rw [h.core.fifoSize, List.nil_append, pagesInFlight_untouched _ h.untouched]
  rfl

theorem registry_front {f : Flight cfg.pageSize} {rest : List (Flight cfg.pageSize)}
    (h : Core cfg s first filled done pushing) (hsplit : done ++ pushing = f :: rest) :
    s.mSuperpageQueue.mRegistry ((first + filled.length) % MAX_SUPERPAGES) = f.entry := by
  have hqueue := h.lists.queue
  rw [hsplit, List.map_cons] at hqueue
  have := hqueue.entries (filled.map Flight.entry).length f.entry (by simp)
  rwa [List.length_map] at this

/-- The initial pages: the card has all of them to do. -/
theorem initialPages_spec {f : Flight cfg.pageSize} (h : Waiting cfg s first (f :: later))
    (henough : READYFIFO_ENTRIES ≤ f.pages) :
    ∃ s₁, ∃ hf : f.pushed + READYFIFO_ENTRIES ≤ f.pages,
      Channel.pushInitialPages cfg (first % MAX_SUPERPAGES) 0 READYFIFO_ENTRIES { s with freeFifo := [] } = .ok s₁ ∧
      Core cfg s₁ first [] [] (f.push READYFIFO_ENTRIES hf :: later) ∧ Completed s₁ 0 ∧
      s₁.mFifoSize = READYFIFO_ENTRIES ∧ s₁.mFifoBack = 0 := by
  have hzero := h.untouched f List.mem_cons_self
  have hsize := h.fifoSize
  have hf : f.pushed + READYFIFO_ENTRIES ≤ f.pages := by omega
  obtain ⟨s₁, h₁, hcore, hp, hr⟩ := pushInitialPages_spec READYFIFO_ENTRIES 0 (h.core.card s.readyFifo []) hf
    (by show s.mFifoSize + _ ≤ _; omega)
  have hsize₁ : s₁.mFifoSize = READYFIFO_ENTRIES := by rw [hp.size]; show s.mFifoSize + _ = _; omega
  have hback₁ : s₁.mFifoBack = 0 := hp.back.trans h.back
  have htodo := hp.todo
  simp only [List.nil_append, hsize, h.back] at htodo
  refine ⟨s₁, hf, h₁, hcore, ⟨Nat.zero_le _, ?_, fun j hj => absurd hj (Nat.not_lt_zero j), fun j _ hj => .inl ?_⟩,
    hsize₁, hback₁⟩
  · rw [htodo, hsize₁, hback₁]
    rfl
  · rw [hr, if_pos ⟨Nat.zero_le _, by rw [Nat.zero_add]; exact Nat.mod_lt _ (by decide)⟩]
    rfl

/-- No exception stops the start: the commands it sends are carried out, and the data generator, if it is used, takes
its data size. -/
structure CardStart.Succeeds (cfg : Config) (atStart : CardStart) : Prop where
  ready : atStart.ready = true
  trigger : cfg.generator.generatorEnabled = true → cfg.generator.generatorLoopback = .none → atStart.trigger = true
  dataSize : cfg.generator.generatorEnabled = true →
    4 ≤ toSigned 32 cfg.mGeneratorDataSize ∧ toSigned 32 cfg.mGeneratorDataSize < 2 ^ 21
  siuLoopback : cfg.generator.generatorEnabled = true → cfg.generator.generatorLoopback = .siu →
    atStart.siuLoopback = true

theorem armDataGenerator_ok {dataSize : Int} (hle : 4 ≤ dataSize) (hlt : dataSize < 2 ^ 21) :
    Channel.armDataGenerator dataSize = .ok () := by
  rw [Channel.armDataGenerator, Int.tdiv_eq_ediv_of_nonneg (by omega), if_neg (by omega)]

theorem startGenerator_ok {atStart : CardStart} (h : atStart.Succeeds cfg) :
    Channel.startGenerator cfg atStart = .ok () := by
  rw [Channel.startGenerator]
  by_cases henabled : cfg.generator.generatorEnabled = true
  · have harm := armDataGenerator_ok (h.dataSize henabled).1 (h.dataSize henabled).2
    rw [if_pos henabled, Channel.startDataGenerator, harm]
    cases hloopback : cfg.generator.generatorLoopback with
    | none =>
      rw [h.trigger henabled hloopback]
      rfl
    | siu =>
      rw [h.siuLoopback henabled hloopback]
      rfl
    | diu => rfl
    | internal => rfl
  · rw [if_neg henabled]

/-- When all pages in flight are credited to the only superpage that has some, the ring may be reset. -/
theorem Core.creditAll {f : Flight cfg.pageSize} {n : Nat} (h : Core cfg s first [] done pushing)
    (hsplit : done ++ pushing = f :: later) (hopen : ∀ g ∈ pushing, g.pushed < g.pages)
    (hlt : f.arrived + n ≤ f.pushed) (hall : f.pushed = f.arrived + n) (hlater : ∀ g ∈ later, g.pushed = 0) :
    ∃ q' filled' done' pushing', s.receive (first % MAX_SUPERPAGES) f.entry (n * cfg.pageSize) =
        .ok { s with mSuperpageQueue := q' } ∧
      Core cfg { s with
        mSuperpageQueue := q', readyFifo := fun _ => .reset, mFifoBack := 0, mFifoSize := 0, mPendingDmaStart := false }
        first filled' done' pushing' ∧
      (∀ g ∈ pushing', g.pushed < g.pages) ∧ filled' ++ (done' ++ pushing') = f.arrive n hlt :: later := by
  obtain ⟨q', filled', done', pushing', hcredit, hlists', hopen', hsame, hpages⟩ :=
    receive_spec h.lists hsplit hopen hlt
  rw [List.length_nil, Nat.add_zero] at hcredit
  have hnone : pagesInFlight (first + filled'.length) (done' ++ pushing') = [] := by
    rw [hpages, pagesInFlight, Flight.inFlight_eq_nil _ _ hall, List.nil_append, pagesInFlight_untouched _ hlater]
  refine ⟨q', filled', done', pushing', hcredit,
    ⟨hlists', ?_, Nat.zero_le _, Nat.zero_lt_succ _, fun j p hp => ?_, h.credited⟩, hopen', hsame⟩
  · rw [hnone]
    rfl
  · rw [hnone] at hp
    cases hp

/-- **The pending start**, all the initial pages arriving: they are credited to the superpage they were pushed for, and
the ring is empty again. -/
theorem startPendingDma_spec {f : Flight cfg.pageSize} (h : Waiting cfg s first (f :: later))
    (henough : READYFIFO_ENTRIES ≤ f.pages) {atStart : CardStart} (hsucceeds : atStart.Succeeds cfg)
    (hcard : READYFIFO_ENTRIES ≤ (atStart.writes.filter CardWrite.isWhole).length)
    (harrivals : Arrivals atStart.writes) :
    ∃ s' filled' done' pushing', s.startPendingDma cfg (first % MAX_SUPERPAGES) atStart = .ok s' ∧
      Running cfg s' first filled' done' pushing' 0 ∧ keys filled' done' pushing' = keys [] [] (f :: later) := by
  obtain ⟨s₁, hf, h₁, hcore₁, hcomp₁, hsize₁, hback₁⟩ := initialPages_spec h henough
  have hzero := h.untouched f List.mem_cons_self
  have hlater : ∀ g ∈ later, g.pushed = 0 := fun g hg => h.untouched g (List.mem_cons_of_mem _ hg)
  obtain ⟨q, done, pushing, hremove, hcore₂, hsplit, hopen⟩ := removePushed_spec hcore₁ (fun g hg => by
    have := hlater g hg
    have := g.pos
    omega)
  have hcomp₂ : Completed { s₁ with mSuperpageQueue := q } 0 := ⟨hcomp₁.le, hcomp₁.todo, hcomp₁.whole, hcomp₁.idle⟩
  -- the card completes all of them
  obtain ⟨s₃, hs₃⟩ : ∃ s₃, s₃ = ({ s₁ with mSuperpageQueue := q } : Channel).cardWrites atStart.writes := ⟨_, rfl⟩
  obtain ⟨r, free, hwrites⟩ := cardWrites_eq atStart.writes { s₁ with mSuperpageQueue := q }
  have hcore₃ : Core cfg s₃ first [] done pushing := by
    rw [hs₃, hwrites]
    exact hcore₂.card r free
  have hback₃ : s₃.mFifoBack = 0 := by
    rw [hs₃, hwrites]
    exact hback₁
  have hsize₃ : s₃.mFifoSize = READYFIFO_ENTRIES := by
    rw [hs₃, hwrites]
    exact hsize₁
  have hcomp₃ : Completed s₃ READYFIFO_ENTRIES := by
    have := cardWrites_completed atStart.writes hcomp₂ hcore₂.fifoSize_le harrivals
    rwa [← hs₃, show min s₁.mFifoSize (0 + (atStart.writes.filter CardWrite.isWhole).length) = READYFIFO_ENTRIES by
      omega] at this
  obtain ⟨w, hw⟩ := hcomp₃.whole (READYFIFO_ENTRIES - 1) (by decide)
  rw [hback₃] at hw
  have harrived : s₃.dataArrived (READYFIFO_ENTRIES - 1) = .ok .wholeArrived := dataArrived_whole hw
  have hreg := registry_front hcore₃ hsplit
  -- they are credited at once
  have hall : (f.push READYFIFO_ENTRIES hf).pushed = f.arrived + READYFIFO_ENTRIES := by
    have := f.arrived_le
    show f.pushed + _ = _
    omega
  obtain ⟨q', filled', done', pushing', hcredit, hcore', hopen', hsame⟩ :=
    hcore₃.creditAll hsplit hopen (Nat.le_of_eq hall.symm) hall hlater
  have hkeys : keys filled' done' pushing' = keys [] done pushing := keys_arrive hsplit hsame
  refine ⟨{ s₃ with
      mSuperpageQueue := q', readyFifo := fun _ => .reset, mFifoBack := 0, mFifoSize := 0, mPendingDmaStart := false },
    filled', done', pushing', ?_, ⟨hcore', hopen', ?_, rfl⟩, ?_⟩
  · have hreg₁ : s₁.mSuperpageQueue.mRegistry (first % MAX_SUPERPAGES) = (f.push READYFIFO_ENTRIES hf).entry :=
      registry_pushing hcore₁
    have hle : ¬ (f.push READYFIFO_ENTRIES hf).entry.maxPages < (f.push READYFIFO_ENTRIES hf).entry.pushedPages :=
      Int.not_lt.2 (Int.ofNat_le.2 hf)
    have hid : pushingId first ([] : List (Flight cfg.pageSize)) [] = first % MAX_SUPERPAGES := rfl
    rw [hid] at hremove
    rw [List.length_nil, Nat.add_zero] at hreg
    simp only [Channel.startPendingDma, hsucceeds.ready, Channel.command, h₁, bind, Except.bind, hreg₁, if_neg hle,
      hremove, startGenerator_ok hsucceeds, if_true, ← hs₃, harrived, hreg, hcredit]
  · refine ⟨Nat.le_refl 0, ?_, fun j hj => absurd hj (Nat.not_lt_zero j), fun j _ _ => .inl rfl⟩
    show s₃.freeFifo = []
    rw [hcomp₃.todo, hsize₃, Nat.sub_self]
    rfl
  · rw [hkeys, keys, keys, hsplit]
    simp [Flight.key, Superpage.key, Flight.push]

/-! ## Superpages in and out -/

/-- The superpages `pushSuperpage` does not throw at. -/
structure Accepts (cfg : Config) (s : Channel) (superpage : Superpage) : Prop where
  checked : Channel.checkSuperpage cfg superpage = .ok ()
  whole : Channel.isMultiple superpage.size (1 * 1024 * 1024) = true
  address : (getBusOffsetAddress cfg.scatterGatherList superpage.offset).isSome = true
  room : s.mSuperpageQueue.isFull MAX_SUPERPAGES = false

/-- The exceptions `pushSuperpage` is documented by: of its checks, and of a full queue. -/
def Refused (r : Except Failure Channel) : Prop := r = .error (.queue .full) ∨ ∃ why, r = .error (.rejected why)

/-- A superpage of whole pages of which nothing has been pushed. -/
def newFlight (P : Nat) (superpage : Superpage) (busAddress pages : Nat) (hsize : superpage.size = pages * P)
    (hsmall : superpage.size < 2 ^ 64) (hpos : 0 < pages) (hP : 0 < P) : Flight P where
  superpage := superpage
  busAddress := busAddress
  pushed := 0
  arrived := 0
  pages := pages
  size_eq := hsize
  small := hsmall
  pos := hpos
  page_pos := hP
  arrived_le := Nat.le_refl 0
  pushed_le := Nat.zero_le pages

theorem not_full (h : Core cfg s first filled done pushing) (hroom : s.mSuperpageQueue.isFull MAX_SUPERPAGES = false) :
    (filled.map Flight.entry).length + ((done ++ pushing).map Flight.entry).length < MAX_SUPERPAGES := by
  have hfits := h.lists.queue.fits
  have hne := of_decide_eq_false hroom
  rw [h.lists.queue.count] at hne
  omega

theorem full_of (h : Core cfg s first filled done pushing) (hroom : s.mSuperpageQueue.isFull MAX_SUPERPAGES = true) :
    (filled.map Flight.entry).length + ((done ++ pushing).map Flight.entry).length = MAX_SUPERPAGES := by
  have heq := of_decide_eq_true hroom
  rwa [h.lists.queue.count] at heq

theorem pages_of_whole {size : Nat} (h : Channel.isMultiple size (1 * 1024 * 1024) = true) :
    size = size / 8192 * 8192 ∧ READYFIFO_ENTRIES ≤ size / 8192 := by
  obtain ⟨hle, hmod⟩ := of_decide_eq_true h
  show _ ∧ 128 ≤ _
  omega

theorem checkSuperpage_cases (cfg : Config) (superpage : Superpage) :
    Channel.checkSuperpage cfg superpage = .ok () ∨
      ∃ why, Channel.checkSuperpage cfg superpage = .error (.rejected why) := by
  unfold Channel.checkSuperpage
  split_ifs
  · exact .inr ⟨_, rfl⟩
  · exact .inr ⟨_, rfl⟩
  · exact .inr ⟨_, rfl⟩
  · exact .inr ⟨_, rfl⟩
  · exact .inl rfl

/-- A superpage of whole pages, the number of which fits an `int`. -/
structure Whole (P : Nat) (superpage : Superpage) : Prop where
  pages : P ∣ superpage.size
  fits : superpage.size / P < 2 ^ 31
  small : superpage.size < 2 ^ 64

theorem Whole.pageSize_pos {superpage : Superpage} (h : Whole P superpage) (hsize : 0 < superpage.size) : 0 < P := by
  refine Nat.pos_of_ne_zero fun hzero => ?_
  have hdvd := h.pages
  rw [hzero] at hdvd
  exact absurd (Nat.eq_zero_of_zero_dvd hdvd) (Nat.ne_of_gt hsize)

/-- There are no superpages of pages of size 0, so the size is not divided by 0. -/
theorem pageSize_pos (h : Core cfg s first filled done pushing) {superpage : Superpage} (hsize : 0 < superpage.size)
    (hok : s.mSuperpageQueue.isFull MAX_SUPERPAGES = false → Whole cfg.pageSize superpage) : 0 < cfg.pageSize := by
  cases hroom : s.mSuperpageQueue.isFull MAX_SUPERPAGES with
  | false => exact (hok hroom).pageSize_pos hsize
  | true =>
    have hlen := full_of h hroom
    cases hall : filled ++ (done ++ pushing) with
    | nil =>
      obtain ⟨rfl, hnil⟩ := List.append_eq_nil_iff.1 hall
      rw [hnil] at hlen
      cases hlen
    | cons f rest => exact f.page_pos

/-- A superpage of which nothing has been pushed is added behind the others, and no page is in flight for it. -/
theorem Core.addToQueue (h : Core cfg s first filled done pushing)
    (hroom : s.mSuperpageQueue.isFull MAX_SUPERPAGES = false) {f : Flight cfg.pageSize} (hnew : f.pushed = 0) :
    ∃ q, s.mSuperpageQueue.addToQueue MAX_SUPERPAGES f.entry = .ok q ∧
      Core cfg { s with mSuperpageQueue := q } first filled done (pushing ++ [f]) := by
  obtain ⟨q, hq, hrep⟩ := SuperpageQueue.addToQueue_spec h.lists.queue (not_full h hroom) (Flight.isValid_entry f)
  have hl : done ++ (pushing ++ [f]) = done ++ pushing ++ [f] := (List.append_assoc _ _ _).symm
  have hflight : pagesInFlight (first + filled.length) (done ++ (pushing ++ [f])) =
      pagesInFlight (first + filled.length) (done ++ pushing) := by
    rw [hl, pagesInFlight_append, @pagesInFlight_untouched _ _ [f] (fun g hg => by rwa [List.mem_singleton.1 hg]),
      List.append_nil]
  refine ⟨q, hq, ⟨?_, h.lists.full, h.lists.done_pushed, ?_, ?_⟩, ?_, h.fifoSize_le, h.fifoBack_lt, ?_, h.credited⟩
  · rw [hl, List.map_append, List.length_append]
    exact hrep
  · intro g hg
    rw [hl] at hg
    rcases List.mem_append.1 hg with hg | hg
    · exact h.lists.waiting g hg
    · rw [List.mem_singleton.1 hg]
      exact Nat.lt_of_le_of_lt (f.arrived_le.trans (Nat.le_of_eq hnew)) f.pos
  · intro g hg
    cases pushing with
    | nil => cases hg
    | cons p ps =>
      rcases List.mem_append.1 hg with hg | hg
      · exact h.lists.untouched g hg
      · rwa [List.mem_singleton.1 hg]
  · rw [hflight]
    exact h.fifoSize
  · rw [hflight]
    exact h.slots

/-- The entry made for a superpage of whole pages is that of a superpage of which nothing has been pushed. -/
theorem Whole.newEntry {P : Nat} {superpage : Superpage} (h : Whole P superpage) (hsize : 0 < superpage.size)
    (busAddress : Nat) : ∃ f : Flight P,
      f.entry = ⟨{ superpage with received := 0 }, busAddress, 0, toSigned 32 (superpage.size / P)⟩ ∧
      f.pushed = 0 ∧ f.key = superpage.key ∧ f.pages = superpage.size / P := by
  have hdiv : superpage.size = superpage.size / P * P := (Nat.div_mul_cancel h.pages).symm
  have hpos : 0 < superpage.size / P := by
    refine Nat.pos_of_ne_zero fun hzero => ?_
    rw [hzero, Nat.zero_mul] at hdiv
    omega
  refine ⟨newFlight P superpage busAddress _ hdiv h.small hpos (h.pageSize_pos hsize), ?_, rfl, rfl, rfl⟩
  rw [toSigned_of_lt h.fits, Flight.entry]
  simp [newFlight]

/-- **A superpage that is pushed** is the youngest, or it is refused. -/
theorem pushSuperpage_spec (h : Core cfg s first filled done pushing) (superpage : Superpage)
    (hok : Accepts cfg s superpage → Whole cfg.pageSize superpage) :
    Refused (s.pushSuperpage cfg superpage) ∨
    ∃ q, ∃ f : Flight cfg.pageSize, s.pushSuperpage cfg superpage = .ok { s with mSuperpageQueue := q } ∧
      Core cfg { s with mSuperpageQueue := q } first filled done (pushing ++ [f]) ∧
      f.pushed = 0 ∧ f.key = superpage.key ∧ f.pages = superpage.size / cfg.pageSize ∧ Accepts cfg s superpage := by
  rcases checkSuperpage_cases cfg superpage with hchecked | ⟨why, hwhy⟩
  swap
  · exact .inl (.inr ⟨why, by rw [Channel.pushSuperpage, hwhy]; rfl⟩)
  cases hwhole : Channel.isMultiple superpage.size (1 * 1024 * 1024)
  · exact .inl (.inr ⟨.notMultipleOfMiB, by rw [Channel.pushSuperpage, hchecked, hwhole]; rfl⟩)
  cases haddress : getBusOffsetAddress cfg.scatterGatherList superpage.offset with
  | none => exact .inl (.inr ⟨.addressOutOfRange, by rw [Channel.pushSuperpage, hchecked, hwhole, haddress]; rfl⟩)
  | some busAddress =>
    have haccept (hroom : s.mSuperpageQueue.isFull MAX_SUPERPAGES = false) : Accepts cfg s superpage :=
      ⟨hchecked, hwhole, by rw [haddress]; rfl, hroom⟩
    have hsize : 0 < superpage.size := Nat.lt_of_lt_of_le (by decide) (of_decide_eq_true hwhole).1
    have hP : 0 < cfg.pageSize := pageSize_pos h hsize (fun hroom => hok (haccept hroom))
    have hpush : s.pushSuperpage cfg superpage = s.onQueue (s.mSuperpageQueue.addToQueue MAX_SUPERPAGES
        ⟨{ superpage with received := 0 }, busAddress, 0, toSigned 32 (superpage.size / cfg.pageSize)⟩) := by
      rw [Channel.pushSuperpage, hchecked, hwhole, haddress]
      exact if_neg (Nat.ne_of_gt hP)
    cases hroom : s.mSuperpageQueue.isFull MAX_SUPERPAGES
    · have haccepts : Accepts cfg s superpage := haccept hroom
      obtain ⟨f, hentry, hnew, hkey, hpages⟩ := (hok haccepts).newEntry hsize busAddress
      obtain ⟨q, hq, hcore⟩ := h.addToQueue hroom hnew
      exact .inr ⟨q, f, by rw [hpush, ← hentry, hq]; rfl, hcore, hnew, hkey, hpages, haccepts⟩
    · exact .inl (.inl (by rw [hpush, SuperpageQueue.addToQueue_full h.lists.queue (full_of h hroom)]; rfl))

/-- **A superpage that is popped** is the oldest, and all of it has arrived. -/
theorem popSuperpage_spec (h : Core cfg s first filled done pushing) (hready : 0 < s.getReadyQueueSize) :
    ∃ q f rest, filled = f :: rest ∧ s.popSuperpage = .ok (f.entry.superpage, { s with mSuperpageQueue := q }) ∧
      Core cfg { s with mSuperpageQueue := q } (first + 1) rest done pushing ∧
      f.entry.superpage.received = f.entry.superpage.size := by
  have hlen : s.getReadyQueueSize = filled.length := by
    rw [Channel.getReadyQueueSize, h.lists.queue.filledIds, SuperpageQueue.length_ids, List.length_map]
  cases filled with
  | nil =>
    rw [hlen] at hready
    cases hready
  | cons f rest =>
    obtain ⟨q, hq, hrep⟩ := SuperpageQueue.removeFromFilledQueue_spec h.lists.queue
    have hshift : first + 1 + rest.length = first + (f :: rest).length := by rw [List.length_cons]; omega
    have hfull := h.lists.full f List.mem_cons_self
    refine ⟨q, f, rest, rfl, by rw [Channel.popSuperpage, hq], ⟨⟨hrep, fun g hg => h.lists.full g
      (List.mem_cons_of_mem _ hg), h.lists.done_pushed, h.lists.waiting, h.lists.untouched⟩, ?_, h.fifoSize_le,
      h.fifoBack_lt, ?_, h.credited⟩, ?_⟩
    · rw [hshift]
      exact h.fifoSize
    · rw [hshift]
      exact h.slots
    · show f.arrived * cfg.pageSize = f.superpage.size
      rw [f.size_eq, hfull]

/-! ## Runs -/

/-- The channel, the superpages it accepted and those that were popped, in order. -/
structure CrorcSession where
  channel : Channel
  pushed : List Superpage
  popped : List Superpage

/-- What the user of the channel calls, with what the card writes meanwhile; the card may also write between calls. -/
inductive Action where
  | push (superpage : Superpage)
  | fill (atStart : CardStart) (during : List (List CardWrite))
  | pop
  | card (writes : List CardWrite)

namespace CrorcSession

/-- After `deviceStartDma`. -/
def start (s : Channel) : CrorcSession := ⟨s.deviceStartDma, [], []⟩

/-- A call; it has no result where it throws, but for a superpage that is refused. -/
def step (cfg : Config) (sys : CrorcSession) : Action → Option CrorcSession
  | .push superpage =>
    match sys.channel.pushSuperpage cfg superpage with
    | .ok channel              => some { sys with channel, pushed := sys.pushed ++ [superpage] }
    | .error (.rejected _)     => some sys
    | .error (.queue .full)    => some sys
    | .error _                 => none
  | .fill atStart during =>
    match sys.channel.fillSuperpages cfg atStart during with
    | .ok channel => some { sys with channel }
    | .error _    => none
  | .pop =>
    match sys.channel.popSuperpage with
    | .ok (superpage, channel) => some { sys with channel, popped := sys.popped ++ [superpage] }
    | .error _                 => none
  | .card writes => some { sys with channel := sys.channel.cardWrites writes }

/-- Superpages are popped when one is ready; the start completes, the initial pages having arrived when it looks for
them; and what the card writes are arrivals. -/
def Proper (cfg : Config) (sys : CrorcSession) : Action → Prop
  | .push _              => True
  | .fill atStart during =>
    (sys.channel.mPendingDmaStart = true → atStart.Succeeds cfg ∧ Arrivals atStart.writes ∧
      READYFIFO_ENTRIES ≤ (atStart.writes.filter CardWrite.isWhole).length) ∧ ∀ ws ∈ during, Arrivals ws
  | .pop                 => 0 < sys.channel.getReadyQueueSize
  | .card writes         => Arrivals writes

/-- The number of pages of a superpage that is accepted fits an `int`. -/
def Fits (cfg : Config) (sys : CrorcSession) : Action → Prop
  | .push superpage => Accepts cfg sys.channel superpage → superpage.size / cfg.pageSize < 2 ^ 31
  | _               => True

/-- The pages of an entry that have been pushed and have not been received. -/
def outstanding (cfg : Config) (e : Entry) : Int := e.pushedPages - (e.superpage.received / cfg.pageSize : Nat)

/-- The accounts of the channel: its descriptors, the arrivals it took, and its superpages. -/
structure Accounts (cfg : Config) (sys : CrorcSession) : Prop where
  fifoSize : (sys.channel.mFifoSize : Int) =
    ((sys.channel.mSuperpageQueue.entries sys.channel.mSuperpageQueue.mArrivals).map (outstanding cfg)).sum
  fifoSize_le : sys.channel.mFifoSize ≤ READYFIFO_ENTRIES
  credited : ∀ c ∈ sys.channel.credits, c.pushed = ⟨c.id, c.offset, wrap64 (c.busAddress + c.offset)⟩
  popped : sys.popped.map Superpage.key ++
    (sys.channel.mSuperpageQueue.entries (sys.channel.mSuperpageQueue.mFilled ++
      sys.channel.mSuperpageQueue.mArrivals)).map (fun e => e.superpage.key) = sys.pushed.map Superpage.key
  received : ∀ superpage ∈ sys.popped, superpage.received = superpage.size

/-! ### The invariant of a run -/

/-- The DMA waits to be started, or it runs. -/
inductive Stage (cfg : Config) (s : Channel) (first : Nat) : (filled done pushing : List (Flight cfg.pageSize)) → Prop
  | waiting {pushing : List (Flight cfg.pageSize)} (h : Waiting cfg s first pushing)
      (henough : ∀ f ∈ pushing, READYFIFO_ENTRIES ≤ f.pages) : Stage cfg s first [] [] pushing
  | running {filled done pushing : List (Flight cfg.pageSize)} {c : Nat}
      (h : Running cfg s first filled done pushing c) :
    Stage cfg s first filled done pushing

theorem Stage.core (h : Stage cfg s first filled done pushing) : Core cfg s first filled done pushing := by
  cases h with
  | waiting h _ => exact h.core
  | running h => exact h.core

/-- What holds between the calls of a run. -/
def Inv (cfg : Config) (sys : CrorcSession) : Prop :=
  ∃ first filled done pushing, Stage cfg sys.channel first filled done pushing ∧
    sys.popped.map Superpage.key ++ keys filled done pushing = sys.pushed.map Superpage.key ∧
    ∀ superpage ∈ sys.popped, superpage.received = superpage.size

theorem inv_start (cfg : Config) (s : Channel) (h : s.credits = []) : Inv cfg (start s) := by
  refine ⟨0, [], [], [], .waiting ⟨⟨⟨SuperpageQueue.represents_clear _, ?_, ?_, ?_, ?_⟩, rfl, Nat.zero_le _,
    Nat.zero_lt_succ _, ?_, ?_⟩, ?_, rfl, rfl⟩ (fun f hf => absurd hf List.not_mem_nil), rfl, ?_⟩
  · exact fun f hf => absurd hf List.not_mem_nil
  · exact fun f hf => absurd hf List.not_mem_nil
  · exact fun f hf => absurd hf List.not_mem_nil
  · exact fun f hf => absurd hf List.not_mem_nil
  · exact fun j p hp => absurd hp (by simp [pagesInFlight])
  · intro c hc
    rw [show (start s).channel.credits = s.credits from rfl, h] at hc
    exact absurd hc List.not_mem_nil
  · exact fun f hf => absurd hf List.not_mem_nil
  · exact fun p hp => absurd hp List.not_mem_nil

variable {sys : CrorcSession}

theorem outstanding_entry (f : Flight cfg.pageSize) :
    outstanding cfg f.entry = ((f.pushed - f.arrived : Nat) : Int) := by
  have hle := f.arrived_le
  show (f.pushed : Int) - (f.arrived * cfg.pageSize / cfg.pageSize : Nat) = _
  rw [Nat.mul_div_cancel _ f.page_pos]
  omega

theorem sum_outstanding : ∀ (a : Nat) (fs : List (Flight cfg.pageSize)),
    ((fs.map Flight.entry).map (outstanding cfg)).sum = (pagesInFlight a fs).length
  | _, [] => rfl
  | a, f :: fs => by
    rw [List.map_cons, List.map_cons, List.sum_cons, sum_outstanding (a + 1) fs, outstanding_entry, pagesInFlight,
      List.length_append, Flight.length_inFlight, Int.natCast_add]

/-- The invariant is more than the accounts. -/
theorem Inv.accounts (h : Inv cfg sys) : Accounts cfg sys := by
  obtain ⟨first, filled, done, pushing, hstage, hkeys, hreceived⟩ := h
  have hcore := hstage.core
  have hfilled := hcore.lists.queue.entries_filled
  have harrivals := hcore.lists.queue.entries_arrivals
  refine ⟨?_, hcore.fifoSize_le, hcore.credited, ?_, hreceived⟩
  · rw [harrivals, sum_outstanding (first + filled.length), hcore.fifoSize]
  · rw [SuperpageQueue.entries, List.map_append, ← SuperpageQueue.entries, ← SuperpageQueue.entries, hfilled, harrivals,
      ← List.map_append, List.map_map, ← hkeys]
    rfl

/-! ### Every call keeps the invariant -/

theorem Stage.card (h : Stage cfg s first filled done pushing) {writes : List CardWrite} (harrivals : Arrivals writes) :
    Stage cfg (s.cardWrites writes) first filled done pushing := by
  obtain ⟨r, free, hw⟩ := cardWrites_eq writes s
  cases h with
  | waiting h henough =>
    rw [hw]
    exact .waiting ⟨h.core.card r free, h.untouched, h.back, h.pending⟩ henough
  | running h =>
    have hcard := cardWrites_completed writes h.completed h.core.fifoSize_le harrivals
    rw [hw] at hcard ⊢
    exact .running ⟨h.core.card r free, h.unfinished, hcard, h.started⟩

theorem Stage.add {q : SuperpageQueue} {f : Flight cfg.pageSize} (h : Stage cfg s first filled done pushing)
    (hcore : Core cfg { s with mSuperpageQueue := q } first filled done (pushing ++ [f])) (hf : f.pushed = 0)
    (hpages : READYFIFO_ENTRIES ≤ f.pages) :
    Stage cfg { s with mSuperpageQueue := q } first filled done (pushing ++ [f]) := by
  cases h with
  | waiting h henough =>
    refine .waiting ⟨hcore, fun g hg => ?_, h.back, h.pending⟩ (fun g hg => ?_)
    · rcases List.mem_append.1 hg with hg | hg
      · exact h.untouched g hg
      · rw [List.mem_singleton.1 hg]
        exact hf
    · rcases List.mem_append.1 hg with hg | hg
      · exact henough g hg
      · rw [List.mem_singleton.1 hg]
        exact hpages
  | running h =>
    refine .running ⟨hcore, fun g hg => ?_, ⟨h.completed.le, h.completed.todo, h.completed.whole, h.completed.idle⟩,
      h.started⟩
    rcases List.mem_append.1 hg with hg | hg
    · exact h.unfinished g hg
    · rw [List.mem_singleton.1 hg, hf]
      exact f.pos

theorem Stage.pop {q : SuperpageQueue} {f : Flight cfg.pageSize} (h : Stage cfg s first (f :: filled) done pushing)
    (hcore : Core cfg { s with mSuperpageQueue := q } (first + 1) filled done pushing) :
    Stage cfg { s with mSuperpageQueue := q } (first + 1) filled done pushing := by
  cases h with
  | running h =>
    exact .running ⟨hcore, h.unfinished, ⟨h.completed.le, h.completed.todo, h.completed.whole, h.completed.idle⟩,
      h.started⟩

/-- **Filling superpages** starts the DMA, or it runs. -/
theorem Stage.fill (h : Stage cfg s first filled done pushing) {atStart : CardStart}
    (hok : s.mPendingDmaStart = true → atStart.Succeeds cfg ∧ Arrivals atStart.writes ∧
      READYFIFO_ENTRIES ≤ (atStart.writes.filter CardWrite.isWhole).length)
    {during : List (List CardWrite)} (hduring : ∀ ws ∈ during, Arrivals ws) :
    ∃ s' filled' done' pushing', s.fillSuperpages cfg atStart during = .ok s' ∧
      Stage cfg s' first filled' done' pushing' ∧ keys filled' done' pushing' = keys filled done pushing := by
  cases h with
  | running h =>
    obtain ⟨s₁, done₁, pushing₁, hpush, hrun, hkeys⟩ := fillPushing_spec h atStart
    obtain ⟨s', filled', done', pushing', c', hfill, hrun', hkeys'⟩ := fillSuperpages_spec hpush hrun hduring
    exact ⟨s', filled', done', pushing', hfill, .running hrun', hkeys'.trans hkeys⟩
  | waiting h henough =>
    cases pushing with
    | nil =>
      have harrivals : s.mSuperpageQueue.mArrivals = [] := by
        rw [h.core.lists.queue.arrivalIds]
        rfl
      refine ⟨s, [], [], [], ?_, .waiting h henough, rfl⟩
      rw [Channel.fillSuperpages, Channel.fillPushing, pushing_eq_nil h.core]
      simp only [harrivals, if_true]
    | cons f later =>
      obtain ⟨⟨tail, hfront⟩, hget⟩ := pushing_eq_cons h.core
      obtain ⟨hsucceeds, harrivals, hcard⟩ := hok h.pending
      obtain ⟨s₁, filled₁, done₁, pushing₁, hstart, hrun, hkeys⟩ := startPendingDma_spec h
        (henough f List.mem_cons_self) hsucceeds hcard harrivals
      have hpush : s.fillPushing cfg atStart = .ok s₁ := by
        rw [Channel.fillPushing]
        simp only [hfront, hget, h.pending, if_true]
        exact hstart
      obtain ⟨s', filled', done', pushing', c', hfill, hrun', hkeys'⟩ := fillSuperpages_spec hpush hrun hduring
      exact ⟨s', filled', done', pushing', hfill, .running hrun', hkeys'.trans hkeys⟩

/-- **One call** that keeps to the rules has a result and keeps the invariant. -/
theorem inv_step (hP : cfg.pageSize = 8192) (a : Action) (h : Inv cfg sys) (hok : Proper cfg sys a)
    (hfits : Fits cfg sys a) :
    ∃ sys', step cfg sys a = some sys' ∧ Inv cfg sys' := by
  have hi := h
  obtain ⟨first, filled, done, pushing, hstage, hkeys, hreceived⟩ := h
  cases a with
  | push superpage =>
    have hwhole : Accepts cfg sys.channel superpage → Whole cfg.pageSize superpage := fun haccepts => by
      have hlt := hfits haccepts
      have hsize := (pages_of_whole haccepts.whole).1
      rw [← hP] at hsize
      refine ⟨Dvd.intro_left _ hsize.symm, hlt, ?_⟩
      rw [hP] at hsize hlt
      omega
    rcases pushSuperpage_spec hstage.core superpage hwhole with
      (hr | ⟨why, hr⟩) | ⟨q, f, hr, hcore, hf, hkey, hpages, haccepts⟩
    · exact ⟨sys, by simp only [step, hr], hi⟩
    · exact ⟨sys, by simp only [step, hr], hi⟩
    · refine ⟨{ sys with
        channel := { sys.channel with mSuperpageQueue := q }
        pushed := sys.pushed ++ [superpage] }, by simp only [step, hr], first, filled, done, pushing ++ [f],
        hstage.add hcore hf (by rw [hpages, hP]; exact (pages_of_whole haccepts.whole).2), ?_, hreceived⟩
      show _ = (sys.pushed ++ [superpage]).map Superpage.key
      rw [List.map_append, ← hkeys]
      simp [keys, hkey]
  | fill atStart during =>
    obtain ⟨s', filled', done', pushing', hfill, hstage', hkeys'⟩ := hstage.fill hok.1 hok.2
    exact ⟨{ sys with channel := s' }, by simp only [step, hfill], first, filled', done', pushing', hstage',
      by rw [hkeys']; exact hkeys, hreceived⟩
  | pop =>
    obtain ⟨q, f, rest, rfl, hpop, hcore, hall⟩ := popSuperpage_spec hstage.core hok
    refine ⟨{ sys with
      channel := { sys.channel with mSuperpageQueue := q }
      popped := sys.popped ++ [f.entry.superpage] }, by simp only [step, hpop], first + 1, rest, done, pushing,
      hstage.pop hcore, ?_, fun p hp => ?_⟩
    · rw [← hkeys, List.map_append, List.append_assoc]
      rfl
    · rcases List.mem_append.1 hp with hp | hp
      · exact hreceived p hp
      · rw [List.mem_singleton.1 hp]
        exact hall
  | card writes => exact ⟨_, rfl, first, filled, done, pushing, hstage.card hok, hkeys, hreceived⟩

/-- **The accounts are right in every run**: no call throws but at a superpage it refuses, the descriptors in use are
the pages pushed and not received, every arrival is credited to the page pushed for its index, and the superpages come
out complete and in the order they went in. -/
theorem channel_runs (hP : cfg.pageSize = 8192) (s : Channel) (hs : s.credits = []) (as : List Action)
    (hl : Legal (step cfg) (fun sys a => Proper cfg sys a ∧ Fits cfg sys a) (start s) as) :
    ∃ sys, run (step cfg) (start s) as = some sys ∧ Accounts cfg sys := by
  obtain ⟨sys, hr, hi⟩ := run_inv (I := Inv cfg) (fun sys a hi hok => inv_step hP a hi hok.1 hok.2) as (start s)
    (inv_start cfg s hs) hl
  exact ⟨sys, hr, hi.accounts⟩

/-! ### Two buffers -/

/-- A channel on which nothing has been done. -/
def powerOn : Channel where
  mFifoBack := 0
  mFifoSize := 0
  mSuperpageQueue := ⟨0, 0, fun _ => ⟨⟨0, 0, 0, 0, false⟩, 0, -1, 0⟩, [], [], []⟩
  mPendingDmaStart := false
  readyFifo _ := .reset
  freeFifo := []
  slot _ := ⟨0, 0, 0⟩
  credits := []

def transferred : CardWrite := .whole 2048 0x82

/-- A start in which all commands are carried out and the initial pages arrive. -/
def wholeStart : CardStart := ⟨true, true, true, List.replicate READYFIFO_ENTRIES transferred⟩

/-- Filling; the initial pages arrive if they are pushed in this call, and `arrived` pages afterwards. -/
def fill (arrived : Nat) : Action := .fill wholeStart (List.replicate arrived [transferred])

/-- It succeeds if the generator fills pages of at least 4 bytes and less than 2 MiB. -/
theorem wholeStart_succeeds {cfg : Config} (hgenerator : cfg.generator = {}) (hle : 4 ≤ cfg.pageSize)
    (hlt : cfg.pageSize < 2 ^ 21) : wholeStart.Succeeds cfg := by
  have hsize : toSigned 32 cfg.mGeneratorDataSize = cfg.pageSize := by
    rw [Config.mGeneratorDataSize, hgenerator]
    exact toSigned_of_lt (by show cfg.pageSize < 2 ^ 31; omega)
  exact ⟨rfl, fun _ _ => rfl, fun _ => by omega, fun _ _ => rfl⟩

theorem wholeStart_arrivals : Arrivals wholeStart.writes := fun w hw => by
  rw [List.eq_of_mem_replicate hw]
  rfl

theorem during_arrivals (arrived : Nat) : ∀ ws ∈ List.replicate arrived [transferred], Arrivals ws :=
  fun ws hws w hw => by
  rw [List.eq_of_mem_replicate hws] at hw
  rw [List.mem_singleton.1 hw]
  rfl

theorem fill_proper {cfg : Config} (hgenerator : cfg.generator = {}) (hle : 4 ≤ cfg.pageSize)
    (hlt : cfg.pageSize < 2 ^ 21) (arrived : Nat) (sys : CrorcSession) : Proper cfg sys (fill arrived) := by
  refine ⟨fun _ => ⟨wholeStart_succeeds hgenerator hle hlt, wholeStart_arrivals, ?_⟩, during_arrivals arrived⟩
  rw [wholeStart, List.filter_replicate_of_pos rfl, List.length_replicate]

/-- A superpage is pushed and the DMA started. -/
def firstSuperpage (size : Nat) : List Action := [.push ⟨0, size, 7, 0, false⟩, fill 0]

theorem firstSuperpage_proper {cfg : Config} (hgenerator : cfg.generator = {}) (hP : cfg.pageSize = 8192) (size : Nat) :
    Legal (step cfg) (Proper cfg) (start powerOn) (firstSuperpage size) :=
  ⟨trivial, fun _ _ => ⟨fill_proper hgenerator (by omega) (by omega) 0 _, fun _ _ => trivial⟩⟩

/-- Two superpages of 1 MiB. -/
def smallBuffer : Config := ⟨8192, 2 ^ 21, [⟨2 ^ 21, 2 ^ 20, 2 ^ 30⟩], {}⟩

theorem firstSuperpage_ready : (run (step smallBuffer) (start powerOn) (firstSuperpage (2 ^ 20))).map
    (fun sys => sys.channel.getReadyQueueSize) = some 1 := by
  decide +kernel

theorem channel_runs_firstSuperpage :
    ∃ sys, run (step smallBuffer) (start powerOn) (firstSuperpage (2 ^ 20) ++ [.pop]) = some sys ∧
      Accounts smallBuffer sys :=
  channel_runs rfl powerOn rfl _ (by
    have hproper :
        Legal (step smallBuffer) (Proper smallBuffer) (start powerOn) (firstSuperpage (2 ^ 20) ++ [.pop]) := by
      refine Legal.append.2 ⟨firstSuperpage_proper rfl rfl _, fun sys hr => ⟨?_, fun _ _ => trivial⟩⟩
      have hready := firstSuperpage_ready
      rw [hr] at hready
      exact Nat.lt_of_lt_of_eq Nat.one_pos (Option.some.inj hready).symm
    refine hproper.and (fun a ha sys => ?_)
    rcases List.mem_cons.1 ha with rfl | ha
    · exact fun _ => by decide
    · rcases List.mem_cons.1 ha with rfl | ha
      · trivial
      · rw [List.mem_singleton.1 ha]
        trivial)

/-- A buffer for superpages of which the number of pages does not fit an `int`. -/
def largeBuffer : Config := ⟨8192, 2 ^ 46, [⟨2 ^ 46, 0, 0⟩], {}⟩

/-- The first superpage is taken for one of 1 MiB; behind it another one is pushed, and a page of that arrives. -/
def narrowed : List Action :=
  firstSuperpage (2 ^ 45 + 2 ^ 20) ++ [.push ⟨2 ^ 45 + 2 ^ 20, 2 ^ 20, 8, 0, false⟩, fill 1]

theorem narrowed_credits : (run (step largeBuffer) (start powerOn) narrowed).map
    (fun sys => sys.channel.credits.map fun c => (c.pushed, c.id, c.offset)) =
      some [(⟨1, 0, 2 ^ 45 + 2 ^ 20⟩, 0, 2 ^ 20)] := by
  decide +kernel

/-- Its page is credited to the first one. -/
theorem narrowed_not_accounted : Legal (step largeBuffer) (Proper largeBuffer) (start powerOn) narrowed ∧
    ∃ sys, run (step largeBuffer) (start powerOn) narrowed = some sys ∧ ¬ Accounts largeBuffer sys := by
  refine ⟨Legal.append.2 ⟨firstSuperpage_proper rfl rfl _, fun _ _ =>
    ⟨trivial, fun _ _ => ⟨fill_proper rfl (by decide) (by decide) 1 _, fun _ _ => trivial⟩⟩⟩, ?_⟩
  have hcredits := narrowed_credits
  cases hr : run (step largeBuffer) (start powerOn) narrowed with
  | none =>
    rw [hr] at hcredits
    cases hcredits
  | some sys =>
    rw [hr, Option.map_some] at hcredits
    refine ⟨sys, rfl, fun h => ?_⟩
    -- the one credit there is
    obtain ⟨c, hc, hpage⟩ : ∃ c ∈ sys.channel.credits, (c.pushed, c.id, c.offset) =
        (⟨1, 0, 2 ^ 45 + 2 ^ 20⟩, 0, 2 ^ 20) :=
      List.mem_map.1 (by rw [Option.some.inj hcredits]; exact List.mem_cons_self)
    have hcredited := h.credited c hc
    simp only [Prod.mk.injEq] at hpage
    rw [hpage.1, hpage.2.1] at hcredited
    exact Nat.one_ne_zero (congrArg Page.id hcredited)

end CrorcSession

end Rorc
end Flp
