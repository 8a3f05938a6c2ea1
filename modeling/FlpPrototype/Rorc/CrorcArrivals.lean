import FlpPrototype.Rorc.CrorcAddresses
import FlpPrototype.Rorc.CrorcTickets
/-!
# CrorcArrivals — the calls of the channel and the record

Whatever the card does, the channel's descriptors and superpages stay in order (`Flowing`, and before the start
`Phase.waiting`).  The record of what the card has completed is part of this only where the initial pages were waited
for, which is the proposition `p`.
-/
namespace Flp
namespace Rorc

variable {p : Prop} {cfg : Config} {t : Traced} {s : Channel} {first n c : Nat}
  {filled done pushing later : List (Flight cfg.pageSize)}

/-! ## The Ready FIFO -/

/-- An entry `dataArrived` throws nothing at. -/
def Legible (e : ReadyEntry) : Prop := (e.status = -1 ∨ e.status = 0) ∨ ∃ w : WholeStatus, e.status = w.word

theorem legible_reset : Legible .reset := .inl (.inl rfl)

theorem legible_update {r : Nat → ReadyEntry} {e : ReadyEntry} {index : Nat}
    (h : ∀ i < READYFIFO_ENTRIES, Legible (r i)) (he : Legible e) :
    ∀ i < READYFIFO_ENTRIES, Legible (Function.update r index e i) := by
  intro i hi
  by_cases heq : i = index
  · rw [heq, Function.update_self]
    exact he
  · rw [Function.update_of_ne heq]
    exact h i hi

theorem legible_cardWrite (h : ∀ i < READYFIFO_ENTRIES, Legible (s.readyFifo i)) {w : CardWrite}
    (harrival : w.isArrival = true) : ∀ i < READYFIFO_ENTRIES, Legible ((s.cardWrite w).readyFifo i) := by
  unfold Channel.cardWrite
  split
  · exact h
  · cases w with
    | part l => exact legible_update h (.inl (.inr rfl))
    | whole l st => exact legible_update h (.inr (@exists_wholeStatus l st harrival))

theorem legible_cardWrites : ∀ (ws : List CardWrite) {s : Channel}, Arrivals ws →
    (∀ i < READYFIFO_ENTRIES, Legible (s.readyFifo i)) →
      ∀ i < READYFIFO_ENTRIES, Legible ((s.cardWrites ws).readyFifo i)
  | [], _, _, h => h
  | w :: ws, _, hws, h => legible_cardWrites ws (fun x hx => hws x (List.mem_cons_of_mem _ hx))
    (legible_cardWrite h (hws w List.mem_cons_self))

theorem dataArrived_legible {index : Nat} (h : Legible (s.readyFifo index)) :
    ∃ status, s.dataArrived index = .ok status := by
  rcases h with h | ⟨w, h⟩
  · exact (dataArrived_idle h).elim (fun hd => ⟨_, hd⟩) (fun hd => ⟨_, hd⟩)
  · exact ⟨_, dataArrived_whole h⟩

theorem whole_not_idle (w : WholeStatus) : ¬(w.word = -1 ∨ w.word = 0) := by
  rintro (h | h)
  · exact absurd w.dtsw (by rw [h]; decide)
  · exact absurd w.dtsw (by rw [h]; decide)

/-! ## The channel between its calls -/

/-- The channel once the DMA is started. -/
structure Flowing (p : Prop) (cfg : Config) (t : Traced) (first : Nat)
    (filled done pushing : List (Flight cfg.pageSize)) : Prop where
  core : Core cfg t.channel first filled done pushing
  unfinished : ∀ f ∈ pushing, f.pushed < f.pages
  started : t.channel.mPendingDmaStart = false
  legible : ∀ i < READYFIFO_ENTRIES, Legible (t.channel.readyFifo i)
  record : p → ∃ n c, Recorded cfg.pageSize t first (filled ++ (done ++ pushing)) n ∧ Seen cfg.pageSize t n c

theorem Flowing.cardWrites (h : Flowing p cfg t first filled done pushing) {ws : List CardWrite} (hws : Arrivals ws) :
    Flowing p cfg (t.cardWrites ws) first filled done pushing := by
  obtain ⟨r, free, hw⟩ := cardWrites_eq ws t.channel
  refine ⟨?_, h.unfinished, ?_, ?_, fun hp => ?_⟩
  · rw [Traced.cardWrites_channel, hw]
    exact h.core.card r free
  · rw [Traced.cardWrites_channel, hw]
    exact h.started
  · rw [Traced.cardWrites_channel]
    exact legible_cardWrites ws hws h.legible
  · obtain ⟨n, c, hrec, hseen⟩ := h.record hp
    obtain ⟨hrec', hseen'⟩ := hseen.cardWrites ws hrec (h.core.length_flight hrec) h.core.fifoSize_le hws
    exact ⟨n, _, hrec', hseen'⟩

/-- An entry that is whole is of a page the card has completed. -/
theorem Completed.pos_of_whole {s : Channel} {c : Nat} (h : Completed s c) (hback : s.mFifoBack < READYFIFO_ENTRIES)
    {w : WholeStatus} (hwhole : (s.readyFifo s.mFifoBack).status = w.word) : 0 < c := by
  refine Nat.pos_of_ne_zero fun hc => ?_
  subst hc
  have hidle := h.idle 0 (Nat.le_refl 0) (by decide)
  rw [Nat.add_zero, Nat.mod_eq_of_lt hback, hwhole] at hidle
  exact whole_not_idle w hidle

/-- The first page in flight is the next one of the oldest superpage that waits. -/
theorem Recorded.front_ticket {P n : Nat} {front rest : List (Flight P)} {f : Flight P} {page : GivenPage}
    (h : Recorded P t first (front ++ f :: rest) n) (hfull : ∀ g ∈ front, g.pushed ≤ g.arrived)
    (hlt : f.arrived + 1 ≤ f.pushed) (hpage : (t.given.drop n)[0]? = some page) :
    page.ticket = (first + front.length, f.arrived) := by
  have hflight : ((t.given.drop n).map GivenPage.ticket)[0]? = (tickets first (front ++ f :: rest))[0]? := by
    rw [h.flight]
  rw [List.getElem?_map, hpage, tickets_append, tickets_eq_nil first hfull, List.nil_append, tickets,
    f.tickets_arrive hlt] at hflight
  exact Option.some.inj hflight

/-- The completion that was read has been taken, and does not stand in its entry any more. -/
theorem Seen.settle {P n c : Nat} {t' : Traced} {a : Taken} (h : Seen P t n (c + 1))
    (hback : t.channel.mFifoBack < READYFIFO_ENTRIES) (hle : t.channel.mFifoSize ≤ READYFIFO_ENTRIES)
    (hcompleted : Completed t'.channel c)
    (hnext : t'.channel.mFifoBack = (t.channel.mFifoBack + 1) % READYFIFO_ENTRIES) (hgiven : t'.given = t.given)
    (hdone : t'.done = t.done) (hstands : t'.stands = Function.update t.stands t.channel.mFifoBack none)
    (htaken : t'.taken = t.taken ++ [a])
    (ha : ∃ page, a.completion = some page ∧ page.serial = a.serial ∧ P * page.number = a.offset) :
    Seen P t' (n + 1) c := by
  refine ⟨hcompleted, ?_, fun j hj => ?_, fun b hb => ?_⟩
  · rw [hdone, h.done, Nat.add_assoc, Nat.add_comm 1 c]
  · have hcle := h.completed.le
    have hzero : (t.channel.mFifoBack + 0) % READYFIFO_ENTRIES = t.channel.mFifoBack := Nat.mod_eq_of_lt hback
    rw [hstands, hnext, hgiven, Nat.mod_add_mod, Nat.add_assoc, Nat.add_comm 1 j, Function.update_of_ne,
      h.stands (j + 1) (by omega), List.getElem?_drop, List.getElem?_drop, Nat.add_right_comm, Nat.add_assoc]
    exact fun heq => Nat.succ_ne_zero j (index_inj (by omega) (by decide) (heq.trans hzero.symm))
  · rw [htaken] at hb
    rcases List.mem_append.1 hb with hb | hb
    · exact h.taken b hb
    · rw [List.mem_singleton.1 hb]
      exact ha

/-- **An arrival is taken** of the page the completion of which was read. -/
theorem Flowing.take {f : Flight cfg.pageSize} {rest : List (Flight cfg.pageSize)}
    (h : Flowing p cfg t first filled done pushing) (hsplit : done ++ pushing = f :: rest)
    (hpos : 0 < t.channel.mFifoSize) {w : WholeStatus}
    (hwhole : (t.channel.readyFifo t.channel.mFifoBack).status = w.word) :
    ∃ t' filled' done' pushing', t.takeArrival cfg ((first + filled.length) % MAX_SUPERPAGES) f.entry = .ok t' ∧
      Flowing p cfg t' first filled' done' pushing' := by
  obtain ⟨q, filled', done', pushing', hlt, htake, hcore, hopen, hsame⟩ :=
    takeArrival_core h.core hsplit h.unfinished hpos
  refine ⟨{ t with
    channel := { afterArrival t.channel (creditOf t.channel ((first + filled.length) % MAX_SUPERPAGES) f.entry) with
      mSuperpageQueue := q }
    taken := t.taken ++ [⟨t.owner ((first + filled.length) % MAX_SUPERPAGES), f.entry.superpage.received,
      t.stands t.channel.mFifoBack⟩]
    stands := Function.update t.stands t.channel.mFifoBack none }, filled', done', pushing',
    by rw [Traced.takeArrival, htake], hcore, hopen, h.started, legible_update h.legible legible_reset, fun hp => ?_⟩
  obtain ⟨n, c, hrec, hseen⟩ := h.record hp
  have hlen := h.core.length_flight hrec
  have hback := h.core.fifoBack_lt
  -- the card has completed the first page in flight
  obtain ⟨c, rfl⟩ := Nat.exists_eq_succ_of_ne_zero (Nat.ne_of_gt (hseen.completed.pos_of_whole hback hwhole))
  have hfull : ∀ g ∈ filled, g.pushed ≤ g.arrived := fun g hg => by
    have := h.core.lists.full g hg
    have := g.pushed_le
    omega
  rw [hsplit] at hrec
  obtain ⟨page, hpage⟩ : ∃ page, (t.given.drop n)[0]? = some page :=
    ⟨_, List.getElem?_eq_getElem (by rw [hlen]; exact hpos)⟩
  obtain ⟨hserial, hnumber⟩ := Prod.mk.inj (hrec.front_ticket hfull hlt hpage)
  refine ⟨n + 1, c, ?_, ?_⟩
  · rw [hsame]
    refine hrec.settle hfull hlt rfl rfl rfl rfl rfl rfl fun j g hg => ?_
    rw [hrec.index (j + 1) g (by rw [List.getElem?_drop] at hg ⊢; rwa [Nat.add_right_comm] at hg)]
    show _ = ((t.channel.mFifoBack + 1) % READYFIFO_ENTRIES + j) % READYFIFO_ENTRIES
    rw [Nat.mod_add_mod, Nat.add_assoc, Nat.add_comm 1 j]
  · have hcard :
      Completed (afterArrival t.channel (creditOf t.channel ((first + filled.length) % MAX_SUPERPAGES) f.entry))
        c := afterArrival_completed hback h.core.fifoSize_le hseen.completed
    have hstands := hseen.stands 0 (Nat.succ_pos c)
    rw [Nat.add_zero, Nat.mod_eq_of_lt hback, hpage] at hstands
    have howner := hrec.owner filled.length (by simp)
    refine hseen.settle hback h.core.fifoSize_le ⟨hcard.le, hcard.todo, hcard.whole, hcard.idle⟩ rfl rfl rfl rfl rfl
      ⟨page, hstands, ?_, ?_⟩
    · show page.serial = t.owner ((first + filled.length) % MAX_SUPERPAGES)
      rw [howner, hserial]
    · show cfg.pageSize * page.number = f.arrived * cfg.pageSize
      rw [hnumber, Nat.mul_comm]

/-- **The loop over the arrivals.** -/
theorem Flowing.fillArrivals : ∀ (turns : Nat) (during : List (List CardWrite)) {t : Traced}
    {filled done pushing : List (Flight cfg.pageSize)}, Flowing p cfg t first filled done pushing →
    (∀ ws ∈ during, Arrivals ws) → ∃ t' filled' done' pushing', Traced.fillArrivals cfg turns during t = .ok t' ∧
      Flowing p cfg t' first filled' done' pushing'
  | 0, _, t, filled, done, pushing, h, _ => ⟨t, filled, done, pushing, rfl, h⟩
  | turns + 1, during, t, filled, done, pushing, h, hduring => by
    rw [Traced.fillArrivals]
    by_cases hzero : t.channel.mFifoSize = 0
    · rw [if_pos hzero]
      exact ⟨t, filled, done, pushing, rfl, h⟩
    rw [if_neg hzero]
    have hsame : (t.cardWrites (during.headD [])).channel.mFifoSize = t.channel.mFifoSize := by
      obtain ⟨r, free, hw⟩ := cardWrites_eq (during.headD []) t.channel
      rw [Traced.cardWrites_channel, hw]
    have h₁ := h.cardWrites (arrivals_headD hduring)
    revert h₁ hsame
    generalize t.cardWrites (during.headD []) = t₁
    intro hsame h₁
    have hpos : 0 < t₁.channel.mFifoSize := by omega
    obtain ⟨f, rest, hsplit⟩ : ∃ f rest, done ++ pushing = f :: rest := by
      cases hd : done ++ pushing with
      | nil =>
        have hsize := h₁.core.fifoSize
        rw [hd] at hsize
        exact absurd hsize (Nat.ne_of_gt hpos)
      | cons f rest => exact ⟨f, rest, rfl⟩
    obtain ⟨⟨tail, hfront⟩, hget⟩ := getEntry_front h₁.core hsplit
    simp only [hfront, hget]
    rcases h₁.legible t₁.channel.mFifoBack h₁.core.fifoBack_lt with hidle | ⟨w, hwhole⟩
    · rcases dataArrived_idle hidle with hd | hd
      · simp only [hd]
        exact ⟨t₁, filled, done, pushing, rfl, h₁⟩
      · simp only [hd]
        exact ⟨t₁, filled, done, pushing, rfl, h₁⟩
    · obtain ⟨t₂, filled₂, done₂, pushing₂, htake, h₂⟩ := h₁.take hsplit hpos hwhole
      simp only [dataArrived_whole hwhole, htake]
      exact Flowing.fillArrivals turns during.tail h₂ (fun ws hws => hduring ws (List.mem_of_mem_tail hws))

/-- **The first part of filling.** -/
theorem Flowing.fillPushing (h : Flowing p cfg t first filled done pushing) (atStart : CardStart) :
    ∃ t' done' pushing', t.fillPushing cfg atStart = .ok t' ∧ Flowing p cfg t' first filled done' pushing' := by
  cases pushing with
  | nil => exact ⟨t, done, [], by rw [Traced.fillPushing, pushing_eq_nil h.core], h⟩
  | cons f later =>
    obtain ⟨⟨tail, hfront⟩, hget⟩ := pushing_eq_cons h.core
    have hle := h.core.fifoSize_le
    have hn : (min ((READYFIFO_ENTRIES : Int) - t.channel.mFifoSize) f.entry.getUnpushedPages).toNat =
        min (READYFIFO_ENTRIES - t.channel.mFifoSize) (f.pages - f.pushed) := by
      show (min ((READYFIFO_ENTRIES : Int) - t.channel.mFifoSize) ((f.pages : Int) - f.pushed)).toNat = _
      have := f.pushed_le
      omega
    generalize hnum : min (READYFIFO_ENTRIES - t.channel.mFifoSize) (f.pages - f.pushed) = k at hn
    have hf : f.pushed + k ≤ f.pages := by
      have := f.pushed_le
      omega
    obtain ⟨t₁, h₁, hcore, hp, hr, hs, hg, hrec⟩ := pushPages_trace k h.core hf (by omega)
    have hlater : ∀ g ∈ later, g.pushed < g.pages := fun g hg => h.unfinished g (List.mem_cons_of_mem _ hg)
    obtain ⟨q, done', pushing', hq, hcore₂, hsplit, hopen₂⟩ := removePushed_spec hcore hlater
    refine ⟨{ t₁ with channel := { t₁.channel with mSuperpageQueue := q } }, done', pushing', ?_, hcore₂, hopen₂,
      hp.pending.trans h.started, by rw [hr]; exact h.legible, fun hwaited => ?_⟩
    · rw [Traced.fillPushing]
      simp only [hfront, hget, h.started, hn, h₁, hq, Bool.false_eq_true, if_false]
      rfl
    · obtain ⟨n, c, hrecorded, hseen⟩ := h.record hwaited
      have hcard := hp.completed hr hseen.completed
      refine ⟨n, c, ?_, ?_⟩
      · rw [hsplit]
        have hrec₁ := hrec n hrecorded
        exact hrec₁.congr rfl rfl rfl hrec₁.split rfl rfl
      · have hgave : Gave t { t₁ with channel := { t₁.channel with mSuperpageQueue := q } } :=
          ⟨hg.given, hg.done, hg.taken⟩
        refine hgave.seen ⟨hcard.le, hcard.todo, hcard.whole, hcard.idle⟩ hp.back hs ?_ hrecorded.le hseen
        rw [h.core.length_flight hrecorded]
        exact hseen.completed.le

/-- **The rest of filling.** -/
theorem Flowing.fillSuperpages {t₁ : Traced} {atStart : CardStart} (hpush : t.fillPushing cfg atStart = .ok t₁)
    (h : Flowing p cfg t₁ first filled done pushing) {during : List (List CardWrite)}
    (hduring : ∀ ws ∈ during, Arrivals ws) :
    ∃ t' filled' done' pushing', t.fillSuperpages cfg atStart during = .ok t' ∧
      Flowing p cfg t' first filled' done' pushing' := by
  rw [Traced.fillSuperpages, hpush]
  by_cases ha : t₁.channel.mSuperpageQueue.mArrivals = []
  · simp only [ha, if_true]
    exact ⟨t₁, filled, done, pushing, rfl, h⟩
  · simp only [ha, if_false]
    exact h.fillArrivals t₁.channel.mFifoSize during hduring

/-! ## The pending start -/

/-- The channel before the DMA is started. -/
structure Pending (p : Prop) (cfg : Config) (t : Traced) (first : Nat) (pushing : List (Flight cfg.pageSize)) :
    Prop where
  waiting : Waiting cfg t.channel first pushing
  record : p → Recorded cfg.pageSize t first pushing 0 ∧ t.given = [] ∧ t.taken = []

/-- The initial pages: the card has all of them to do. -/
theorem Pending.initialPages {f : Flight cfg.pageSize} (h : Pending p cfg t first (f :: later))
    (henough : READYFIFO_ENTRIES ≤ f.pages) :
    ∃ t₁, ∃ hf : f.pushed + READYFIFO_ENTRIES ≤ f.pages,
      Traced.pushInitialPages cfg (first % MAX_SUPERPAGES) 0 READYFIFO_ENTRIES
        { t with channel := { t.channel with freeFifo := [] }, card := [] } = .ok t₁ ∧
      Core cfg t₁.channel first [] [] (f.push READYFIFO_ENTRIES hf :: later) ∧
      t₁.channel.mFifoSize = READYFIFO_ENTRIES ∧ t₁.channel.mFifoBack = 0 ∧
      (∀ i < READYFIFO_ENTRIES, Legible (t₁.channel.readyFifo i)) ∧
      (p → Recorded cfg.pageSize t₁ first (f.push READYFIFO_ENTRIES hf :: later) 0 ∧ Seen cfg.pageSize t₁ 0 0) := by
  obtain ⟨s₁, hf, hs₁, -, hcompleted, hsize, hback⟩ := initialPages_spec h.waiting henough
  have hzero := h.waiting.fifoSize
  have hcore : Core cfg ({ t with channel := { t.channel with freeFifo := [] }, card := [] } : Traced).channel first []
      [] (f :: later) := h.waiting.core.card t.channel.readyFifo []
  obtain ⟨t₁, ht₁, hcore₁, -, hready, hgave, hrec⟩ := pushInitialPages_trace READYFIFO_ENTRIES 0 hcore hf
    (by show t.channel.mFifoSize + _ ≤ _; omega)
  -- it is the channel the specification without the record speaks of
  have hsame : t₁.channel = s₁ := by
    have hchannel := @Traced.pushInitialPages_channel cfg (first % MAX_SUPERPAGES) 0 READYFIFO_ENTRIES
      { t with channel := { t.channel with freeFifo := [] }, card := [] }
    rw [hs₁] at hchannel
    have hid : pushingId first ([] : List (Flight cfg.pageSize)) [] = first % MAX_SUPERPAGES := rfl
    rw [hid] at ht₁
    rw [ht₁] at hchannel
    exact Except.ok.inj hchannel
  refine ⟨t₁, hf, ht₁, hcore₁, by rw [hsame]; exact hsize, by rw [hsame]; exact hback, fun i hi => ?_, fun hp => ?_⟩
  · rw [hready, if_pos ⟨Nat.zero_le _, by rw [Nat.zero_add]; exact hi⟩]
    exact legible_reset
  · obtain ⟨hrecorded, hgiven, htaken⟩ := h.record hp
    have hnone : t.done = [] := by
      have hsplit := hrecorded.split
      rw [hgiven] at hsplit
      exact (List.append_eq_nil_iff.1 hsplit.symm).1
    refine ⟨hrec 0 (hrecorded.congr rfl rfl rfl ?_ rfl rfl), by rw [hsame]; exact hcompleted, ?_,
      fun j hj => absurd hj (Nat.not_lt_zero j), fun a ha => ?_⟩
    · rw [hgiven, hnone]
      rfl
    · rw [hgave.done, hnone]
      rfl
    · rw [hgave.taken, htaken] at ha
      exact absurd ha List.not_mem_nil

/-- What a start has done when it comes to the data generator: the superpage, if all of it is pushed, has left the
pushing queue. -/
theorem Pending.pushed {f : Flight cfg.pageSize} (h : Pending p cfg t first (f :: later))
    (henough : READYFIFO_ENTRIES ≤ f.pages) :
    ∃ t₂ done pushing, ∃ hf : f.pushed + READYFIFO_ENTRIES ≤ f.pages,
      (∀ atStart : CardStart, atStart.ready = true → t.startPendingDma cfg (first % MAX_SUPERPAGES) atStart =
        (Channel.startGenerator cfg atStart >>= fun _ =>
          Traced.creditInitialPages cfg t₂ (first % MAX_SUPERPAGES) atStart.writes)) ∧
      Core cfg t₂.channel first [] done pushing ∧
      done ++ pushing = f.push READYFIFO_ENTRIES hf :: later ∧ (∀ g ∈ pushing, g.pushed < g.pages) ∧
      t₂.channel.mFifoSize = READYFIFO_ENTRIES ∧ (∀ i < READYFIFO_ENTRIES, Legible (t₂.channel.readyFifo i)) ∧
      (p → Recorded cfg.pageSize t₂ first (done ++ pushing) 0 ∧ Seen cfg.pageSize t₂ 0 0) := by
  obtain ⟨t₁, hf, h₁, hcore₁, hsize₁, -, hlegible₁, hrecord₁⟩ := h.initialPages henough
  have hlater : ∀ g ∈ later, g.pushed < g.pages := fun g hg => by
    have := h.waiting.untouched g (List.mem_cons_of_mem _ hg)
    have := g.pos
    omega
  obtain ⟨q, done, pushing, hremove, hcore₂, hsplit, hopen⟩ := removePushed_spec hcore₁ hlater
  refine ⟨{ t₁ with channel := { t₁.channel with mSuperpageQueue := q } }, done, pushing, hf,
    fun atStart hready => ?_, hcore₂, hsplit, hopen, hsize₁, hlegible₁, fun hp => ?_⟩
  case refine_2 =>
    obtain ⟨hrec, hseen⟩ := hrecord₁ hp
    rw [hsplit]
    exact ⟨hrec.congr rfl rfl rfl hrec.split rfl rfl,
      ⟨hseen.completed.le, hseen.completed.todo, hseen.completed.whole, hseen.completed.idle⟩, hseen.done,
      hseen.stands, hseen.taken⟩
  have hreg₁ : t₁.channel.mSuperpageQueue.mRegistry (first % MAX_SUPERPAGES) = (f.push READYFIFO_ENTRIES hf).entry :=
    registry_pushing hcore₁
  have hle : ¬(f.push READYFIFO_ENTRIES hf).entry.maxPages < (f.push READYFIFO_ENTRIES hf).entry.pushedPages :=
    Int.not_lt.2 (Int.ofNat_le.2 hf)
  have hid : pushingId first ([] : List (Flight cfg.pageSize)) [] = first % MAX_SUPERPAGES := rfl
  rw [hid] at hremove
  have hon : t₁.onChannel (t₁.channel.removePushed (first % MAX_SUPERPAGES)) =
      .ok { t₁ with channel := { t₁.channel with mSuperpageQueue := q } } := by
    rw [hremove]
    rfl
  rw [Traced.startPendingDma, Channel.command, if_pos hready]
  simp only [h₁, hreg₁, if_neg hle, hon]
  cases Channel.startGenerator cfg atStart with
  | error e => rfl
  | ok _ => rfl

/-- **The pending start.**  The initial pages are credited at once; the card has completed them if it was waited for. -/
theorem Pending.start {f : Flight cfg.pageSize} (h : Pending p cfg t first (f :: later))
    (henough : READYFIFO_ENTRIES ≤ f.pages) {atStart : CardStart} (hready : atStart.ready = true)
    (hgenerator : Channel.startGenerator cfg atStart = .ok ()) (harrivals : Arrivals atStart.writes)
    (hwaited : p → READYFIFO_ENTRIES ≤ (atStart.writes.filter CardWrite.isWhole).length) :
    ∃ t' filled' done' pushing', t.startPendingDma cfg (first % MAX_SUPERPAGES) atStart = .ok t' ∧
      Flowing p cfg t' first filled' done' pushing' := by
  obtain ⟨t₂, done, pushing, hf, hstart, hcore₂, hsplit, hopen, hsize₂, hlegible₂, hrecord₂⟩ := h.pushed henough
  have hzero := h.waiting.untouched f List.mem_cons_self
  have harrived : f.arrived = 0 := Nat.le_zero.1 (hzero ▸ f.arrived_le)
  have hlater : ∀ g ∈ later, g.pushed = 0 := fun g hg => h.waiting.untouched g (List.mem_cons_of_mem _ hg)
  obtain ⟨r, free, hw⟩ := cardWrites_eq atStart.writes t₂.channel
  have hcore₃ : Core cfg (t₂.cardWrites atStart.writes).channel first [] done pushing := by
    rw [Traced.cardWrites_channel, hw]
    exact hcore₂.card r free
  have hsize₃ : (t₂.cardWrites atStart.writes).channel.mFifoSize = READYFIFO_ENTRIES := by
    rw [Traced.cardWrites_channel, hw]
    exact hsize₂
  have hlegible₃ : ∀ i < READYFIFO_ENTRIES, Legible ((t₂.cardWrites atStart.writes).channel.readyFifo i) := by
    rw [Traced.cardWrites_channel]
    exact legible_cardWrites atStart.writes harrivals hlegible₂
  obtain ⟨status, harrived₃⟩ := dataArrived_legible (hlegible₃ (READYFIFO_ENTRIES - 1) (by decide))
  have hreg := registry_front hcore₃ hsplit
  -- all of them are credited
  have harrive : (f.push READYFIFO_ENTRIES hf).arrived + READYFIFO_ENTRIES ≤ (f.push READYFIFO_ENTRIES hf).pushed := by
    show f.arrived + _ ≤ f.pushed + _
    omega
  have hall : (f.push READYFIFO_ENTRIES hf).pushed = f.arrived + READYFIFO_ENTRIES := by
    show f.pushed + _ = _
    omega
  obtain ⟨q', filled', done', pushing', hcredit, hcore', hopen', hsame⟩ :=
    hcore₃.creditAll hsplit hopen harrive hall hlater
  refine ⟨({ t₂.cardWrites atStart.writes with
      channel := { (t₂.cardWrites atStart.writes).channel with mSuperpageQueue := q' } } : Traced).resetFifo,
    filled', done', pushing', ?_, ⟨hcore', hopen', rfl, fun i hi => legible_reset, fun hp => ?_⟩⟩
  · rw [List.length_nil, Nat.add_zero] at hreg
    rw [hstart atStart hready, hgenerator]
    show Traced.creditInitialPages cfg t₂ (first % MAX_SUPERPAGES) atStart.writes = _
    rw [Traced.creditInitialPages]
    simp only [harrived₃, hreg, hcredit]
    rfl
  · obtain ⟨hrec₂, hseen₂⟩ := hrecord₂ hp
    have hlen := hcore₂.length_flight hrec₂
    obtain ⟨hrec₃, hseen₃⟩ := hseen₂.waited hrec₂ hlen hcore₂.fifoSize_le harrivals (hsize₂.trans_le (hwaited hp))
    have hlen₃ := hcore₃.length_flight hrec₃
    rw [hsize₂] at hseen₃
    rw [hsplit] at hrec₃
    obtain ⟨hrec₄, hseen₄⟩ := hrec₃.restart hseen₃ hsize₃ (hlen₃.trans hsize₃) harrive q'
    refine ⟨_, 0, ?_, hseen₄⟩
    rw [hsame]
    exact hrec₄

end Rorc
end Flp
