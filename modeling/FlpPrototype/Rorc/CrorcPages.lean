import FlpPrototype.Rorc.CrorcArrivals
import Mathlib.Data.Finset.Card
import Mathlib.Data.Finset.Range
/-!
# CrorcPages — the pages of the C-RORC over whole runs

From `deviceStartDma` on.  Superpages that are whole numbers of pages, and at least the initial pages for the one that
is pending at the start, are filled exactly as long as no exception stops the start or an arrival (`pages_inside`).  If
the card completes the initial pages while the start waits, nothing is received before the card has completed it
(`received_arrived`).
-/
namespace Flp
namespace Rorc
namespace Traced

variable {p : Prop} {cfg : Config} {t : Traced} {first n c : Nat}
  {filled done pushing later : List (Flight cfg.pageSize)}

/-! ## The rules -/

/-- Every superpage that is accepted is of whole pages, the number of which fits an `int`. -/
def Divides (cfg : Config) (t : Traced) : Action → Prop
  | .push superpage => Accepts cfg t.channel superpage → Whole cfg.pageSize superpage
  | _               => True

/-- How many pages the superpage has that the start is pending for. -/
def startPages (t : Traced) : Int :=
  match t.channel.mSuperpageQueue.mPushing with
  | []      => READYFIFO_ENTRIES
  | id :: _ => (t.channel.mSuperpageQueue.mRegistry id).maxPages

/-- There are the initial pages when the DMA is started. -/
def Enough (t : Traced) : Action → Prop
  | .fill _ _ => t.channel.mPendingDmaStart = true → (READYFIFO_ENTRIES : Int) ≤ t.startPages
  | _         => True

/-- No exception stops the start. -/
def Starts (cfg : Config) (t : Traced) : Action → Prop
  | .fill atStart _ =>
      t.channel.mPendingDmaStart = true → t.channel.mSuperpageQueue.mPushing ≠ [] → atStart.Succeeds cfg
  | _               => True

/-- The card completes the initial pages while the start waits. -/
def Waited (t : Traced) : Action → Prop
  | .fill atStart _ => t.channel.mPendingDmaStart = true → t.channel.mSuperpageQueue.mPushing ≠ [] →
      READYFIFO_ENTRIES ≤ (atStart.writes.filter CardWrite.isWhole).length
  | _               => True

/-- What the card writes are arrivals: no status word is an error or unknown. -/
def Good : Action → Prop
  | .fill atStart during => Arrivals atStart.writes ∧ ∀ ws ∈ during, Arrivals ws
  | .card writes         => Arrivals writes
  | _                    => True

instance (t : Traced) : (a : Action) → Decidable (Enough t a)
  | .fill _ _ => inferInstanceAs (Decidable (t.channel.mPendingDmaStart = true → _))
  | .push _   => isTrue trivial
  | .pop      => isTrue trivial
  | .card _   => isTrue trivial

instance (t : Traced) : (a : Action) → Decidable (Waited t a)
  | .fill atStart _ => inferInstanceAs (Decidable (t.channel.mPendingDmaStart = true →
      t.channel.mSuperpageQueue.mPushing ≠ [] → READYFIFO_ENTRIES ≤ (atStart.writes.filter CardWrite.isWhole).length))
  | .push _   => isTrue trivial
  | .pop      => isTrue trivial
  | .card _   => isTrue trivial

/-! ## The invariant -/

/-- The DMA is pending, or it runs. -/
inductive Phase (p : Prop) (cfg : Config) (t : Traced) (first : Nat) :
    (filled done pushing : List (Flight cfg.pageSize)) → Prop
  | pending {pushing : List (Flight cfg.pageSize)} (h : Pending p cfg t first pushing) :
      Phase p cfg t first [] [] pushing
  | flowing {filled done pushing : List (Flight cfg.pageSize)} (h : Flowing p cfg t first filled done pushing) :
    Phase p cfg t first filled done pushing

def Inv (p : Prop) (cfg : Config) (t : Traced) : Prop :=
  ∃ first filled done pushing, Phase p cfg t first filled done pushing

theorem Phase.core (h : Phase p cfg t first filled done pushing) : Core cfg t.channel first filled done pushing := by
  cases h with
  | pending h => exact h.waiting.core
  | flowing h => exact h.core

theorem inv_start (p : Prop) (cfg : Config) (s : Channel) : Inv p cfg (start s) := by
  refine ⟨0, [], [], [], .pending ⟨⟨⟨⟨SuperpageQueue.represents_clear _, ?_, ?_, ?_, ?_⟩, rfl, Nat.zero_le _,
    Nat.zero_lt_succ _, ?_, ?_⟩, ?_, rfl, rfl⟩, fun _ => ⟨⟨?_, rfl, Nat.le_refl 0, rfl, rfl, ?_, ?_, ?_⟩, rfl, rfl⟩⟩⟩
  · exact fun f hf => absurd hf List.not_mem_nil
  · exact fun f hf => absurd hf List.not_mem_nil
  · exact fun f hf => absurd hf List.not_mem_nil
  · exact fun f hf => absurd hf List.not_mem_nil
  · exact fun j page hpage => absurd hpage (by simp [pagesInFlight])
  · exact fun c hc => absurd hc List.not_mem_nil
  · exact fun f hf => absurd hf List.not_mem_nil
  · exact fun i hi => absurd hi (Nat.not_lt_zero i)
  · exact fun j page hpage => by cases hpage
  · exact fun i a hi => by cases hi
  · exact fun x hx => absurd hx List.not_mem_nil

/-! ## Every call keeps it -/

theorem cardWrites_idle : ∀ (ws : List CardWrite) {t : Traced}, t.card = [] →
    t.cardWrites ws = { t with channel := t.channel.cardWrites ws }
  | [], _, _ => rfl
  | w :: ws, t, h => by
    have hone : t.cardWrite w = { t with channel := t.channel.cardWrite w } := by
      rw [cardWrite, h]
    have hrest := @cardWrites_idle ws { t with channel := t.channel.cardWrite w } h
    show (t.cardWrite w).cardWrites ws = _
    rw [hone, hrest]
    rfl

theorem Phase.card (h : Phase p cfg t first filled done pushing) {ws : List CardWrite} (hws : Arrivals ws) :
    Phase p cfg (t.cardWrites ws) first filled done pushing := by
  cases h with
  | flowing h => exact .flowing (h.cardWrites hws)
  | pending h =>
    obtain ⟨r, free, hw⟩ := cardWrites_eq ws t.channel
    refine .pending ⟨?_, fun hp => ?_⟩
    · rw [cardWrites_channel, hw]
      exact ⟨h.waiting.core.card r free, h.waiting.untouched, h.waiting.back, h.waiting.pending⟩
    · obtain ⟨hrec, hgiven, htaken⟩ := h.record hp
      have hcard : t.card = [] := by
        have hsplit := hrec.split
        rw [hgiven] at hsplit
        exact (List.append_eq_nil_iff.1 hsplit.symm).2
      rw [cardWrites_idle ws hcard]
      exact ⟨hrec.congr rfl rfl rfl hrec.split (by rw [hw]) rfl, hgiven, htaken⟩

theorem pushInitialPages_short : ∀ (k i : Nat) {t : Traced} {f : Flight cfg.pageSize},
    Core cfg t.channel first filled done (f :: later) → f.pages < f.pushed + k →
    ∃ e, pushInitialPages cfg (pushingId first filled done) i k t = .error e
  | 0, _, _, f, _, hshort => absurd f.pushed_le (Nat.not_le_of_lt hshort)
  | k + 1, i, t, f, h, hshort => by
    have hreset : Core cfg (t.resetEntry i).channel first filled done (f :: later) :=
      h.card (Function.update t.channel.readyFifo i .reset) t.channel.freeFifo
    by_cases hroom : t.channel.mFifoSize < READYFIFO_ENTRIES ∧ f.pushed < f.pages
    · obtain ⟨t₁, h₁, hcore, -⟩ := pushIntoSuperpage_trace hreset hroom.2 hroom.1
      obtain ⟨e, he⟩ := pushInitialPages_short k (i + 1) hcore (by show f.pages < f.pushed + 1 + k; omega)
      exact ⟨e, by rw [pushInitialPages, h₁]; exact he⟩
    · have hreg : (t.resetEntry i).channel.mSuperpageQueue.mRegistry (pushingId first filled done) = f.entry :=
        registry_pushing hreset
      have hfail : ¬((t.resetEntry i).channel.mFifoSize < READYFIFO_ENTRIES ∧ f.entry.pushedPages < f.entry.maxPages) :=
        fun hlt => hroom ⟨hlt.1, Int.ofNat_lt.1 hlt.2⟩
      refine ⟨.assertion, ?_⟩
      rw [pushInitialPages, pushIntoSuperpage, Channel.pushIntoSuperpage, hreg, if_neg hfail]

/-- **The pending start** is made, or stopped by an exception, which is where there are too few pages or a command
fails. -/
theorem startPendingDma_cases {f : Flight cfg.pageSize} (h : Pending p cfg t first (f :: later)) {atStart : CardStart}
    (harrivals : Arrivals atStart.writes)
    (hwaited : p → READYFIFO_ENTRIES ≤ (atStart.writes.filter CardWrite.isWhole).length) :
    (∃ t' filled' done' pushing', t.startPendingDma cfg (first % MAX_SUPERPAGES) atStart = .ok t' ∧
      Flowing p cfg t' first filled' done' pushing') ∨
    (¬(READYFIFO_ENTRIES ≤ f.pages ∧ atStart.Succeeds cfg) ∧
      ∃ e, t.startPendingDma cfg (first % MAX_SUPERPAGES) atStart = .error e) := by
  by_cases hready : atStart.ready = true
  swap
  · refine .inr ⟨fun hok => hready hok.2.ready, .command, ?_⟩
    rw [Traced.startPendingDma, Channel.command, if_neg hready]
  by_cases henough : READYFIFO_ENTRIES ≤ f.pages
  · cases hgenerator : Channel.startGenerator cfg atStart with
    | ok _ => exact .inl (h.start henough hready hgenerator harrivals hwaited)
    | error e =>
      obtain ⟨t₂, done, pushing, -, hstart, -⟩ := h.pushed henough
      refine .inr ⟨fun hok => ?_, e, by rw [hstart atStart hready, hgenerator]; rfl⟩
      rw [startGenerator_ok hok.2] at hgenerator
      cases hgenerator
  · have hzero := h.waiting.untouched f List.mem_cons_self
    have hcore : Core cfg ({ t with channel := { t.channel with freeFifo := [] }, card := [] } : Traced).channel
        first [] [] (f :: later) := h.waiting.core.card t.channel.readyFifo []
    obtain ⟨e, he⟩ := pushInitialPages_short READYFIFO_ENTRIES 0 hcore (by omega)
    have hid : pushingId first ([] : List (Flight cfg.pageSize)) [] = first % MAX_SUPERPAGES := rfl
    rw [hid] at he
    refine .inr ⟨fun hok => henough hok.1, e, ?_⟩
    rw [Traced.startPendingDma, Channel.command, if_pos hready]
    simp only [he]

/-- **Filling** keeps the channel in order; it fails only if the DMA is started with too few pages, or the start is
stopped by an exception. -/
theorem Phase.fill (h : Phase p cfg t first filled done pushing) {atStart : CardStart}
    {during : List (List CardWrite)} (hgood : Good (.fill atStart during))
    (hwaited : p → Waited t (.fill atStart during)) :
    (∃ t' filled' done' pushing', t.fillSuperpages cfg atStart during = .ok t' ∧
      Phase p cfg t' first filled' done' pushing') ∨
    (¬(Enough t (.fill atStart during) ∧ Starts cfg t (.fill atStart during)) ∧
      ∃ e, t.fillSuperpages cfg atStart during = .error e) := by
  cases h with
  | flowing h =>
    obtain ⟨t₁, done₁, pushing₁, hpush, h₁⟩ := h.fillPushing atStart
    obtain ⟨t', filled', done', pushing', hfill, h'⟩ := h₁.fillSuperpages hpush hgood.2
    exact .inl ⟨t', filled', done', pushing', hfill, .flowing h'⟩
  | pending h =>
    cases pushing with
    | nil =>
      have harrivals : t.channel.mSuperpageQueue.mArrivals = [] := by
        rw [h.waiting.core.lists.queue.arrivalIds]
        rfl
      refine .inl ⟨t, [], [], [], ?_, .pending h⟩
      rw [fillSuperpages, fillPushing, pushing_eq_nil h.waiting.core]
      simp only [harrivals, if_true]
    | cons f later =>
      obtain ⟨⟨tail, hfront⟩, hget⟩ := pushing_eq_cons h.waiting.core
      have hnonempty : t.channel.mSuperpageQueue.mPushing ≠ [] := by
        rw [hfront]
        exact List.cons_ne_nil _ _
      have hstart : t.fillPushing cfg atStart = t.startPendingDma cfg (first % MAX_SUPERPAGES) atStart := by
        rw [fillPushing]
        simp only [hfront, hget, h.waiting.pending, if_true]
        rfl
      rcases startPendingDma_cases h hgood.1 (fun hp => hwaited hp h.waiting.pending hnonempty) with
        ⟨t₁, filled₁, done₁, pushing₁, hok, h₁⟩ | ⟨hnot, e, he⟩
      · obtain ⟨t', filled', done', pushing', hfill, h'⟩ := h₁.fillSuperpages (hstart.trans hok) hgood.2
        exact .inl ⟨t', filled', done', pushing', hfill, .flowing h'⟩
      · refine .inr ⟨fun hrules => hnot ⟨?_, hrules.2 h.waiting.pending hnonempty⟩, e, ?_⟩
        · have hpages := hrules.1 h.waiting.pending
          rw [startPages, hfront] at hpages
          simp only at hpages
          rw [registry_pushing h.waiting.core] at hpages
          exact Int.ofNat_le.1 hpages
        · rw [fillSuperpages, hstart, he]

/-- **Pushing a superpage**: it is refused, or it is the youngest. -/
theorem Phase.push (h : Phase p cfg t first filled done pushing) {superpage : Superpage}
    (hok : Divides cfg t (.push superpage)) :
    ∃ t', step cfg t (.push superpage) = some t' ∧ Inv p cfg t' := by
  have hcore := h.core
  rcases pushSuperpage_spec hcore superpage hok with (hr | ⟨why, hr⟩) | ⟨q, f, hr, hcore', hf, -, -, haccepts⟩
  · exact ⟨t, by simp only [step, pushSuperpage, hr], first, filled, done, pushing, h⟩
  · exact ⟨t, by simp only [step, pushSuperpage, hr], first, filled, done, pushing, h⟩
  have hnext : t.channel.mSuperpageQueue.mNextId = (first + (filled ++ (done ++ pushing)).length) % MAX_SUPERPAGES := by
    have hqueue := hcore.lists.queue.next
    rw [List.length_map, List.length_map] at hqueue
    rw [hqueue, ← List.length_append]
  have hroom : (filled ++ (done ++ pushing)).length < MAX_SUPERPAGES := by
    have := not_full hcore haccepts.room
    rwa [List.length_map, List.length_map, ← List.length_append] at this
  have hall : filled ++ (done ++ (pushing ++ [f])) = filled ++ (done ++ pushing) ++ [f] := by simp
  refine ⟨{ t with
    channel := { t.channel with mSuperpageQueue := q }
    owner := Function.update t.owner t.channel.mSuperpageQueue.mNextId t.accepted.length
    accepted := t.accepted ++ [superpage] }, ?_, first, filled, done, pushing ++ [f], ?_⟩
  · simp only [step, pushSuperpage, hr]
  rw [hnext]
  cases h with
  | pending h =>
    refine .pending ⟨⟨hcore', fun g hg => ?_, h.waiting.back, h.waiting.pending⟩, fun hp => ?_⟩
    · rcases List.mem_append.1 hg with hg | hg
      · exact h.waiting.untouched g hg
      · rw [List.mem_singleton.1 hg]
        exact hf
    · obtain ⟨hrec, hgiven, htaken⟩ := h.record hp
      exact ⟨hrec.accept hf hroom rfl, hgiven, htaken⟩
  | flowing h =>
    refine .flowing ⟨hcore', fun g hg => ?_, h.started, h.legible, fun hp => ?_⟩
    · rcases List.mem_append.1 hg with hg | hg
      · exact h.unfinished g hg
      · rw [List.mem_singleton.1 hg, hf]
        exact f.pos
    · obtain ⟨n, c, hrec, hseen⟩ := h.record hp
      refine ⟨n, c, ?_, ⟨hseen.completed.le, hseen.completed.todo, hseen.completed.whole, hseen.completed.idle⟩,
        hseen.done, hseen.stands, hseen.taken⟩
      rw [hall]
      exact hrec.accept hf hroom rfl

/-- **Popping a superpage**: none is ready, or it is the oldest. -/
theorem Phase.pop (h : Phase p cfg t first filled done pushing) : ∃ t', step cfg t .pop = some t' ∧ Inv p cfg t' := by
  have hcore := h.core
  have hids := hcore.lists.queue.filledIds
  cases filled with
  | nil =>
    have hempty : t.channel.popSuperpage = .error (.queue .filledEmpty) := by
      rw [Channel.popSuperpage, SuperpageQueue.removeFromFilledQueue, hids]
      rfl
    exact ⟨t, by simp only [step, popSuperpage, hempty], first, [], done, pushing, h⟩
  | cons f rest =>
    have hready : 0 < t.channel.getReadyQueueSize := by
      rw [Channel.getReadyQueueSize, hids, SuperpageQueue.length_ids, List.map_cons, List.length_cons]
      exact Nat.succ_pos _
    obtain ⟨q, f', rest', hcons, hpop, hcore', -⟩ := popSuperpage_spec hcore hready
    obtain ⟨rfl, rfl⟩ := List.cons.inj hcons
    have hhead : t.channel.mSuperpageQueue.mFilled.headD 0 = first % MAX_SUPERPAGES := by
      rw [hids, List.map_cons, List.length_cons, SuperpageQueue.ids_succ]
      rfl
    refine ⟨{ t with
      channel := { t.channel with mSuperpageQueue := q }
      popped := t.popped ++ [⟨t.owner (first % MAX_SUPERPAGES), f.entry.superpage⟩] }, ?_, first + 1, rest, done,
      pushing, ?_⟩
    · simp only [step, popSuperpage, hpop, hhead]
    · cases h with
      | flowing h =>
        refine .flowing ⟨hcore', h.unfinished, h.started, h.legible, fun hp => ?_⟩
        obtain ⟨n, c, hrec, hseen⟩ := h.record hp
        exact ⟨n, c, hrec.pop (hcore.lists.full f List.mem_cons_self) rfl,
          ⟨hseen.completed.le, hseen.completed.todo, hseen.completed.whole, hseen.completed.idle⟩, hseen.done,
          hseen.stands, hseen.taken⟩

/-- **A call that keeps to the rules** has a result and keeps the invariant. -/
theorem inv_step (a : Action) (h : Inv p cfg t) (hdivides : Divides cfg t a) (hgood : Good a)
    (hrules : Enough t a ∧ Starts cfg t a) (hwaited : p → Waited t a) :
    ∃ t', step cfg t a = some t' ∧ Inv p cfg t' := by
  obtain ⟨first, filled, done, pushing, h⟩ := h
  cases a with
  | push superpage => exact h.push hdivides
  | fill atStart during =>
    rcases h.fill hgood hwaited with ⟨t', filled', done', pushing', hfill, h'⟩ | ⟨hnot, -⟩
    · exact ⟨t', by simp only [step, hfill], first, filled', done', pushing', h'⟩
    · exact absurd hrules hnot
  | pop => exact h.pop
  | card writes => exact ⟨_, rfl, first, filled, done, pushing, h.card hgood⟩

/-- A call that has a result keeps the invariant, whatever the start has to do with. -/
theorem inv_step_of_some {t' : Traced} (a : Action) (h : Inv p cfg t) (hdivides : Divides cfg t a) (hgood : Good a)
    (hwaited : p → Waited t a) (hstep : step cfg t a = some t') : Inv p cfg t' := by
  have hresult :
      ∀ {a : Action}, step cfg t a = some t' → (∃ t₁, step cfg t a = some t₁ ∧ Inv p cfg t₁) → Inv p cfg t' := by
    rintro a hstep ⟨t₁, h₁, hinv⟩
    obtain rfl := Option.some.inj (h₁.symm.trans hstep)
    exact hinv
  obtain ⟨first, filled, done, pushing, h⟩ := h
  cases a with
  | fill atStart during =>
    rcases h.fill hgood hwaited with ⟨t₁, filled', done', pushing', hfill, h'⟩ | ⟨-, e, hfail⟩
    · exact hresult hstep ⟨t₁, by simp only [step, hfill], first, filled', done', pushing', h'⟩
    · simp only [step, hfail] at hstep
      cases hstep
  | push superpage => exact hresult hstep (h.push hdivides)
  | pop => exact hresult hstep h.pop
  | card writes => exact hresult hstep ⟨_, rfl, first, filled, done, pushing, h.card hgood⟩

/-! ## The entries in the queue -/

theorem mem_ids {a k id : Nat} (h : id ∈ SuperpageQueue.ids MAX_SUPERPAGES a k) :
    ∃ i < k, id = (a + i) % MAX_SUPERPAGES := by
  obtain ⟨j, hj, rfl⟩ := List.mem_map.1 h
  obtain ⟨hlo, hhi⟩ := List.mem_range'_1.1 hj
  exact ⟨j - a, by omega, by rw [show a + (j - a) = j by omega]⟩

theorem filled_entry (h : Core cfg t.channel first filled done pushing) {id : Nat}
    (hid : id ∈ t.channel.mSuperpageQueue.mFilled) : ∃ i f, filled[i]? = some f ∧ id = (first + i) % MAX_SUPERPAGES ∧
      t.channel.mSuperpageQueue.mRegistry id = f.entry := by
  rw [h.lists.queue.filledIds] at hid
  obtain ⟨i, hi, rfl⟩ := mem_ids hid
  rw [List.length_map] at hi
  refine ⟨i, filled[i], List.getElem?_eq_getElem hi, rfl, h.lists.queue.entries i _ ?_⟩
  rw [List.getElem?_append_left (by rw [List.length_map]; exact hi), List.getElem?_map, List.getElem?_eq_getElem hi]
  rfl

theorem waiting_entry (h : Core cfg t.channel first filled done pushing) {id : Nat}
    (hid : id ∈ t.channel.mSuperpageQueue.mArrivals) : ∃ i f, (done ++ pushing)[i]? = some f ∧
      id = (first + (filled.length + i)) % MAX_SUPERPAGES ∧ t.channel.mSuperpageQueue.mRegistry id = f.entry := by
  rw [h.lists.queue.arrivalIds] at hid
  obtain ⟨i, hi, rfl⟩ := mem_ids hid
  rw [List.length_map] at hi ⊢
  rw [Nat.add_assoc]
  refine ⟨i, (done ++ pushing)[i], List.getElem?_eq_getElem hi, rfl, h.lists.queue.entries _ _ ?_⟩
  rw [List.getElem?_append_right (by rw [List.length_map]; exact Nat.le_add_right _ _), List.length_map,
    Nat.add_sub_cancel_left, List.getElem?_map, List.getElem?_eq_getElem hi]
  rfl

theorem queue_entry (h : Core cfg t.channel first filled done pushing) {id : Nat}
    (hid : id ∈ t.channel.mSuperpageQueue.mArrivals ++ t.channel.mSuperpageQueue.mFilled) :
    ∃ i f, (filled ++ (done ++ pushing))[i]? = some f ∧ id = (first + i) % MAX_SUPERPAGES ∧
      t.channel.mSuperpageQueue.mRegistry id = f.entry := by
  rcases List.mem_append.1 hid with hid | hid
  · obtain ⟨i, f, hi, hid, he⟩ := waiting_entry h hid
    refine ⟨filled.length + i, f, ?_, hid, he⟩
    rw [List.getElem?_append_right (Nat.le_add_right _ _), Nat.add_sub_cancel_left, hi]
  · obtain ⟨i, f, hi, hid, he⟩ := filled_entry h hid
    exact ⟨i, f, by rw [List.getElem?_append_left (List.getElem?_eq_some_iff.1 hi).1, hi], hid, he⟩

/-! ## Pages stay inside their superpages -/

/-- **What the pages of a state are to satisfy**: each lies inside its superpage, no more are pushed than there are, and
a superpage all pages of which have been pushed and have arrived is ready. -/
structure PagesInside (cfg : Config) (t : Traced) : Prop where
  inside : ∀ page ∈ t.given, ∃ superpage busAddress, t.accepted[page.serial]? = some superpage ∧
    getBusOffsetAddress cfg.scatterGatherList superpage.offset = some busAddress ∧
    (∃ k, k + cfg.pageSize ≤ superpage.size ∧ page.address = wrap64 (busAddress + k)) ∧
    (busAddress + superpage.size ≤ 2 ^ 64 →
      busAddress ≤ page.address ∧ page.address ≤ busAddress + superpage.size - cfg.pageSize)
  pushed : ∀ id ∈ t.channel.mSuperpageQueue.mArrivals ++ t.channel.mSuperpageQueue.mFilled,
    (t.channel.mSuperpageQueue.mRegistry id).pushedPages ≤ (t.channel.mSuperpageQueue.mRegistry id).maxPages
  waiting : ∀ id ∈ t.channel.mSuperpageQueue.mArrivals,
    ((t.channel.mSuperpageQueue.mRegistry id).superpage.received : Int) <
      cfg.pageSize * (t.channel.mSuperpageQueue.mRegistry id).maxPages
  received : ∀ id ∈ t.channel.mSuperpageQueue.mArrivals ++ t.channel.mSuperpageQueue.mFilled,
    (t.channel.mSuperpageQueue.mRegistry id).superpage.received ≤
      (t.channel.mSuperpageQueue.mRegistry id).superpage.size
  ready : ∀ id ∈ t.channel.mSuperpageQueue.mFilled,
    (t.channel.mSuperpageQueue.mRegistry id).superpage.received =
      (t.channel.mSuperpageQueue.mRegistry id).superpage.size

theorem Phase.pagesInside (h : Phase p cfg t first filled done pushing) (haddressed : Addressed cfg t) :
    PagesInside cfg t := by
  have hcore := h.core
  refine ⟨fun page hpage => ?_, fun id hid => ?_, fun id hid => ?_, fun id hid => ?_, fun id hid => ?_⟩
  · obtain ⟨superpage, haccept, hof⟩ := haddressed.given page hpage
    obtain ⟨busAddress, hbus, haddress⟩ := hof.address
    have hinside := hof.inside
    have hpos : 0 < cfg.pageSize ∨ cfg.pageSize = 0 := by omega
    refine ⟨superpage, busAddress, haccept, hbus, ⟨_, hof.inside, haddress⟩, fun hend => ?_⟩
    have hsize : 0 < superpage.size := by
      have hchecked := hof.checked
      unfold Channel.checkSuperpage at hchecked
      split_ifs at hchecked with hzero
      exact Nat.pos_of_ne_zero hzero
    have hsum : busAddress + cfg.pageSize * page.number < 2 ^ 64 ∨
        (cfg.pageSize = 0 ∧ cfg.pageSize * page.number = 0) := by
      rcases hpos with hpos | hzero
      · exact .inl (by omega)
      · exact .inr ⟨hzero, by rw [hzero, Nat.zero_mul]⟩
    rw [haddress, wrap64, Nat.mod_eq_of_lt (by omega)]
    omega
  · obtain ⟨i, f, -, -, he⟩ := queue_entry hcore hid
    rw [he]
    exact Int.ofNat_le.2 f.pushed_le
  · obtain ⟨i, f, hi, -, he⟩ := waiting_entry hcore hid
    have hlt := hcore.lists.waiting f (List.mem_of_getElem? hi)
    rw [he]
    show ((f.arrived * cfg.pageSize : Nat) : Int) < cfg.pageSize * (f.pages : Int)
    rw [Nat.mul_comm]
    exact_mod_cast Nat.mul_lt_mul_of_pos_left hlt f.page_pos
  · obtain ⟨i, f, -, -, he⟩ := queue_entry hcore hid
    rw [he]
    show f.arrived * cfg.pageSize ≤ f.superpage.size
    rw [f.size_eq]
    exact Nat.mul_le_mul_right _ (f.arrived_le.trans f.pushed_le)
  · obtain ⟨i, f, hi, -, he⟩ := filled_entry hcore hid
    rw [he]
    show f.arrived * cfg.pageSize = f.superpage.size
    rw [f.size_eq, hcore.lists.full f (List.mem_of_getElem? hi)]

/-- **Pages stay inside their superpages**, and every superpage is filled exactly, if it is of whole pages, there are
the initial ones at the start, and neither the start nor an arrival is stopped by an exception. -/
theorem pages_inside (cfg : Config) (s : Channel) (as : List Action)
    (hl : Legal (step cfg) (fun t a => (Enough t a ∧ Starts cfg t a) ∧ Divides cfg t a ∧ Good a) (start s) as) :
    ∃ t, run (step cfg) (start s) as = some t ∧ PagesInside cfg t := by
  have hstep : ∀ (t : Traced) (a : Action), Inv False cfg t ∧ Addressed cfg t →
      (Enough t a ∧ Starts cfg t a) ∧ Divides cfg t a ∧ Good a →
      ∃ t', step cfg t a = some t' ∧ (Inv False cfg t' ∧ Addressed cfg t') := by
    rintro t a ⟨hinv, haddressed⟩ ⟨hrules, hdivides, hgood⟩
    obtain ⟨t', h', hinv'⟩ := inv_step a hinv hdivides hgood hrules False.elim
    exact ⟨t', h', hinv', addressed_step t t' a haddressed h'⟩
  obtain ⟨t, hr, ⟨first, filled, done, pushing, hphase⟩, haddressed⟩ :=
    run_inv hstep as (start s) ⟨inv_start False cfg s, addressed_start cfg s⟩ hl
  exact ⟨t, hr, hphase.pagesInside haddressed⟩

theorem fill_starts {cfg : Config} (hgenerator : cfg.generator = {}) (hle : 4 ≤ cfg.pageSize)
    (hlt : cfg.pageSize < 2 ^ 21) (arrived : Nat) (t : Traced) : Starts cfg t (CrorcSession.fill arrived) :=
  fun _ _ => CrorcSession.wholeStart_succeeds hgenerator hle hlt

theorem fill_good (arrived : Nat) : Good (CrorcSession.fill arrived) :=
  ⟨CrorcSession.wholeStart_arrivals, CrorcSession.during_arrivals arrived⟩

/-- One superpage is filled at the start and taken out, with another one behind it. -/
def twoSuperpages : List Action :=
  [.push ⟨0, 2 ^ 20, 7, 0, false⟩, .push ⟨2 ^ 20, 2 ^ 20, 8, 0, false⟩, CrorcSession.fill 0, .pop, CrorcSession.fill 2]

theorem twoSuperpages_rules : ∀ a ∈ twoSuperpages, ∀ t, Starts CrorcSession.smallBuffer t a ∧
    Divides CrorcSession.smallBuffer t a ∧ Good a := by
  have hwhole : ∀ superpage : Superpage, superpage.size = 2 ^ 20 → Whole 8192 superpage := fun superpage hsize =>
    ⟨by rw [hsize]; decide, by rw [hsize]; decide, by rw [hsize]; decide⟩
  have hfill : ∀ arrived t, Starts CrorcSession.smallBuffer t (CrorcSession.fill arrived) := fun arrived t =>
    fill_starts rfl (by decide) (by decide) arrived t
  intro a ha t
  rcases List.mem_cons.1 ha with rfl | ha
  · exact ⟨trivial, fun _ => hwhole _ rfl, trivial⟩
  rcases List.mem_cons.1 ha with rfl | ha
  · exact ⟨trivial, fun _ => hwhole _ rfl, trivial⟩
  rcases List.mem_cons.1 ha with rfl | ha
  · exact ⟨hfill 0 t, trivial, fill_good 0⟩
  rcases List.mem_cons.1 ha with rfl | ha
  · exact ⟨trivial, trivial, trivial⟩
  rw [List.mem_singleton.1 ha]
  exact ⟨hfill 2 t, trivial, fill_good 2⟩

theorem pages_inside_twoSuperpages : ∃ t, run (step CrorcSession.smallBuffer) (start CrorcSession.powerOn)
    twoSuperpages = some t ∧ PagesInside CrorcSession.smallBuffer t :=
  pages_inside CrorcSession.smallBuffer CrorcSession.powerOn twoSuperpages (by
    have henough : Legal (step CrorcSession.smallBuffer) Enough (start CrorcSession.powerOn) twoSuperpages := by
      decide +kernel
    exact (henough.and twoSuperpages_rules).mono fun _ _ h => ⟨⟨h.1, h.2.1⟩, h.2.2⟩)

/-- Pages of 12 KiB in a superpage of 2 MiB, which is no whole number of them. -/
def oddPages : Config := ⟨12288, 2 ^ 21, [⟨2 ^ 21, 0, 2 ^ 30⟩], {}⟩

/-- All of its pages are pushed, and arrive. -/
def oddSuperpage : List Action :=
  [.push ⟨0, 2 ^ 21, 7, 0, false⟩, CrorcSession.fill 0, CrorcSession.fill 42]

theorem oddSuperpage_arrived : (run (step oddPages) (start CrorcSession.powerOn) oddSuperpage).map (fun t =>
    (t.channel.mSuperpageQueue.mArrivals, (t.channel.mSuperpageQueue.mRegistry 0).maxPages,
      (t.channel.mSuperpageQueue.mRegistry 0).superpage.received)) = some ([0], 170, 170 * 12288) := by
  decide +kernel

/-- **All of the pages have arrived, and the superpage is not ready.** -/
theorem oddSuperpage_not_ready : Legal (step oddPages) (fun t a => Enough t a ∧ Starts oddPages t a ∧ Good a)
      (start CrorcSession.powerOn) oddSuperpage ∧
    ∃ t, run (step oddPages) (start CrorcSession.powerOn) oddSuperpage = some t ∧ ¬PagesInside oddPages t := by
  have henough : Legal (step oddPages) Enough (start CrorcSession.powerOn) oddSuperpage := by decide +kernel
  have hfill : ∀ arrived t, Starts oddPages t (CrorcSession.fill arrived) := fun arrived t =>
    fill_starts rfl (by decide) (by decide) arrived t
  refine ⟨henough.and fun a ha t => ?_, ?_⟩
  · rcases List.mem_cons.1 ha with rfl | ha
    · exact ⟨trivial, trivial⟩
    rcases List.mem_cons.1 ha with rfl | ha
    · exact ⟨hfill 0 t, fill_good 0⟩
    rw [List.mem_singleton.1 ha]
    exact ⟨hfill 42 t, fill_good 42⟩
  have harrived := oddSuperpage_arrived
  cases hr : run (step oddPages) (start CrorcSession.powerOn) oddSuperpage with
  | none =>
    rw [hr] at harrived
    cases harrived
  | some t =>
    rw [hr, Option.map_some] at harrived
    have hall := Option.some.inj harrived
    simp only [Prod.mk.injEq] at hall
    obtain ⟨harrivals, hmax, hreceived⟩ := hall
    refine ⟨t, rfl, fun h => ?_⟩
    have hlt := h.waiting 0 (by rw [harrivals]; exact List.mem_cons_self)
    rw [hmax, hreceived] at hlt
    exact absurd hlt (by decide)

/-! ## What is received has arrived -/

/-- Which pages of a superpage the card has completed. -/
def completedPages (t : Traced) (serial : Nat) : Finset Nat :=
  ((t.done.filter fun page => page.serial = serial).map GivenPage.number).toFinset

theorem mem_completedPages {serial k : Nat} :
    k ∈ t.completedPages serial ↔ ∃ page ∈ t.done, page.ticket = (serial, k) := by
  rw [completedPages, List.mem_toFinset, List.mem_map]
  constructor
  · rintro ⟨page, hpage, rfl⟩
    obtain ⟨hmem, hserial⟩ := List.mem_filter.1 hpage
    exact ⟨page, hmem, Prod.ext (of_decide_eq_true hserial) rfl⟩
  · rintro ⟨page, hmem, hticket⟩
    obtain ⟨hserial, hnumber⟩ := Prod.mk.inj hticket
    exact ⟨page, List.mem_filter.2 ⟨hmem, decide_eq_true hserial⟩, hnumber⟩

/-- **What is received has arrived**: the bytes received of a superpage are of pages the card has completed, all pages
of a superpage that is ready or was popped are completed, and every arrival was taken for the page whose completion
it was. -/
structure Arrived (cfg : Config) (t : Traced) : Prop where
  received : ∀ id ∈ t.channel.mSuperpageQueue.mArrivals ++ t.channel.mSuperpageQueue.mFilled,
    (t.channel.mSuperpageQueue.mRegistry id).superpage.received ≤
      cfg.pageSize * (t.completedPages (t.owner id)).card
  ready : ∀ id ∈ t.channel.mSuperpageQueue.mFilled, ∀ k,
    cfg.pageSize * k < (t.channel.mSuperpageQueue.mRegistry id).superpage.size → k ∈ t.completedPages (t.owner id)
  popped : ∀ p ∈ t.popped, p.superpage.received ≤ cfg.pageSize * (t.completedPages p.serial).card ∧
    ∀ k, cfg.pageSize * k < p.superpage.size → k ∈ t.completedPages p.serial
  taken : ∀ a ∈ t.taken, ∃ page, a.completion = some page ∧ page.serial = a.serial ∧
    cfg.pageSize * page.number = a.offset

/-- The record of a channel that waited for the initial pages. -/
theorem Phase.recorded (h : Phase True cfg t first filled done pushing) :
    ∃ n, Recorded cfg.pageSize t first (filled ++ (done ++ pushing)) n ∧ n ≤ t.done.length ∧
      ∀ a ∈ t.taken, ∃ page, a.completion = some page ∧ page.serial = a.serial ∧
        cfg.pageSize * page.number = a.offset := by
  cases h with
  | pending h =>
    obtain ⟨hrec, -, htaken⟩ := h.record trivial
    exact ⟨0, hrec, Nat.zero_le _, fun a ha => absurd ha (by rw [htaken]; exact List.not_mem_nil)⟩
  | flowing h =>
    obtain ⟨n, c, hrec, hseen⟩ := h.record trivial
    exact ⟨n, hrec, by rw [hseen.done]; exact Nat.le_add_right n c, hseen.taken⟩

theorem take_subset_done {all : List (Flight cfg.pageSize)} (h : Recorded cfg.pageSize t first all n)
    (hle : n ≤ t.done.length) : ∀ page ∈ t.given.take n, page ∈ t.done := by
  rw [h.split, List.take_append_of_le_length hle]
  exact fun page hpage => List.mem_of_mem_take hpage

/-- The first pages of a superpage are counted when they are completed. -/
theorem le_card_completedPages {serial k : Nat} (h : ∀ i < k, i ∈ t.completedPages serial) :
    k ≤ (t.completedPages serial).card :=
  calc k = (Finset.range k).card := (Finset.card_range k).symm
    _ ≤ (t.completedPages serial).card := Finset.card_le_card fun i hi => h i (Finset.mem_range.1 hi)

theorem Phase.arrived (h : Phase True cfg t first filled done pushing) : Arrived cfg t := by
  obtain ⟨n, hrec, hle, htaken⟩ := h.recorded
  have hdone := take_subset_done hrec hle
  have hentry : ∀ {i : Nat} {f : Flight cfg.pageSize}, (filled ++ (done ++ pushing))[i]? = some f →
      ∀ k < f.arrived, k ∈ t.completedPages (t.owner ((first + i) % MAX_SUPERPAGES)) := by
    intro i f hi k hk
    rw [hrec.owner i (List.getElem?_eq_some_iff.1 hi).1]
    obtain ⟨page, hpage, hticket⟩ := hrec.arrived i f.arrived (by rw [List.getElem?_map, hi]; rfl) k hk
    exact mem_completedPages.2 ⟨page, hdone page hpage, hticket⟩
  refine ⟨fun id hid => ?_, fun id hid k hk => ?_, fun p hp => ?_, htaken⟩
  · obtain ⟨i, f, hi, rfl, he⟩ := queue_entry h.core hid
    rw [he]
    show f.arrived * cfg.pageSize ≤ _
    rw [Nat.mul_comm]
    exact Nat.mul_le_mul_left _ (le_card_completedPages (hentry hi))
  · obtain ⟨i, f, hi, rfl, he⟩ := filled_entry h.core hid
    rw [he] at hk
    have hfull := h.core.lists.full f (List.mem_of_getElem? hi)
    have hk' : cfg.pageSize * k < cfg.pageSize * f.pages := by
      rw [Nat.mul_comm cfg.pageSize f.pages, ← f.size_eq]
      exact hk
    refine hentry ?_ k (hfull ▸ Nat.lt_of_mul_lt_mul_left hk')
    rw [List.getElem?_append_left (List.getElem?_eq_some_iff.1 hi).1, hi]
  · obtain ⟨hreceived, hall⟩ := hrec.popped p hp
    have hmem : ∀ k, cfg.pageSize * k < p.superpage.size → k ∈ t.completedPages p.serial := fun k hk => by
      obtain ⟨page, hpage, hticket⟩ := hall k hk
      exact mem_completedPages.2 ⟨page, hdone page hpage, hticket⟩
    refine ⟨?_, hmem⟩
    rw [hreceived]
    by_contra hmore
    -- there would be one more
    have hsucc := le_card_completedPages fun k (hk : k < (t.completedPages p.serial).card + 1) => hmem k
      (Nat.lt_of_le_of_lt (Nat.mul_le_mul_left _ (Nat.le_of_lt_succ hk)) (Nat.lt_of_not_le hmore))
    exact absurd hsucc (Nat.not_succ_le_self _)

/-- **What is received has arrived**, if the initial pages do while the start waits for them, superpages are of whole
pages, and what the card writes are arrivals. -/
theorem received_arrived (cfg : Config) (s : Channel) (as : List Action)
    (hl : Legal (step cfg) (fun t a => Waited t a ∧ Divides cfg t a ∧ Good a) (start s) as) {t : Traced}
    (hr : run (step cfg) (start s) as = some t) : Arrived cfg t := by
  obtain ⟨first, filled, done, pushing, hphase⟩ :=
    run_keeps (I := Inv True cfg) (fun t a t' hinv hok hstep =>
      inv_step_of_some a hinv hok.2.1 hok.2.2 (fun _ => hok.1) hstep) as (start s) t (inv_start True cfg s) hl hr
  exact hphase.arrived

theorem received_arrived_twoSuperpages : ∃ t, run (step CrorcSession.smallBuffer) (start CrorcSession.powerOn)
    twoSuperpages = some t ∧ Arrived CrorcSession.smallBuffer t := by
  have hwaited : Legal (step CrorcSession.smallBuffer) Waited (start CrorcSession.powerOn) twoSuperpages := by
    decide +kernel
  have hsome : (run (step CrorcSession.smallBuffer) (start CrorcSession.powerOn) twoSuperpages).isSome := by
    decide +kernel
  obtain ⟨t, hr⟩ := Option.isSome_iff_exists.1 hsome
  exact ⟨t, hr, received_arrived CrorcSession.smallBuffer CrorcSession.powerOn twoSuperpages
    (hwaited.and fun a ha t => (twoSuperpages_rules a ha t).2) hr⟩

/-- A superpage is pushed and taken out, and nothing arrives. -/
def nothingArrives : List Action :=
  [.push ⟨0, 2 ^ 20, 7, 0, false⟩, .fill { CrorcSession.wholeStart with writes := [] } [], .pop]

theorem nothingArrives_popped : (run (step CrorcSession.smallBuffer) (start CrorcSession.powerOn) nothingArrives).map
    (fun t => (t.popped.map fun p => (p.serial, p.superpage.received), t.done)) = some ([(0, 2 ^ 20)], []) := by
  decide +kernel

/-- **It is received all the same**: the wait for the initial pages only logs that they have not arrived. -/
theorem nothingArrives_received :
    ∃ t, run (step CrorcSession.smallBuffer) (start CrorcSession.powerOn) nothingArrives = some t ∧
      ¬Arrived CrorcSession.smallBuffer t := by
  have hpopped := nothingArrives_popped
  cases hr : run (step CrorcSession.smallBuffer) (start CrorcSession.powerOn) nothingArrives with
  | none =>
    rw [hr] at hpopped
    cases hpopped
  | some t =>
    rw [hr, Option.map_some] at hpopped
    obtain ⟨hlist, hdone⟩ := Prod.mk.inj (Option.some.inj hpopped)
    refine ⟨t, rfl, fun h => ?_⟩
    obtain ⟨p, hp, hpage⟩ := List.map_eq_singleton_iff.1 hlist
    obtain ⟨-, hreceived⟩ := Prod.mk.inj hpage
    have hsize := (h.popped p (by rw [hp]; exact List.mem_cons_self)).1
    rw [hreceived, completedPages, hdone, List.filter_nil] at hsize
    exact absurd hsize (by decide)

end Traced
end Rorc
end Flp
