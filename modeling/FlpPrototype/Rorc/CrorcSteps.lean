import FlpPrototype.Rorc.CrorcInvariant
/-!
# CrorcSteps — what each operation of the channel does to the pages in flight

Pushing a page adds it behind the pages in flight, taking an arrival takes the first of them; filling superpages is
some of the one and then some of the other.  No operation of the queue fails on the way.
-/
namespace Flp
namespace Rorc

open SuperpageQueue (Represents)

variable {cfg : Config} {s s' s'' : Channel} {first c : Nat} {filled done pushing later : List (Flight cfg.pageSize)}

/-! ## Pushing pages -/

/-- `n` pages have been pushed: the card has them to do behind the others. -/
structure Pushed (s s' : Channel) (n : Nat) : Prop where
  size : s'.mFifoSize = s.mFifoSize + n
  back : s'.mFifoBack = s.mFifoBack
  pending : s'.mPendingDmaStart = s.mPendingDmaStart
  todo : s'.freeFifo = s.freeFifo ++
    (List.range' s.mFifoSize n).map (fun j => (s.mFifoBack + j) % READYFIFO_ENTRIES)

theorem Pushed.refl (s : Channel) : Pushed s s 0 := ⟨rfl, rfl, rfl, by simp⟩

theorem Pushed.trans {m n : Nat} (h : Pushed s s' m) (h' : Pushed s' s'' n) : Pushed s s'' (m + n) := by
  refine ⟨by rw [h'.size, h.size, Nat.add_assoc], h'.back.trans h.back, h'.pending.trans h.pending, ?_⟩
  rw [h'.todo, h.todo, h.size, h.back, List.append_assoc, ← List.map_append, List.range'_append_1]

theorem Pushed.completed {n : Nat} (h : Pushed s s' n) (hr : s'.readyFifo = s.readyFifo) (hc : Completed s c) :
    Completed s' c := by
  have hle := hc.le
  refine ⟨by rw [h.size]; omega, ?_, by rw [hr, h.back]; exact hc.whole, by rw [hr, h.back]; exact hc.idle⟩
  have hrange := List.range'_append_1 (s := c) (m := s.mFifoSize - c) (n := n)
  rw [show c + (s.mFifoSize - c) = s.mFifoSize by omega,
    show s.mFifoSize - c + n = s.mFifoSize + n - c by omega] at hrange
  rw [h.todo, hc.todo, h.size, h.back, ← List.map_append, hrange]

/-- The id of the superpage behind the filled ones and those completely pushed. -/
def pushingId (first : Nat) (filled done : List (Flight cfg.pageSize)) : Nat :=
  (first + filled.length + done.length) % MAX_SUPERPAGES

theorem entries_pushing {f : Flight cfg.pageSize} :
    (filled.map Flight.entry ++ (done ++ f :: later).map Flight.entry)[filled.length + done.length]? =
      some f.entry := by
  rw [List.getElem?_append_right (by simp), List.length_map, Nat.add_sub_cancel_left, List.getElem?_map]
  simp

theorem registry_pushing {f : Flight cfg.pageSize} (h : Core cfg s first filled done (f :: later)) :
    s.mSuperpageQueue.mRegistry (pushingId first filled done) = f.entry := by
  rw [pushingId, Nat.add_assoc]
  exact h.lists.queue.entries _ _ entries_pushing

theorem map_set_pushing {f g : Flight cfg.pageSize} :
    ((done ++ f :: later).map Flight.entry).set done.length g.entry = (done ++ g :: later).map Flight.entry := by
  simp

theorem pagesInFlight_pushing {a : Nat} {f : Flight cfg.pageSize} (hl : ∀ g ∈ later, g.pushed = 0) :
    pagesInFlight a (done ++ f :: later) = pagesInFlight a done ++ f.inFlight ((a + done.length) % MAX_SUPERPAGES) := by
  rw [pagesInFlight_append, pagesInFlight, pagesInFlight_untouched _ hl, List.append_nil]

/-- **A page is pushed** behind the pages in flight. -/
theorem pushIntoSuperpage_spec {f : Flight cfg.pageSize} (h : Core cfg s first filled done (f :: later))
    (hf : f.pushed + 1 ≤ f.pages) (hroom : s.mFifoSize < READYFIFO_ENTRIES) :
    ∃ s', s.pushIntoSuperpage cfg (pushingId first filled done) = .ok s' ∧
      Core cfg s' first filled done (f.push 1 hf :: later) ∧ Pushed s s' 1 ∧ s'.readyFifo = s.readyFifo := by
  have hreg := registry_pushing h
  have hcond : s.mFifoSize < READYFIFO_ENTRIES ∧ f.entry.pushedPages < f.entry.maxPages :=
    ⟨hroom, by show (f.pushed : Int) < f.pages; omega⟩
  have hentry : ({ f.entry with pushedPages := f.entry.pushedPages + 1 } : Entry) = (f.push 1 hf).entry := rfl
  have hflight : pagesInFlight (first + filled.length) (done ++ f.push 1 hf :: later) =
      pagesInFlight (first + filled.length) (done ++ f :: later) ++
        [f.page (pushingId first filled done) f.pushed] := by
    have hl : ∀ g ∈ later, g.pushed = 0 := h.lists.untouched
    rw [pagesInFlight_pushing hl, pagesInFlight_pushing hl, f.inFlight_push, List.append_assoc]
    rfl
  refine ⟨_, by rw [Channel.pushIntoSuperpage, hreg, if_pos hcond], ?_, ?_⟩
  · refine ⟨⟨?_, h.lists.full, h.lists.done_pushed, ?_, h.lists.untouched⟩, ?_, ?_, h.fifoBack_lt, ?_, h.credited⟩
    · rw [hentry]
      have hset := SuperpageQueue.setEntry_spec h.lists.queue (j := done.length) (e := (f.push 1 hf).entry) (by simp)
        (Flight.isValid_entry _)
      rw [List.length_map, map_set_pushing] at hset
      exact hset
    · intro g hg
      rcases List.mem_append.1 hg with hg | hg
      · exact h.lists.waiting g (List.mem_append_left _ hg)
      · rcases List.mem_cons.1 hg with rfl | hg
        · exact h.lists.waiting f (List.mem_append_right _ List.mem_cons_self)
        · exact h.lists.waiting g (List.mem_append_right _ (List.mem_cons_of_mem _ hg))
    · show s.mFifoSize + 1 = _
      rw [hflight, List.length_append, ← h.fifoSize]
      rfl
    · exact hroom
    · intro j p hp
      show Function.update s.slot s.getFifoFront _ _ = p
      rw [hflight] at hp
      by_cases hj : j < s.mFifoSize
      · rw [List.getElem?_append_left (by rw [← h.fifoSize]; exact hj)] at hp
        rw [Function.update_of_ne (fun heq => by have := index_inj (by omega) hroom heq; omega)]
        exact h.slots j p hp
      · have hlt := (List.getElem?_eq_some_iff.1 hp).1
        rw [List.length_append, ← h.fifoSize, List.length_singleton] at hlt
        obtain rfl : j = s.mFifoSize := by omega
        rw [List.getElem?_append_right (by rw [← h.fifoSize]), ← h.fifoSize, Nat.sub_self] at hp
        rw [← Option.some.inj hp]
        exact Function.update_self _ _ _
  · exact ⟨⟨rfl, rfl, rfl, rfl⟩, rfl⟩

theorem Flight.push_push (f : Flight cfg.pageSize) {n : Nat} (h : f.pushed + 1 ≤ f.pages)
    (h' : (f.push 1 h).pushed + n ≤ (f.push 1 h).pages) (h'' : f.pushed + (n + 1) ≤ f.pages) :
    (f.push 1 h).push n h' = f.push (n + 1) h'' := by
  have hsum : f.pushed + 1 + n = f.pushed + (n + 1) := by omega
  exact Flight.ext rfl rfl hsum rfl rfl

theorem pushPages_spec : ∀ (n : Nat) {s : Channel} {f : Flight cfg.pageSize},
    Core cfg s first filled done (f :: later) → ∀ hf : f.pushed + n ≤ f.pages, s.mFifoSize + n ≤ READYFIFO_ENTRIES →
    ∃ s', Channel.pushPages cfg (pushingId first filled done) n s = .ok s' ∧
      Core cfg s' first filled done (f.push n hf :: later) ∧ Pushed s s' n ∧ s'.readyFifo = s.readyFifo
  | 0, s, f, h, hf, _ => ⟨s, rfl, h, .refl s, rfl⟩
  | n + 1, s, f, h, hf, hroom => by
    obtain ⟨s₁, h₁, hcore, hp, hr⟩ := pushIntoSuperpage_spec h (by omega) (by omega)
    obtain ⟨s₂, h₂, hcore₂, hp₂, hr₂⟩ := pushPages_spec n hcore (by show f.pushed + 1 + n ≤ f.pages; omega)
      (by rw [hp.size]; omega)
    refine ⟨s₂, by rw [Channel.pushPages, h₁]; exact h₂, ?_, ?_, hr₂.trans hr⟩
    · rwa [Flight.push_push f (by omega) (by show f.pushed + 1 + n ≤ f.pages; omega) hf] at hcore₂
    · have := hp.trans hp₂
      rwa [Nat.add_comm 1 n] at this

/-- The initial pages are pushed likewise, with the Ready FIFO's entries reset. -/
theorem pushInitialPages_spec : ∀ (n i : Nat) {s : Channel} {f : Flight cfg.pageSize},
    Core cfg s first filled done (f :: later) → ∀ hf : f.pushed + n ≤ f.pages, s.mFifoSize + n ≤ READYFIFO_ENTRIES →
    ∃ s', Channel.pushInitialPages cfg (pushingId first filled done) i n s = .ok s' ∧
      Core cfg s' first filled done (f.push n hf :: later) ∧ Pushed s s' n ∧
      ∀ j, s'.readyFifo j = if i ≤ j ∧ j < i + n then .reset else s.readyFifo j
  | 0, i, s, f, h, hf, _ => ⟨s, rfl, h, .refl s, fun j => by rw [if_neg (by omega)]⟩
  | n + 1, i, s, f, h, hf, hroom => by
    obtain ⟨s₁, h₁, hcore, hp, hr⟩ := pushIntoSuperpage_spec
      (h.card (Function.update s.readyFifo i .reset) s.freeFifo) (by omega) (by show s.mFifoSize < _; omega)
    obtain ⟨s₂, h₂, hcore₂, hp₂, hr₂⟩ := pushInitialPages_spec n (i + 1) hcore
      (by show f.pushed + 1 + n ≤ f.pages; omega) (by rw [hp.size]; show s.mFifoSize + 1 + n ≤ _; omega)
    refine ⟨s₂, by rw [Channel.pushInitialPages, h₁]; exact h₂, ?_, ?_, fun j => ?_⟩
    · rwa [Flight.push_push f (by omega) (by show f.pushed + 1 + n ≤ f.pages; omega) hf] at hcore₂
    · have hp' : Pushed s s₁ 1 := ⟨hp.size, hp.back, hp.pending, hp.todo⟩
      have := hp'.trans hp₂
      rwa [Nat.add_comm 1 n] at this
    · rw [hr₂ j, hr]
      show (if i + 1 ≤ j ∧ j < i + 1 + n then _ else Function.update s.readyFifo i .reset j) = _
      by_cases hj : j = i
      · rw [if_neg (by omega), hj, Function.update_self, if_pos (by omega)]
      · rw [Function.update_of_ne hj]
        by_cases hin : i + 1 ≤ j ∧ j < i + 1 + n
        · rw [if_pos hin, if_pos (by omega)]
        · rw [if_neg hin, if_neg (by omega)]

theorem removePushed_all {f : Flight cfg.pageSize} (h : Core cfg s first filled done (f :: later))
    (hf : f.pushed = f.pages) :
    ∃ q, s.removePushed (pushingId first filled done) = .ok { s with mSuperpageQueue := q } ∧
      Core cfg { s with mSuperpageQueue := q } first filled (done ++ [f]) later := by
  have hget :
    ((done ++ f :: later).map Flight.entry)[((done ++ f :: later).map Flight.entry).length - (f :: later).length]? =
      some f.entry := by
    rw [show ((done ++ f :: later).map Flight.entry).length - (f :: later).length = done.length by simp]
    simp
  obtain ⟨q, hq, hrep⟩ := SuperpageQueue.removeFromPushingQueue_spec h.lists.queue (Nat.succ_pos _) hget
    (by rw [Flight.isPushed_entry]; exact decide_eq_true hf)
  have hl : done ++ [f] ++ later = done ++ f :: later := by simp
  refine ⟨q, ?_, ?_⟩
  · rw [Channel.removePushed, registry_pushing h, Flight.isPushed_entry, if_pos (decide_eq_true hf), hq]
    rfl
  refine ⟨⟨?_, h.lists.full, ?_, by rw [hl]; exact h.lists.waiting,
    fun g hg => h.lists.untouched g (List.mem_of_mem_tail hg)⟩, by rw [hl]; exact h.fifoSize, h.fifoSize_le,
    h.fifoBack_lt, by rw [hl]; exact h.slots, h.credited⟩
  · rw [hl]
    exact hrep
  · intro g hg
    rcases List.mem_append.1 hg with hg | hg
    · exact h.lists.done_pushed g hg
    · rw [List.mem_singleton.1 hg]
      exact hf

/-- After pages were pushed only superpages that have some left are in the pushing queue. -/
theorem removePushed_spec {f : Flight cfg.pageSize} (h : Core cfg s first filled done (f :: later))
    (hlater : ∀ g ∈ later, g.pushed < g.pages) :
    ∃ q done' pushing', s.removePushed (pushingId first filled done) = .ok { s with mSuperpageQueue := q } ∧
      Core cfg { s with mSuperpageQueue := q } first filled done' pushing' ∧ done' ++ pushing' = done ++ f :: later ∧
      (∀ g ∈ pushing', g.pushed < g.pages) := by
  by_cases hall : f.pushed = f.pages
  · obtain ⟨q, hq, hcore⟩ := removePushed_all h hall
    exact ⟨q, done ++ [f], later, hq, hcore, by simp, hlater⟩
  · refine ⟨s.mSuperpageQueue, done, f :: later, ?_, h, rfl, fun g hg => ?_⟩
    · rw [Channel.removePushed, registry_pushing h, Flight.isPushed_entry, decide_eq_false hall,
        if_neg Bool.false_ne_true]
    · rcases List.mem_cons.1 hg with rfl | hg
      · have := g.pushed_le
        omega
      · exact hlater g hg

/-! ## Taking an arrival -/

/-- What is written into the entry of a superpage of which `n` more pages have arrived. -/
theorem entry_arrive (f : Flight P) {n : Nat} (h : f.arrived + n ≤ f.pushed) :
    wrap64 (f.entry.superpage.received + n * P) = (f.arrived + n) * P ∧
      decide (wrap64 (f.entry.superpage.received + n * P) = f.entry.superpage.size) =
        decide (f.arrived + n = f.pages) := by
  have hsum : f.entry.superpage.received + n * P = (f.arrived + n) * P := (Nat.add_mul _ _ _).symm
  have hle : (f.arrived + n) * P ≤ f.pages * P := Nat.mul_le_mul_right P (h.trans f.pushed_le)
  have hsmall := f.small
  have hwrap : wrap64 (f.entry.superpage.received + n * P) = (f.arrived + n) * P := by
    rw [hsum, wrap64, Nat.mod_eq_of_lt (by rw [f.size_eq] at hsmall; omega)]
  refine ⟨hwrap, ?_⟩
  rw [hwrap]
  refine decide_eq_decide.2 ?_
  show (f.arrived + n) * P = f.superpage.size ↔ _
  rw [f.size_eq]
  exact ⟨fun he => Nat.eq_of_mul_eq_mul_right f.page_pos he, fun he => by rw [he]⟩

/-- As long as pages are in flight the superpage at the front has one. -/
theorem Core.arrived_lt {f : Flight cfg.pageSize} {rest : List (Flight cfg.pageSize)}
    (h : Core cfg s first filled done pushing) (hsplit : done ++ pushing = f :: rest) (hpos : 0 < s.mFifoSize) :
    f.arrived < f.pushed := by
  by_contra hnot
  have hle := f.arrived_le
  have heq : f.pushed = f.arrived := by omega
  have hwait := h.lists.waiting f (by rw [hsplit]; exact List.mem_cons_self)
  cases done with
  | cons g gs =>
    obtain ⟨rfl, -⟩ := List.cons.inj hsplit
    have := h.lists.done_pushed g List.mem_cons_self
    omega
  | nil =>
    rw [List.nil_append] at hsplit
    have hrest : ∀ g ∈ rest, g.pushed = 0 := by
      have := h.lists.untouched
      rwa [hsplit] at this
    have hsize := h.fifoSize
    rw [List.nil_append, hsplit, pagesInFlight, f.inFlight_eq_nil _ heq, pagesInFlight_untouched _ hrest] at hsize
    rw [hsize] at hpos
    cases hpos

/-- What the superpages in the queue are known by, oldest first. -/
def keys (filled done pushing : List (Flight P)) : List (Nat × Nat × Nat) :=
  (filled ++ (done ++ pushing)).map Flight.key

theorem keys_arrive {f : Flight P} {filled done pushing filled' done' pushing' rest : List (Flight P)} {n : Nat}
    {hlt : f.arrived + n ≤ f.pushed} (hsplit : done ++ pushing = f :: rest)
    (hsame : filled' ++ (done' ++ pushing') = filled ++ f.arrive n hlt :: rest) :
    keys filled' done' pushing' = keys filled done pushing := by
  rw [keys, keys, hsame, hsplit, List.map_append, List.map_append]
  rfl

/-- What `n` more pages of a superpage do: its entry is written, and a full superpage is moved on. -/
theorem receive_eq (s : Channel) (id : Nat) (f : Flight P) {n : Nat} (hlt : f.arrived + n ≤ f.pushed) :
    s.receive id f.entry (n * P) =
      if decide (f.arrived + n = f.pages) then
        (s.setEntry id (f.arrive n hlt).entry).onQueue
          ((s.mSuperpageQueue.setEntry id (f.arrive n hlt).entry).moveFromArrivalsToFilledQueue MAX_SUPERPAGES)
      else .ok (s.setEntry id (f.arrive n hlt).entry) := by
  obtain ⟨hreceived, hfilled⟩ := entry_arrive f hlt
  rw [hreceived] at hfilled
  rw [Channel.receive]
  simp only [hreceived, hfilled]
  rfl

/-- The entry of the oldest superpage that waits is written. -/
theorem Lists.setEntry {q : SuperpageQueue} {f : Flight P} {filled done pushing rest : List (Flight P)} {n : Nat}
    (h : Lists q first filled done pushing) (hsplit : done ++ pushing = f :: rest) (hlt : f.arrived + n ≤ f.pushed) :
    Represents MAX_SUPERPAGES (q.setEntry ((first + filled.length) % MAX_SUPERPAGES) (f.arrive n hlt).entry) first
      (filled.map Flight.entry) ((f.arrive n hlt :: rest).map Flight.entry) pushing.length := by
  have hqueue := h.queue
  rw [hsplit, List.map_cons] at hqueue
  have hset := SuperpageQueue.setEntry_spec hqueue (j := 0) (e := (f.arrive n hlt).entry) (Nat.succ_pos _)
    (Flight.isValid_entry _)
  rw [List.length_map, Nat.add_zero, List.set_cons_zero] at hset
  exact hset

/-- With its last pages a superpage that was pushed completely is filled. -/
theorem Lists.fill {q : SuperpageQueue} {f : Flight P} {filled done pushing : List (Flight P)} {n : Nat}
    (h : Lists q first filled (f :: done) pushing) (hlt : f.arrived + n ≤ f.pushed) (hlast : f.arrived + n = f.pages) :
    ∃ q', (q.setEntry ((first + filled.length) % MAX_SUPERPAGES)
        (f.arrive n hlt).entry).moveFromArrivalsToFilledQueue MAX_SUPERPAGES = .ok q' ∧
      Lists q' first (filled ++ [f.arrive n hlt]) done pushing := by
  have hready : (f.arrive n hlt).entry.superpage.ready = true := by
    show (f.superpage.ready || decide (f.arrived + n = f.pages)) = true
    rw [decide_eq_true hlast, Bool.or_true]
  obtain ⟨q', hq, hrep⟩ := SuperpageQueue.moveFromArrivalsToFilledQueue_spec (h.setEntry rfl hlt) (by simp) hready
  refine ⟨q', hq, by rw [List.map_append]; exact hrep, fun g hg => ?_,
    fun g hg => h.done_pushed g (List.mem_cons_of_mem _ hg), fun g hg => h.waiting g (List.mem_cons_of_mem _ hg),
    h.untouched⟩
  rcases List.mem_append.1 hg with hg | hg
  · exact h.full g hg
  · rw [List.mem_singleton.1 hg]
    exact hlast

/-- With other pages the oldest superpage that waits goes on to wait. -/
theorem Lists.arrive {q : SuperpageQueue} {f : Flight P} {filled done pushing rest : List (Flight P)} {n : Nat}
    (h : Lists q first filled done pushing) (hsplit : done ++ pushing = f :: rest)
    (hopen : ∀ g ∈ pushing, g.pushed < g.pages) (hlt : f.arrived + n ≤ f.pushed) (hwait : f.arrived + n < f.pages) :
    ∃ done' pushing',
      Lists (q.setEntry ((first + filled.length) % MAX_SUPERPAGES) (f.arrive n hlt).entry) first filled done' pushing' ∧
      (∀ g ∈ pushing', g.pushed < g.pages) ∧ done' ++ pushing' = f.arrive n hlt :: rest := by
  have hset := h.setEntry hsplit hlt
  cases done with
  | cons g gs =>
    rw [List.cons_append] at hsplit
    obtain ⟨rfl, rfl⟩ := List.cons.inj hsplit
    refine ⟨g.arrive n hlt :: gs, pushing, ⟨hset, h.full, fun x hx => ?_, fun x hx => ?_, h.untouched⟩, hopen, rfl⟩
    · rcases List.mem_cons.1 hx with rfl | hx
      · exact h.done_pushed g List.mem_cons_self
      · exact h.done_pushed x (List.mem_cons_of_mem _ hx)
    · rcases List.mem_cons.1 hx with rfl | hx
      · exact hwait
      · exact h.waiting x (List.mem_cons_of_mem _ hx)
  | nil =>
    rw [List.nil_append] at hsplit
    subst hsplit
    refine ⟨[], f.arrive n hlt :: rest, ⟨hset, h.full, fun x hx => absurd hx List.not_mem_nil, fun x hx => ?_,
      h.untouched⟩, fun x hx => ?_, rfl⟩
    · rcases List.mem_cons.1 hx with rfl | hx
      · exact hwait
      · exact h.waiting x (List.mem_cons_of_mem _ hx)
    · rcases List.mem_cons.1 hx with rfl | hx
      · exact hopen f List.mem_cons_self
      · exact hopen x (List.mem_cons_of_mem _ hx)

/-- The oldest superpage that waits was pushed completely when its last pages have arrived. -/
theorem filled_was_done {f : Flight P} {done pushing rest : List (Flight P)} {n : Nat}
    (hsplit : done ++ pushing = f :: rest) (hopen : ∀ g ∈ pushing, g.pushed < g.pages)
    (hlt : f.arrived + n ≤ f.pushed) (hlast : f.arrived + n = f.pages) :
    ∃ done', done = f :: done' ∧ rest = done' ++ pushing := by
  cases done with
  | cons g gs =>
    rw [List.cons_append] at hsplit
    obtain ⟨rfl, rfl⟩ := List.cons.inj hsplit
    exact ⟨gs, rfl, rfl⟩
  | nil =>
    have hpushed := hopen f (by rw [List.nil_append] at hsplit; rw [hsplit]; exact List.mem_cons_self)
    omega

/-- **`n` more pages of the oldest superpage that waits have arrived**: it waits on, or it was pushed completely and is
filled now. -/
theorem receive_spec {f : Flight P} {filled done pushing rest : List (Flight P)} {n : Nat}
    (h : Lists s.mSuperpageQueue first filled done pushing) (hsplit : done ++ pushing = f :: rest)
    (hopen : ∀ g ∈ pushing, g.pushed < g.pages) (hlt : f.arrived + n ≤ f.pushed) :
    ∃ (q : SuperpageQueue) (filled' done' pushing' : List (Flight P)),
      s.receive ((first + filled.length) % MAX_SUPERPAGES) f.entry (n * P) = .ok { s with mSuperpageQueue := q } ∧
      Lists q first filled' done' pushing' ∧ (∀ g ∈ pushing', g.pushed < g.pages) ∧
      filled' ++ (done' ++ pushing') = filled ++ f.arrive n hlt :: rest ∧
      pagesInFlight (first + filled'.length) (done' ++ pushing') =
        pagesInFlight (first + filled.length) (f.arrive n hlt :: rest) := by
  rw [receive_eq s _ f hlt]
  by_cases hlast : f.arrived + n = f.pages
  · obtain ⟨done', rfl, rfl⟩ := filled_was_done hsplit hopen hlt hlast
    obtain ⟨q, hq, hlists⟩ := h.fill hlt hlast
    have hpushed : f.pushed = f.pages := h.done_pushed f List.mem_cons_self
    have hnil : (f.arrive n hlt).inFlight ((first + filled.length) % MAX_SUPERPAGES) = [] :=
      Flight.inFlight_eq_nil _ _ (by show f.pushed = f.arrived + n; omega)
    refine ⟨q, filled ++ [f.arrive n hlt], done', pushing, ?_, hlists, hopen, by simp, ?_⟩
    · rw [decide_eq_true hlast, if_pos rfl, hq]
      rfl
    · rw [pagesInFlight, hnil, List.nil_append, List.length_append, List.length_singleton, Nat.add_assoc]
  · have hwait : f.arrived + n < f.pages := by
      have hle := f.pushed_le
      omega
    obtain ⟨done', pushing', hlists, hopen', hsame⟩ := h.arrive hsplit hopen hlt hwait
    refine ⟨_, filled, done', pushing', ?_, hlists, hopen', by rw [hsame], by rw [hsame]⟩
    rw [decide_eq_false hlast, if_neg Bool.false_ne_true]
    rfl

/-- The channel after an arrival, but for the entry credited. -/
def afterArrival (s : Channel) (credit : Credit) : Channel :=
  { s with
    credits := s.credits ++ [credit]
    readyFifo := Function.update s.readyFifo s.mFifoBack .reset
    mFifoSize := s.mFifoSize - 1
    mFifoBack := (s.mFifoBack + 1) % READYFIFO_ENTRIES }

theorem afterArrival_completed {credit : Credit} (hb : s.mFifoBack < READYFIFO_ENTRIES)
    (hle : s.mFifoSize ≤ READYFIFO_ENTRIES) (h : Completed s (c + 1)) : Completed (afterArrival s credit) c := by
  have hc := h.le
  have hshift : ∀ j, ((s.mFifoBack + 1) % READYFIFO_ENTRIES + j) % READYFIFO_ENTRIES =
      (s.mFifoBack + (j + 1)) % READYFIFO_ENTRIES := fun j => by
    rw [Nat.mod_add_mod, Nat.add_assoc, Nat.add_comm 1 j]
  have hback : s.mFifoBack = (s.mFifoBack + 0) % READYFIFO_ENTRIES := by rw [Nat.add_zero, Nat.mod_eq_of_lt hb]
  have other : ∀ j, j + 1 < READYFIFO_ENTRIES →
      Function.update s.readyFifo s.mFifoBack .reset ((s.mFifoBack + (j + 1)) % READYFIFO_ENTRIES) =
        s.readyFifo ((s.mFifoBack + (j + 1)) % READYFIFO_ENTRIES) := fun j hj =>
    Function.update_of_ne (fun heq => by have := index_inj hj (by decide) (heq.trans hback); omega) _ _
  refine ⟨by show c ≤ s.mFifoSize - 1; omega, ?_, fun j hj => ?_, fun j hj hj' => ?_⟩
  · show s.freeFifo = (List.range' c (s.mFifoSize - 1 - c)).map
      (fun j => ((s.mFifoBack + 1) % READYFIFO_ENTRIES + j) % READYFIFO_ENTRIES)
    rw [h.todo, show s.mFifoSize - 1 - c = s.mFifoSize - (c + 1) by omega]
    refine List.ext_getElem (by simp) (fun i h₁ h₂ => ?_)
    simp only [List.getElem_map, List.getElem_range', hshift]
    congr 1
    omega
  · show ∃ w : WholeStatus, (Function.update s.readyFifo s.mFifoBack .reset
      (((s.mFifoBack + 1) % READYFIFO_ENTRIES + j) % READYFIFO_ENTRIES)).status = w.word
    rw [hshift, other j (by omega)]
    exact h.whole (j + 1) (by omega)
  · show (Function.update s.readyFifo s.mFifoBack .reset
      (((s.mFifoBack + 1) % READYFIFO_ENTRIES + j) % READYFIFO_ENTRIES)).status = -1 ∨ (Function.update s.readyFifo
      s.mFifoBack .reset (((s.mFifoBack + 1) % READYFIFO_ENTRIES + j) % READYFIFO_ENTRIES)).status = 0
    rw [hshift]
    by_cases hlast : j + 1 < READYFIFO_ENTRIES
    · rw [other j hlast]
      exact h.idle (j + 1) (by omega) hlast
    · -- the index behind the last is the one just reset
      rw [show j + 1 = READYFIFO_ENTRIES by omega, Nat.add_mod_right, Nat.mod_eq_of_lt hb, Function.update_self]
      exact .inl rfl

/-- The record of an arrival. -/
def creditOf (s : Channel) (id : Nat) (entry : Entry) : Credit :=
  ⟨s.mFifoBack, s.slot s.mFifoBack, id, entry.superpage.received, entry.busAddress,
    (s.readyFifo s.mFifoBack).length * 4⟩

/-- **An arrival is taken**: it is credited to the superpage of the first page in flight, whatever the card has done. -/
theorem takeArrival_core {f : Flight cfg.pageSize} {rest : List (Flight cfg.pageSize)}
    (h : Core cfg s first filled done pushing) (hsplit : done ++ pushing = f :: rest)
    (hopen : ∀ g ∈ pushing, g.pushed < g.pages) (hpos : 0 < s.mFifoSize) :
    ∃ q filled' done' pushing', ∃ hlt : f.arrived + 1 ≤ f.pushed,
      s.takeArrival cfg ((first + filled.length) % MAX_SUPERPAGES) f.entry = .ok
        { afterArrival s (creditOf s ((first + filled.length) % MAX_SUPERPAGES) f.entry) with mSuperpageQueue := q } ∧
      Core cfg
        { afterArrival s (creditOf s ((first + filled.length) % MAX_SUPERPAGES) f.entry) with mSuperpageQueue := q }
        first filled' done' pushing' ∧
      (∀ g ∈ pushing', g.pushed < g.pages) ∧
      filled' ++ (done' ++ pushing') = filled ++ f.arrive 1 hlt :: rest := by
  have hlt : f.arrived + 1 ≤ f.pushed := h.arrived_lt hsplit hpos
  -- the first page in flight is the one credited
  have hflight : pagesInFlight (first + filled.length) (done ++ pushing) =
      f.page ((first + filled.length) % MAX_SUPERPAGES) f.arrived ::
        pagesInFlight (first + filled.length) (f.arrive 1 hlt :: rest) := by
    rw [hsplit, pagesInFlight, f.inFlight_arrive _ hlt, List.cons_append]
    rfl
  have hslot : s.slot s.mFifoBack = f.page ((first + filled.length) % MAX_SUPERPAGES) f.arrived := by
    have := h.slots 0 _ (by rw [hflight]; rfl)
    rwa [Nat.add_zero, Nat.mod_eq_of_lt h.fifoBack_lt] at this
  have hlists : Lists (afterArrival s (creditOf s ((first + filled.length) % MAX_SUPERPAGES) f.entry)).mSuperpageQueue
      first filled done pushing := h.lists
  obtain ⟨q, filled', done', pushing', hstep, hlists', hopen', hsame, hpages⟩ :=
    receive_spec hlists hsplit hopen hlt
  rw [Nat.one_mul] at hstep
  refine ⟨q, filled', done', pushing', hlt, hstep,
    ⟨hlists', ?_, ?_, Nat.mod_lt _ (by decide), ?_, ?_⟩, hopen', hsame⟩
  · have := h.fifoSize
    rw [hflight, List.length_cons] at this
    rw [hpages]
    show s.mFifoSize - 1 = _
    omega
  · have := h.fifoSize_le
    show s.mFifoSize - 1 ≤ _
    omega
  · intro j p hp
    rw [hpages] at hp
    show s.slot (((s.mFifoBack + 1) % READYFIFO_ENTRIES + j) % READYFIFO_ENTRIES) = p
    rw [Nat.mod_add_mod, Nat.add_assoc, Nat.add_comm 1 j]
    exact h.slots (j + 1) p (by rw [hflight, List.getElem?_cons_succ]; exact hp)
  · intro d hd
    rcases List.mem_append.1 hd with hd | hd
    · exact h.credited d hd
    · rw [List.mem_singleton.1 hd]
      show s.slot s.mFifoBack = ⟨(first + filled.length) % MAX_SUPERPAGES, f.arrived * cfg.pageSize,
        wrap64 (f.busAddress + f.arrived * cfg.pageSize)⟩
      rw [hslot, Flight.page, Nat.mul_comm]

/-- An arrival the card has completed. -/
theorem takeArrival_spec {f : Flight cfg.pageSize} {rest : List (Flight cfg.pageSize)}
    (h : Core cfg s first filled done pushing) (hsplit : done ++ pushing = f :: rest)
    (hopen : ∀ g ∈ pushing, g.pushed < g.pages) (hc : Completed s (c + 1)) :
    ∃ s' filled' done' pushing',
      s.takeArrival cfg ((first + filled.length) % MAX_SUPERPAGES) f.entry = .ok s' ∧
      Core cfg s' first filled' done' pushing' ∧ (∀ g ∈ pushing', g.pushed < g.pages) ∧ Completed s' c ∧
      s'.mPendingDmaStart = s.mPendingDmaStart ∧ keys filled' done' pushing' = keys filled done pushing := by
  have hcle := hc.le
  obtain ⟨q, filled', done', pushing', hlt, htake, hcore, hopen', hsame⟩ :=
    takeArrival_core h hsplit hopen (by omega)
  have hcard : Completed (afterArrival s (creditOf s ((first + filled.length) % MAX_SUPERPAGES) f.entry)) c :=
    afterArrival_completed h.fifoBack_lt h.fifoSize_le hc
  exact ⟨_, filled', done', pushing', htake, hcore, hopen', ⟨hcard.le, hcard.todo, hcard.whole, hcard.idle⟩, rfl,
    keys_arrive hsplit hsame⟩

/-! ## Filling superpages -/

/-- The channel between two calls of which the first started the DMA: nothing is in the pushing queue that has been
pushed completely, and the card has completed the first `c` pages in flight. -/
structure Running (cfg : Config) (s : Channel) (first : Nat) (filled done pushing : List (Flight cfg.pageSize))
    (c : Nat) :
    Prop where
  core : Core cfg s first filled done pushing
  unfinished : ∀ f ∈ pushing, f.pushed < f.pages
  completed : Completed s c
  started : s.mPendingDmaStart = false

theorem getEntry_front {f : Flight cfg.pageSize} {rest : List (Flight cfg.pageSize)}
    (h : Core cfg s first filled done pushing) (hsplit : done ++ pushing = f :: rest) :
    (∃ tail, s.mSuperpageQueue.mArrivals = (first + filled.length) % MAX_SUPERPAGES :: tail) ∧
      s.mSuperpageQueue.getEntry ((first + filled.length) % MAX_SUPERPAGES) = .ok f.entry := by
  have hqueue := h.lists.queue
  rw [hsplit, List.map_cons] at hqueue
  have hfront := SuperpageQueue.arrivals_front hqueue
  have hget := SuperpageQueue.getEntry_of hqueue (i := (filled.map Flight.entry).length) (e := f.entry) (by simp)
  rw [List.length_map] at hfront hget
  exact ⟨hfront, hget⟩

/-- **The loop over the arrivals** takes some of the completed pages, and fails at none. -/
theorem fillArrivals_spec : ∀ (turns : Nat) (during : List (List CardWrite)) {s : Channel}
    {filled done pushing : List (Flight cfg.pageSize)} {c : Nat}, Running cfg s first filled done pushing c →
    (∀ ws ∈ during, Arrivals ws) →
    ∃ s' filled' done' pushing' c', s.fillArrivals cfg turns during = .ok s' ∧
      Running cfg s' first filled' done' pushing' c' ∧ keys filled' done' pushing' = keys filled done pushing
  | 0, _, s, filled, done, pushing, c, h, _ => ⟨s, filled, done, pushing, c, rfl, h, rfl⟩
  | turns + 1, during, s, filled, done, pushing, c, h, hduring => by
    by_cases hz : s.mFifoSize = 0
    · exact ⟨s, filled, done, pushing, c, by rw [Channel.fillArrivals, if_pos hz], h, rfl⟩
    · obtain ⟨r, free, hw⟩ := cardWrites_eq (during.headD []) s
      have hcard := cardWrites_completed (during.headD []) h.completed h.core.fifoSize_le (arrivals_headD hduring)
      rw [hw] at hcard
      have hcore := h.core.card r free
      obtain ⟨f, rest, hsplit⟩ : ∃ f rest, done ++ pushing = f :: rest := by
        cases hd : done ++ pushing with
        | nil =>
          have := h.core.fifoSize
          rw [hd] at this
          exact absurd this hz
        | cons f rest => exact ⟨f, rest, rfl⟩
      obtain ⟨⟨tail, hfront⟩, hget⟩ := getEntry_front h.core hsplit
      have hzero : (s.mFifoBack + 0) % READYFIFO_ENTRIES = s.mFifoBack := by
        rw [Nat.add_zero, Nat.mod_eq_of_lt h.core.fifoBack_lt]
      generalize hc : min s.mFifoSize (c + ((during.headD []).filter CardWrite.isWhole).length) = c₁ at hcard
      cases c₁ with
      | zero =>
        have hidle := hcard.idle 0 (Nat.le_refl 0) (by decide)
        simp only [hzero] at hidle
        refine ⟨_, filled, done, pushing, 0, ?_, ⟨hcore, h.unfinished, hcard, h.started⟩, rfl⟩
        rw [Channel.fillArrivals, if_neg hz, hw]
        simp only [hfront, hget]
        rcases dataArrived_idle (s := { s with readyFifo := r, freeFifo := free }) hidle with hd | hd
        · simp only [hd]
        · simp only [hd]
      | succ c₁ =>
        obtain ⟨w, hwhole⟩ := hcard.whole 0 (Nat.succ_pos _)
        simp only [hzero] at hwhole
        have hd := dataArrived_whole (s := { s with readyFifo := r, freeFifo := free }) hwhole
        obtain ⟨s₁, filled₁, done₁, pushing₁, htake, hcore₁, hopen₁, hcard₁, hpend₁, hkeys₁⟩ :=
          takeArrival_spec hcore hsplit h.unfinished hcard
        obtain ⟨s', filled', done', pushing', c', hfill, hrun, hkeys⟩ := fillArrivals_spec turns during.tail
          (⟨hcore₁, hopen₁, hcard₁, hpend₁.trans h.started⟩ : Running cfg s₁ first filled₁ done₁ pushing₁ c₁)
          (fun ws hws => hduring ws (List.mem_of_mem_tail hws))
        refine ⟨s', filled', done', pushing', c', ?_, hrun, hkeys.trans hkeys₁⟩
        rw [Channel.fillArrivals, if_neg hz, hw]
        simp only [hfront, hget, hd, htake]
        exact hfill

theorem pushing_eq_nil (h : Core cfg s first filled done []) : s.mSuperpageQueue.mPushing = [] := by
  rw [h.lists.queue.pushingIds, List.length_nil, SuperpageQueue.ids_zero]

theorem pushing_eq_cons {f : Flight cfg.pageSize} (h : Core cfg s first filled done (f :: later)) :
    (∃ tail, s.mSuperpageQueue.mPushing = pushingId first filled done :: tail) ∧
      s.mSuperpageQueue.getEntry (pushingId first filled done) = .ok f.entry := by
  obtain ⟨tail, hfront⟩ := SuperpageQueue.pushing_front h.lists.queue (Nat.succ_pos _)
  have hlen : ((done ++ f :: later).map Flight.entry).length - (f :: later).length = done.length := by simp
  rw [hlen, List.length_map] at hfront
  have hget := SuperpageQueue.getEntry_of h.lists.queue entries_pushing
  rw [← Nat.add_assoc] at hget
  exact ⟨⟨tail, hfront⟩, hget⟩

/-- **The first part of filling**, once the DMA runs: pages are pushed into the oldest superpage that has some left. -/
theorem fillPushing_spec (h : Running cfg s first filled done pushing c) (atStart : CardStart) :
    ∃ s' done' pushing', s.fillPushing cfg atStart = .ok s' ∧ Running cfg s' first filled done' pushing' c ∧
      keys filled done' pushing' = keys filled done pushing := by
  cases pushing with
  | nil => exact ⟨s, done, [], by rw [Channel.fillPushing, pushing_eq_nil h.core], h, rfl⟩
  | cons f later =>
    obtain ⟨⟨tail, hfront⟩, hget⟩ := pushing_eq_cons h.core
    have hle := h.core.fifoSize_le
    have hopen := h.unfinished f List.mem_cons_self
    have hn : (min ((READYFIFO_ENTRIES : Int) - s.mFifoSize) f.entry.getUnpushedPages).toNat =
        min (READYFIFO_ENTRIES - s.mFifoSize) (f.pages - f.pushed) := by
      show (min ((READYFIFO_ENTRIES : Int) - s.mFifoSize) ((f.pages : Int) - f.pushed)).toNat = _
      omega
    generalize hnum : min (READYFIFO_ENTRIES - s.mFifoSize) (f.pages - f.pushed) = n at hn
    have hf : f.pushed + n ≤ f.pages := by omega
    obtain ⟨s₁, h₁, hcore, hp, hr⟩ := pushPages_spec n h.core hf (by omega)
    have hcard := hp.completed hr h.completed
    have hlater : ∀ g ∈ later, g.pushed < g.pages := fun g hg => h.unfinished g (List.mem_cons_of_mem _ hg)
    obtain ⟨q, done', pushing', hq, hcore₂, hsplit, hopen₂⟩ := removePushed_spec hcore hlater
    refine ⟨_, done', pushing', ?_, ⟨hcore₂, hopen₂, ⟨hcard.le, hcard.todo, hcard.whole, hcard.idle⟩,
      hp.pending.trans h.started⟩, ?_⟩
    · rw [Channel.fillPushing]
      simp only [hfront, hget, h.started, hn, h₁, hq, Bool.false_eq_true, if_false]
    · rw [keys, keys, hsplit]
      simp [Flight.key, Superpage.key, Flight.push]

/-- **Filling superpages**, once pages have been pushed. -/
theorem fillSuperpages_spec {atStart : CardStart} (hpush : s.fillPushing cfg atStart = .ok s')
    (h : Running cfg s' first filled done pushing c) {during : List (List CardWrite)}
    (hduring : ∀ ws ∈ during, Arrivals ws) :
    ∃ s'' filled' done' pushing' c', s.fillSuperpages cfg atStart during = .ok s'' ∧
      Running cfg s'' first filled' done' pushing' c' ∧ keys filled' done' pushing' = keys filled done pushing := by
  unfold Channel.fillSuperpages
  rw [hpush]
  by_cases ha : s'.mSuperpageQueue.mArrivals = []
  · exact ⟨s', filled, done, pushing, c, by simp only [ha, if_true], h, rfl⟩
  · obtain ⟨s'', filled', done', pushing', c', hfill, hrun, hkeys⟩ := fillArrivals_spec s'.mFifoSize during h hduring
    exact ⟨s'', filled', done', pushing', c', by simp only [ha, if_false, hfill], hrun, hkeys⟩

end Rorc
end Flp
