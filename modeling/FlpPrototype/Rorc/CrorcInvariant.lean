import FlpPrototype.Rorc.CrorcDmaChannel
/-!
# CrorcInvariant — what links the descriptors, the pages and the superpages

A superpage on its way is a number of pages of which some have been pushed and of these some have arrived (`Flight`).
The pages pushed and not arrived, superpage after superpage, are the pages in flight: the ring of descriptors holds
them in this order from `mFifoBack` on (`Core`), and the card has completed the first few of them (`Completed`).
-/
namespace Flp
namespace Rorc

open SuperpageQueue (Represents)

/-- What a superpage is known by, whatever has arrived of it. -/
def Superpage.key (p : Superpage) : Nat × Nat × Nat := (p.offset, p.size, p.userData)

/-- A superpage of whole pages, how many of them have been pushed, and how many have arrived. -/
@[ext] structure Flight (P : Nat) where
  superpage : Superpage
  busAddress : Nat
  pushed : Nat
  arrived : Nat
  pages : Nat
  size_eq : superpage.size = pages * P
  small : superpage.size < 2 ^ 64
  pos : 0 < pages
  page_pos : 0 < P
  arrived_le : arrived ≤ pushed
  pushed_le : pushed ≤ pages

namespace Flight

variable {P : Nat}

/-- The entry of such a superpage. -/
def entry (f : Flight P) : Entry :=
  { superpage := { f.superpage with received := f.arrived * P }
    busAddress := f.busAddress
    pushedPages := f.pushed
    maxPages := f.pages }

def key (f : Flight P) : Nat × Nat × Nat := f.superpage.key

/-- `n` more pages are pushed. -/
def push (f : Flight P) (n : Nat) (h : f.pushed + n ≤ f.pages) : Flight P :=
  { f with pushed := f.pushed + n, arrived_le := Nat.le_add_right_of_le f.arrived_le, pushed_le := h }

/-- `n` more pages have arrived; the last one makes the superpage ready. -/
def arrive (f : Flight P) (n : Nat) (h : f.arrived + n ≤ f.pushed) : Flight P :=
  { f with
    superpage := { f.superpage with ready := f.superpage.ready || decide (f.arrived + n = f.pages) }
    arrived := f.arrived + n
    size_eq := f.size_eq
    small := f.small
    arrived_le := h }

/-- Page `i` of the superpage known by `id`. -/
def page (f : Flight P) (id i : Nat) : Page := ⟨id, P * i, wrap64 (f.busAddress + P * i)⟩

/-- The pages that were pushed and have not arrived. -/
def inFlight (f : Flight P) (id : Nat) : List Page := (List.range' f.arrived (f.pushed - f.arrived)).map (f.page id)

@[simp] theorem isValid_entry (f : Flight P) : f.entry.isValid = true := by
  refine decide_eq_true ?_
  show (f.pushed : Int) ≠ -1
  omega

theorem isPushed_entry (f : Flight P) : f.entry.isPushed = decide (f.pushed = f.pages) := by
  exact decide_eq_decide.2 Int.natCast_inj

@[simp] theorem length_inFlight (f : Flight P) (id : Nat) : (f.inFlight id).length = f.pushed - f.arrived := by
  simp [inFlight]

theorem inFlight_push (f : Flight P) (id : Nat) (h : f.pushed + 1 ≤ f.pages) :
    (f.push 1 h).inFlight id = f.inFlight id ++ [f.page id f.pushed] := by
  have hle := f.arrived_le
  show (List.range' f.arrived (f.pushed + 1 - f.arrived)).map (f.page id) = _
  rw [show f.pushed + 1 - f.arrived = f.pushed - f.arrived + 1 by omega, List.range'_concat, List.map_append, inFlight]
  simp only [List.map_cons, List.map_nil, Nat.one_mul]
  rw [show f.arrived + (f.pushed - f.arrived) = f.pushed by omega]

theorem inFlight_arrive (f : Flight P) (id : Nat) (h : f.arrived + 1 ≤ f.pushed) :
    f.inFlight id = f.page id f.arrived :: (f.arrive 1 h).inFlight id := by
  show (List.range' f.arrived (f.pushed - f.arrived)).map (f.page id) =
    f.page id f.arrived :: (List.range' (f.arrived + 1) (f.pushed - (f.arrived + 1))).map (f.page id)
  rw [show f.pushed - f.arrived = f.pushed - (f.arrived + 1) + 1 by omega, List.range'_succ, List.map_cons]

theorem inFlight_eq_nil (f : Flight P) (id : Nat) (h : f.pushed = f.arrived) : f.inFlight id = [] :=
  List.eq_nil_of_length_eq_zero (by rw [length_inFlight]; omega)

end Flight

/-- The pages in flight of the superpages that wait for arrivals, the first of them having the `a`-th id. -/
def pagesInFlight {P : Nat} : Nat → List (Flight P) → List Page
  | _, []      => []
  | a, f :: fs => f.inFlight (a % MAX_SUPERPAGES) ++ pagesInFlight (a + 1) fs

variable {P : Nat}

theorem pagesInFlight_append : ∀ (a : Nat) (fs gs : List (Flight P)),
    pagesInFlight a (fs ++ gs) = pagesInFlight a fs ++ pagesInFlight (a + fs.length) gs
  | _, [], _ => rfl
  | a, f :: fs, gs => by
    rw [List.cons_append, pagesInFlight, pagesInFlight_append (a + 1) fs gs, pagesInFlight, List.append_assoc,
      List.length_cons, show a + 1 + fs.length = a + (fs.length + 1) by omega]

/-- Superpages of which no page was pushed have no page in flight. -/
theorem pagesInFlight_untouched : ∀ (a : Nat) {fs : List (Flight P)}, (∀ f ∈ fs, f.pushed = 0) → pagesInFlight a fs = []
  | _, [], _ => rfl
  | a, f :: fs, h => by
    have h0 := h f List.mem_cons_self
    have hle := f.arrived_le
    rw [pagesInFlight, f.inFlight_eq_nil _ (by omega), List.nil_append,
      pagesInFlight_untouched (a + 1) (fun g hg => h g (List.mem_cons_of_mem _ hg))]

/-! ## The invariant -/

/-- The queue holds the filled superpages, those completely pushed that wait (`done`), and those still pushed into, of
which only the first has been touched. -/
structure Lists (q : SuperpageQueue) (first : Nat) (filled done pushing : List (Flight P)) : Prop where
  queue : Represents MAX_SUPERPAGES q first (filled.map Flight.entry)
    ((done ++ pushing).map Flight.entry) pushing.length
  full : ∀ f ∈ filled, f.arrived = f.pages
  done_pushed : ∀ f ∈ done, f.pushed = f.pages
  waiting : ∀ f ∈ done ++ pushing, f.arrived < f.pages
  untouched : ∀ f ∈ pushing.tail, f.pushed = 0

/-- The ring of descriptors holds the pages in flight, and every arrival taken was credited to its page. -/
structure Core (cfg : Config) (s : Channel) (first : Nat) (filled done pushing : List (Flight cfg.pageSize)) :
    Prop where
  lists : Lists s.mSuperpageQueue first filled done pushing
  fifoSize : s.mFifoSize = (pagesInFlight (first + filled.length) (done ++ pushing)).length
  fifoSize_le : s.mFifoSize ≤ READYFIFO_ENTRIES
  fifoBack_lt : s.mFifoBack < READYFIFO_ENTRIES
  slots : ∀ j p, (pagesInFlight (first + filled.length) (done ++ pushing))[j]? = some p →
    s.slot ((s.mFifoBack + j) % READYFIFO_ENTRIES) = p
  credited : ∀ c ∈ s.credits, c.pushed = ⟨c.id, c.offset, wrap64 (c.busAddress + c.offset)⟩

/-- The card has completed the first `c` pages in flight and has the others to do, in this order. -/
structure Completed (s : Channel) (c : Nat) : Prop where
  le : c ≤ s.mFifoSize
  todo : s.freeFifo = (List.range' c (s.mFifoSize - c)).map (fun j => (s.mFifoBack + j) % READYFIFO_ENTRIES)
  whole : ∀ j < c, ∃ w : WholeStatus, (s.readyFifo ((s.mFifoBack + j) % READYFIFO_ENTRIES)).status = w.word
  idle : ∀ j, c ≤ j → j < READYFIFO_ENTRIES → (s.readyFifo ((s.mFifoBack + j) % READYFIFO_ENTRIES)).status = -1 ∨
    (s.readyFifo ((s.mFifoBack + j) % READYFIFO_ENTRIES)).status = 0

variable {cfg : Config} {s : Channel} {first c : Nat} {filled done pushing : List (Flight cfg.pageSize)}

theorem Core.card (h : Core cfg s first filled done pushing) (r : Nat → ReadyEntry) (free : List Nat) :
    Core cfg { s with readyFifo := r, freeFifo := free } first filled done pushing :=
  ⟨h.lists, h.fifoSize, h.fifoSize_le, h.fifoBack_lt, h.slots, h.credited⟩

/-! ## The card -/

theorem cardWrite_eq (s : Channel) (w : CardWrite) :
    ∃ r free, s.cardWrite w = { s with readyFifo := r, freeFifo := free } := by
  unfold Channel.cardWrite
  split
  · exact ⟨_, _, rfl⟩
  · cases w with
    | part l => exact ⟨_, _, rfl⟩
    | whole l st => exact ⟨_, _, rfl⟩

theorem cardWrites_eq : ∀ (ws : List CardWrite) (s : Channel),
    ∃ r free, s.cardWrites ws = { s with readyFifo := r, freeFifo := free }
  | [], s => ⟨_, _, rfl⟩
  | w :: ws, s => by
    obtain ⟨r, free, h⟩ := cardWrite_eq s w
    obtain ⟨r', free', h'⟩ := cardWrites_eq ws { s with readyFifo := r, freeFifo := free }
    exact ⟨r', free', by rw [Channel.cardWrites, List.foldl_cons, h]; exact h'⟩

/-- Descriptors that are not as far apart as the ring is long are different entries of the Ready FIFO. -/
theorem index_inj {b i j : Nat} (hi : i < READYFIFO_ENTRIES) (hj : j < READYFIFO_ENTRIES)
    (h : (b + i) % READYFIFO_ENTRIES = (b + j) % READYFIFO_ENTRIES) : i = j :=
  SuperpageQueue.id_inj (Nat.le_refl _) hi hj h

/-- An arrival of all of a page has a good status word. -/
theorem exists_wholeStatus {length status : Int32} (h : (CardWrite.whole length status).isWhole = true) :
    ∃ w : WholeStatus, status = w.word := by
  obtain ⟨hdtsw, hnoError⟩ := of_decide_eq_true h
  exact ⟨⟨status, hdtsw, hnoError⟩, rfl⟩

/-- **An arrival** completes the next page, or leaves as many completed. -/
theorem cardWrite_completed (h : Completed s c) (hle : s.mFifoSize ≤ READYFIFO_ENTRIES) (w : CardWrite)
    (hw : w.isArrival = true) :
    Completed (s.cardWrite w) (if w.isWhole ∧ c < s.mFifoSize then c + 1 else c) := by
  have hc := h.le
  unfold Channel.cardWrite
  by_cases hlt : c < s.mFifoSize
  · have htodo : s.freeFifo = (s.mFifoBack + c) % READYFIFO_ENTRIES ::
        (List.range' (c + 1) (s.mFifoSize - (c + 1))).map (fun j => (s.mFifoBack + j) % READYFIFO_ENTRIES) := by
      rw [h.todo, show s.mFifoSize - c = s.mFifoSize - (c + 1) + 1 by omega, List.range'_succ, List.map_cons]
    have other : ∀ (e : ReadyEntry) (j : Nat), j < READYFIFO_ENTRIES → j ≠ c →
        Function.update s.readyFifo ((s.mFifoBack + c) % READYFIFO_ENTRIES) e ((s.mFifoBack + j) % READYFIFO_ENTRIES) =
          s.readyFifo ((s.mFifoBack + j) % READYFIFO_ENTRIES) := fun e j hj hne =>
      Function.update_of_ne (fun heq => hne (index_inj hj (by omega) heq)) _ _
    rw [htodo]
    cases w with
    | part l =>
      simp only [CardWrite.isWhole, Bool.false_eq_true, false_and, if_false]
      refine ⟨hc, htodo.symm.trans h.todo, fun j hj => ?_, fun j hj hj' => ?_⟩
      · show ∃ w : WholeStatus, (Function.update s.readyFifo _ _ _).status = w.word
        rw [other _ j (by omega) (by omega)]
        exact h.whole j hj
      · show (Function.update s.readyFifo _ _ _).status = -1 ∨ (Function.update s.readyFifo _ _ _).status = 0
        by_cases hjc : j = c
        · rw [hjc, Function.update_self]
          exact .inr rfl
        · rw [other _ j hj' hjc]
          exact h.idle j hj hj'
    | whole l st =>
      have hwhole : (CardWrite.whole l st).isWhole = true := hw
      obtain ⟨good, hgood⟩ := exists_wholeStatus hwhole
      simp only [hwhole, true_and, if_pos hlt]
      refine ⟨hlt, rfl, fun j hj => ?_, fun j hj hj' => ?_⟩
      · show ∃ w : WholeStatus, (Function.update s.readyFifo _ _ _).status = w.word
        by_cases hjc : j = c
        · rw [hjc, Function.update_self]
          exact ⟨good, hgood⟩
        · rw [other _ j (by omega) hjc]
          exact h.whole j (by omega)
      · show (Function.update s.readyFifo _ _ _).status = -1 ∨ (Function.update s.readyFifo _ _ _).status = 0
        rw [other _ j hj' (by omega)]
        exact h.idle j (by omega) hj'
  · have htodo : s.freeFifo = [] := by rw [h.todo, show s.mFifoSize - c = 0 by omega]; rfl
    rw [htodo, if_neg (fun hw => hlt hw.2)]
    exact h

/-- All that the card writes are arrivals. -/
def Arrivals (ws : List CardWrite) : Prop := ∀ w ∈ ws, w.isArrival = true

theorem arrivals_headD : ∀ {during : List (List CardWrite)}, (∀ ws ∈ during, Arrivals ws) → Arrivals (during.headD [])
  | [], _, _, hw      => absurd hw List.not_mem_nil
  | ws :: _, h, w, hw => h ws List.mem_cons_self w hw

theorem cardWrites_completed : ∀ (ws : List CardWrite) {s : Channel} {c : Nat}, Completed s c →
    s.mFifoSize ≤ READYFIFO_ENTRIES → Arrivals ws →
    Completed (s.cardWrites ws) (min s.mFifoSize (c + (ws.filter CardWrite.isWhole).length))
  | [], s, c, h, _, _ => by
    have := h.le
    rw [List.filter_nil, List.length_nil, Nat.add_zero, Nat.min_eq_right this]
    exact h
  | w :: ws, s, c, h, hle, hws => by
    obtain ⟨r, free, heq⟩ := cardWrite_eq s w
    have hsize : (s.cardWrite w).mFifoSize = s.mFifoSize := by rw [heq]
    have ih := cardWrites_completed ws (cardWrite_completed h hle w (hws w List.mem_cons_self))
      (by rw [hsize]; exact hle) (fun x hx => hws x (List.mem_cons_of_mem _ hx))
    have hc := h.le
    rw [hsize] at ih
    show Completed ((s.cardWrite w).cardWrites ws) _
    convert ih using 1
    cases hw : w.isWhole
    · simp [hw]
    · by_cases hlt : c < s.mFifoSize
      · simp [hw, hlt]
        omega
      · simp [hw, hlt]
        omega

theorem dataArrived_whole {index : Nat} {w : WholeStatus} (h : (s.readyFifo index).status = w.word) :
    s.dataArrived index = .ok .wholeArrived := by
  have hne1 : w.word ≠ -1 := fun e => absurd w.dtsw (by rw [e]; decide)
  have hne0 : w.word ≠ 0 := fun e => absurd w.dtsw (by rw [e]; decide)
  unfold Channel.dataArrived
  simp only [h, if_neg hne1, if_neg hne0, if_pos w.dtsw, w.noError, ne_eq, not_true_eq_false, if_false]

theorem dataArrived_idle {index : Nat} (h : (s.readyFifo index).status = -1 ∨ (s.readyFifo index).status = 0) :
    s.dataArrived index = .ok .noneArrived ∨ s.dataArrived index = .ok .partArrived := by
  unfold Channel.dataArrived
  rcases h with h | h
  · exact .inl (by simp only [h, if_true])
  · refine .inr ?_
    simp only [h, if_true]
    rw [if_neg (by decide)]

end Rorc
end Flp
