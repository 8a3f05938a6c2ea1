import FlpPrototype.Lib.Places
import FlpPrototype.Rorc.CrorcTrace
import Mathlib.Data.List.Range
/-!
# CrorcTickets — the record against the superpages on their way

The pages in flight of the superpages in the queue, oldest first, are the last pages the card was given; the pages
before them have been taken (`Recorded`).  When the card's completions were waited for at the start, it has completed
all those and the first few in flight, and their completions stand in their entries (`Seen`).
-/
namespace Flp
namespace Rorc

variable {P : Nat}

/-- Which superpage, and which page of it. -/
def GivenPage.ticket (g : GivenPage) : Nat × Nat := (g.serial, g.number)

/-- The pages of a superpage that were pushed and have not arrived. -/
def Flight.tickets (f : Flight P) (serial : Nat) : List (Nat × Nat) :=
  (List.range' f.arrived (f.pushed - f.arrived)).map fun i => (serial, i)

/-- Those of superpages one behind the other. -/
def tickets : Nat → List (Flight P) → List (Nat × Nat)
  | _, []      => []
  | a, f :: fs => f.tickets a ++ tickets (a + 1) fs

theorem tickets_append : ∀ (a : Nat) (fs gs : List (Flight P)),
    tickets a (fs ++ gs) = tickets a fs ++ tickets (a + fs.length) gs
  | _, [], _ => rfl
  | a, f :: fs, gs => by
    rw [List.cons_append, tickets, tickets_append (a + 1) fs gs, tickets, List.append_assoc, List.length_cons,
      show a + 1 + fs.length = a + (fs.length + 1) by omega]

theorem Flight.tickets_eq_nil {f : Flight P} (h : f.pushed ≤ f.arrived) (serial : Nat) : f.tickets serial = [] := by
  rw [Flight.tickets, show f.pushed - f.arrived = 0 by omega]
  rfl

theorem tickets_eq_nil : ∀ (a : Nat) {fs : List (Flight P)}, (∀ f ∈ fs, f.pushed ≤ f.arrived) → tickets a fs = []
  | _, [], _ => rfl
  | a, f :: fs, h => by
    rw [tickets, f.tickets_eq_nil (h f List.mem_cons_self), List.nil_append,
      tickets_eq_nil (a + 1) fun g hg => h g (List.mem_cons_of_mem _ hg)]

theorem Flight.tickets_push (f : Flight P) (h : f.pushed + 1 ≤ f.pages) (serial : Nat) :
    (f.push 1 h).tickets serial = f.tickets serial ++ [(serial, f.pushed)] := by
  have hle := f.arrived_le
  show (List.range' f.arrived (f.pushed + 1 - f.arrived)).map _ = _
  rw [show f.pushed + 1 - f.arrived = f.pushed - f.arrived + 1 by omega, List.range'_concat, List.map_append, tickets,
    List.map_singleton, show f.arrived + 1 * (f.pushed - f.arrived) = f.pushed by omega]

theorem Flight.tickets_arrive (f : Flight P) {n : Nat} (h : f.arrived + n ≤ f.pushed) (serial : Nat) :
    f.tickets serial = (List.range' f.arrived n).map (fun i => (serial, i)) ++ (f.arrive n h).tickets serial := by
  show (List.range' f.arrived (f.pushed - f.arrived)).map _ =
    _ ++ (List.range' (f.arrived + n) (f.pushed - (f.arrived + n))).map _
  rw [← List.map_append, List.range'_append_1, show n + (f.pushed - (f.arrived + n)) = f.pushed - f.arrived by omega]

theorem length_tickets : ∀ (a b : Nat) (fs : List (Flight P)), (tickets a fs).length = (pagesInFlight b fs).length
  | _, _, [] => rfl
  | a, b, f :: fs => by
    rw [tickets, pagesInFlight, List.length_append, List.length_append, length_tickets (a + 1) (b + 1) fs,
      Flight.length_inFlight, Flight.tickets, List.length_map, List.length_range']

/-- **The record of a channel** the queue of which holds the superpages `all`, `n` of the pages given having been
taken. -/
structure Recorded (P : Nat) (t : Traced) (first : Nat) (all : List (Flight P)) (n : Nat) : Prop where
  owner : ∀ i < all.length, t.owner ((first + i) % MAX_SUPERPAGES) = first + i
  accepted : t.accepted.length = first + all.length
  le : n ≤ t.given.length
  split : t.given = t.done ++ t.card
  flight : (t.given.drop n).map GivenPage.ticket = tickets first all
  index : ∀ j page, (t.given.drop n)[j]? = some page → page.index = (t.channel.mFifoBack + j) % READYFIFO_ENTRIES
  arrived :
    ∀ i a, (all.map Flight.arrived)[i]? = some a → ∀ k < a, ∃ page ∈ t.given.take n, page.ticket = (first + i, k)
  popped : ∀ p ∈ t.popped, p.superpage.received = p.superpage.size ∧
    ∀ k, P * k < p.superpage.size → ∃ page ∈ t.given.take n, page.ticket = (p.serial, k)

/-- **What the card has completed**: all that was taken, and the first `c` pages in flight, of which the completions
stand in their entries; and every arrival was taken for the page whose completion was read. -/
structure Seen (P : Nat) (t : Traced) (n c : Nat) : Prop where
  completed : Completed t.channel c
  done : t.done.length = n + c
  stands : ∀ j < c, t.stands ((t.channel.mFifoBack + j) % READYFIFO_ENTRIES) = (t.given.drop n)[j]?
  taken : ∀ a ∈ t.taken, ∃ page, a.completion = some page ∧ page.serial = a.serial ∧ P * page.number = a.offset

variable {t t' : Traced} {first n c : Nat} {all : List (Flight P)}

theorem Recorded.congr (h : Recorded P t first all n) (howner : t'.owner = t.owner)
    (haccepted : t'.accepted = t.accepted) (hgiven : t'.given = t.given) (hsplit : t'.given = t'.done ++ t'.card)
    (hback : t'.channel.mFifoBack = t.channel.mFifoBack) (hpopped : t'.popped = t.popped) :
    Recorded P t' first all n :=
  ⟨by rw [howner]; exact h.owner, by rw [haccepted]; exact h.accepted, by rw [hgiven]; exact h.le, hsplit,
    by rw [hgiven]; exact h.flight, by rw [hgiven, hback]; exact h.index, by rw [hgiven]; exact h.arrived,
    by rw [hgiven, hpopped]; exact h.popped⟩

/-! ## The card -/

/-- The pages the card has to do are the pages in flight behind those it has completed. -/
theorem Recorded.card (h : Recorded P t first all n) (hdone : t.done.length = n + c) :
    t.card = (t.given.drop n).drop c := by
  rw [List.drop_drop, ← hdone, h.split, List.drop_left]

/-- **An arrival.** -/
theorem Seen.cardWrite (hrec : Recorded P t first all n) (h : Seen P t n c)
    (hsize : (t.given.drop n).length = t.channel.mFifoSize) (hle : t.channel.mFifoSize ≤ READYFIFO_ENTRIES)
    (w : CardWrite) (harrival : w.isArrival = true) : Recorded P (t.cardWrite w) first all n ∧
      Seen P (t.cardWrite w) n (if w.isWhole ∧ c < t.channel.mFifoSize then c + 1 else c) := by
  have hcompleted := cardWrite_completed h.completed hle w harrival
  have hc := h.completed.le
  obtain ⟨r, free, hw⟩ := cardWrite_eq t.channel w
  have hback : (t.channel.cardWrite w).mFifoBack = t.channel.mFifoBack := by rw [hw]
  have hcard := hrec.card h.done
  rw [Traced.cardWrite]
  cases hpages : t.card with
  | nil =>
    -- nothing to do: all pages in flight are completed
    have hall : ¬(w.isWhole = true ∧ c < t.channel.mFifoSize) := by
      have hlen : ((t.given.drop n).drop c).length = 0 := by
        rw [← hcard, hpages]
        rfl
      rw [List.length_drop, hsize] at hlen
      rintro ⟨-, hlt⟩
      omega
    rw [if_neg hall] at hcompleted ⊢
    exact ⟨hrec.congr rfl rfl rfl (by rw [hrec.split, hpages]) hback rfl, hcompleted, h.done,
      by simp only [hback]; exact h.stands, h.taken⟩
  | cons page card =>
    have hpage : (t.given.drop n)[c]? = some page := by
      have hhead : ((t.given.drop n).drop c)[0]? = some page := by
        rw [← hcard, hpages]
        rfl
      rwa [List.getElem?_drop, Nat.add_zero] at hhead
    have hlt : c < t.channel.mFifoSize := by
      rw [← hsize]
      exact (List.getElem?_eq_some_iff.1 hpage).1
    have hindex := hrec.index c page hpage
    have hother : ∀ (x : Option GivenPage) (j : Nat), j < c →
        Function.update t.stands page.index x ((t.channel.mFifoBack + j) % READYFIFO_ENTRIES) = (t.given.drop n)[j]? :=
      fun x j hj => by
        rw [Function.update_of_ne, h.stands j hj]
        rw [hindex]
        exact fun heq => Nat.ne_of_lt hj (index_inj (by omega) (by omega) heq)
    cases w with
    | part l =>
      simp only [CardWrite.isWhole, Bool.false_eq_true, false_and, if_false] at hcompleted ⊢
      exact ⟨hrec.congr rfl rfl rfl (by rw [hrec.split, hpages]) hback rfl, hcompleted, h.done, by
        simp only [hback]
        exact hother none, h.taken⟩
    | whole l st =>
      have hwhole : (CardWrite.whole l st).isWhole = true := harrival
      simp only [hwhole, true_and, if_pos hlt, if_true] at hcompleted ⊢
      refine ⟨hrec.congr rfl rfl rfl ?_ hback rfl, hcompleted, ?_, ?_, h.taken⟩
      · rw [hrec.split, hpages, List.append_assoc]
        rfl
      · rw [List.length_append, h.done, List.length_singleton, Nat.add_assoc]
      · simp only [hback]
        intro j hj
        by_cases heq : j = c
        · rw [heq, ← hindex, Function.update_self, hpage]
        · exact hother _ j (by omega)

theorem Seen.cardWrites : ∀ (ws : List CardWrite) {t : Traced} {c : Nat}, Recorded P t first all n → Seen P t n c →
    (t.given.drop n).length = t.channel.mFifoSize → t.channel.mFifoSize ≤ READYFIFO_ENTRIES → Arrivals ws →
    Recorded P (t.cardWrites ws) first all n ∧
      Seen P (t.cardWrites ws) n (min t.channel.mFifoSize (c + (ws.filter CardWrite.isWhole).length))
  | [], t, c, hrec, h, _, _, _ => by
    have hc := h.completed.le
    rw [List.filter_nil, List.length_nil, Nat.add_zero, Nat.min_eq_right hc]
    exact ⟨hrec, h⟩
  | w :: ws, t, c, hrec, h, hsize, hle, hws => by
    obtain ⟨hrec₁, h₁⟩ := h.cardWrite hrec hsize hle w (hws w List.mem_cons_self)
    obtain ⟨r, free, hw⟩ := cardWrite_eq t.channel w
    have hsame : (t.cardWrite w).channel.mFifoSize = t.channel.mFifoSize := by rw [Traced.cardWrite_channel, hw]
    have hgiven : (t.cardWrite w).given = t.given := by
      unfold Traced.cardWrite
      split
      · rfl
      · cases w <;> rfl
    obtain ⟨hrec₂, h₂⟩ := Seen.cardWrites ws hrec₁ h₁ (by rw [hgiven, hsame]; exact hsize) (by rw [hsame]; exact hle)
      (fun x hx => hws x (List.mem_cons_of_mem _ hx))
    refine ⟨hrec₂, ?_⟩
    rw [hsame] at h₂
    have hc := h.completed.le
    show Seen P ((t.cardWrite w).cardWrites ws) n _
    convert h₂ using 1
    cases hwhole : w.isWhole
    · simp [hwhole]
    · by_cases hlt : c < t.channel.mFifoSize
      · simp [hwhole, hlt]
        omega
      · simp [hwhole, hlt]
        omega

/-! ## Pushing -/

/-- The pages given are those given before and more; what was completed and taken is the same. -/
structure Gave (t t' : Traced) : Prop where
  given : ∃ pages, t'.given = t.given ++ pages
  done : t'.done = t.done
  taken : t'.taken = t.taken

theorem Gave.refl (t : Traced) : Gave t t := ⟨⟨[], (List.append_nil _).symm⟩, rfl, rfl⟩

theorem Gave.trans {t'' : Traced} (h : Gave t t') (h' : Gave t' t'') : Gave t t'' := by
  obtain ⟨pages, hp⟩ := h.given
  obtain ⟨pages', hp'⟩ := h'.given
  exact ⟨⟨pages ++ pages', by rw [hp', hp, List.append_assoc]⟩, h'.done.trans h.done, h'.taken.trans h.taken⟩

theorem Gave.seen (h : Gave t t') (hcompleted : Completed t'.channel c)
    (hback : t'.channel.mFifoBack = t.channel.mFifoBack) (hstands : t'.stands = t.stands)
    (hsize : c ≤ (t.given.drop n).length) (hle : n ≤ t.given.length) (hs : Seen P t n c) : Seen P t' n c := by
  obtain ⟨pages, hp⟩ := h.given
  refine ⟨hcompleted, by rw [h.done]; exact hs.done, fun j hj => ?_, by rw [h.taken]; exact hs.taken⟩
  rw [hback, hstands, hs.stands j hj, hp, List.drop_append_of_le_length hle,
    List.getElem?_append_left (Nat.lt_of_lt_of_le hj hsize)]

theorem Recorded.push {before later : List (Flight P)} {f : Flight P} {page : GivenPage}
    (h : Recorded P t first (before ++ f :: later) n) (hf : f.pushed + 1 ≤ f.pages)
    (hlater : ∀ g ∈ later, g.pushed = 0) (hgiven : t'.given = t.given ++ [page]) (hcard : t'.card = t.card ++ [page])
    (hdone : t'.done = t.done) (howner : t'.owner = t.owner) (haccepted : t'.accepted = t.accepted)
    (hpopped : t'.popped = t.popped) (hback : t'.channel.mFifoBack = t.channel.mFifoBack)
    (hticket : page.ticket = (first + before.length, f.pushed))
    (hindex : page.index = (t.channel.mFifoBack + (t.given.drop n).length) % READYFIFO_ENTRIES) :
    Recorded P t' first (before ++ f.push 1 hf :: later) n := by
  have hdrop : t'.given.drop n = t.given.drop n ++ [page] := by
    rw [hgiven, List.drop_append_of_le_length h.le]
  have htake : t'.given.take n = t.given.take n := by rw [hgiven, List.take_append_of_le_length h.le]
  have hnone : tickets (first + before.length + 1) later = [] :=
    tickets_eq_nil _ fun g hg => by rw [hlater g hg]; exact Nat.zero_le _
  refine ⟨?_, ?_, ?_, ?_, ?_, ?_, ?_, by rw [htake, hpopped]; exact h.popped⟩
  · rw [howner]
    simpa using h.owner
  · rw [haccepted, h.accepted]
    simp
  · rw [hgiven, List.length_append]
    exact Nat.le_add_right_of_le h.le
  · rw [hgiven, hcard, hdone, h.split, List.append_assoc]
  · rw [hdrop, List.map_append, h.flight, tickets_append, tickets_append, tickets, tickets, f.tickets_push hf, hnone,
      List.append_nil, List.append_nil, List.append_assoc, List.map_singleton, hticket]
  · intro j g hg
    rw [hdrop] at hg
    rw [hback]
    by_cases hj : j < (t.given.drop n).length
    · rw [List.getElem?_append_left hj] at hg
      exact h.index j g hg
    · obtain ⟨hlt, -⟩ := List.getElem?_eq_some_iff.1 hg
      rw [List.length_append, List.length_singleton] at hlt
      obtain rfl : j = (t.given.drop n).length := by omega
      rw [List.getElem?_concat_length] at hg
      rw [← Option.some.inj hg]
      exact hindex
  · have hmap : (before ++ f.push 1 hf :: later).map Flight.arrived = (before ++ f :: later).map Flight.arrived := by
      rw [List.map_append, List.map_append]
      rfl
    rw [hmap, htake]
    exact h.arrived

variable {cfg : Config} {filled done later : List (Flight cfg.pageSize)}

/-- The pages given and not taken are as many as the ring holds. -/
theorem Core.length_flight {t : Traced} {filled done pushing : List (Flight cfg.pageSize)}
    (h : Core cfg t.channel first filled done pushing)
    (hrec : Recorded cfg.pageSize t first (filled ++ (done ++ pushing)) n) :
    (t.given.drop n).length = t.channel.mFifoSize := by
  have htickets := congrArg List.length hrec.flight
  rw [List.length_map, tickets_append, tickets_eq_nil first (fun g hg => by
    have := h.lists.full g hg
    have := g.pushed_le
    omega), List.nil_append, length_tickets _ (first + filled.length)] at htickets
  rw [htickets, h.fifoSize]

/-- **A page is pushed**, and recorded. -/
theorem pushIntoSuperpage_trace {t : Traced} {f : Flight cfg.pageSize}
    (h : Core cfg t.channel first filled done (f :: later)) (hf : f.pushed + 1 ≤ f.pages)
    (hroom : t.channel.mFifoSize < READYFIFO_ENTRIES) :
    ∃ t', t.pushIntoSuperpage cfg (pushingId first filled done) = .ok t' ∧
      Core cfg t'.channel first filled done (f.push 1 hf :: later) ∧ Pushed t.channel t'.channel 1 ∧
      t'.channel.readyFifo = t.channel.readyFifo ∧ t'.stands = t.stands ∧ Gave t t' ∧
      ∀ n, Recorded cfg.pageSize t first (filled ++ (done ++ f :: later)) n →
        Recorded cfg.pageSize t' first (filled ++ (done ++ f.push 1 hf :: later)) n := by
  obtain ⟨channel, hpush, hcore, hpushed, hready⟩ := pushIntoSuperpage_spec h hf hroom
  refine ⟨{ t with
    channel
    given := t.given ++ [t.nextPage cfg (pushingId first filled done)]
    card := t.card ++ [t.nextPage cfg (pushingId first filled done)] }, by rw [Traced.pushIntoSuperpage, hpush], hcore,
    hpushed, hready, rfl, ⟨⟨_, rfl⟩, rfl, rfl⟩, fun n hrec => ?_⟩
  have hreg := registry_pushing h
  have hflight := h.length_flight hrec
  rw [← List.append_assoc] at hrec ⊢
  refine hrec.push hf h.lists.untouched rfl rfl rfl rfl rfl rfl hpushed.back ?_ ?_
  · have howner := hrec.owner (filled ++ done).length (by simp)
    rw [List.length_append, ← Nat.add_assoc] at howner
    show (t.owner (pushingId first filled done),
      (t.channel.mSuperpageQueue.mRegistry (pushingId first filled done)).pushedPages.toNat) = _
    rw [hreg, pushingId, howner, List.length_append, ← Nat.add_assoc]
    rfl
  · rw [hflight]
    rfl

theorem pushPages_trace : ∀ (k : Nat) {t : Traced} {f : Flight cfg.pageSize},
    Core cfg t.channel first filled done (f :: later) → ∀ hf : f.pushed + k ≤ f.pages,
    t.channel.mFifoSize + k ≤ READYFIFO_ENTRIES →
    ∃ t', Traced.pushPages cfg (pushingId first filled done) k t = .ok t' ∧
      Core cfg t'.channel first filled done (f.push k hf :: later) ∧ Pushed t.channel t'.channel k ∧
      t'.channel.readyFifo = t.channel.readyFifo ∧ t'.stands = t.stands ∧ Gave t t' ∧
      ∀ n, Recorded cfg.pageSize t first (filled ++ (done ++ f :: later)) n →
        Recorded cfg.pageSize t' first (filled ++ (done ++ f.push k hf :: later)) n
  | 0, t, f, h, hf, _ => ⟨t, rfl, h, .refl _, rfl, rfl, .refl t, fun _ hrec => hrec⟩
  | k + 1, t, f, h, hf, hroom => by
    obtain ⟨t₁, h₁, hcore, hp, hr, hs, hg, hrec⟩ := pushIntoSuperpage_trace h (by omega) (by omega)
    have hf₁ : f.pushed + 1 + k ≤ f.pages := by omega
    obtain ⟨t₂, h₂, hcore₂, hp₂, hr₂, hs₂, hg₂, hrec₂⟩ := pushPages_trace k hcore hf₁ (by rw [hp.size]; omega)
    rw [Flight.push_push f (by omega) hf₁ hf] at hcore₂ hrec₂
    refine ⟨t₂, by rw [Traced.pushPages, h₁]; exact h₂, hcore₂, ?_, hr₂.trans hr, hs₂.trans hs, hg.trans hg₂,
      fun n hn => hrec₂ n (hrec n hn)⟩
    have := hp.trans hp₂
    rwa [Nat.add_comm 1 k] at this

/-- The initial pages are pushed likewise, with the Ready FIFO's entries reset. -/
theorem pushInitialPages_trace : ∀ (k i : Nat) {t : Traced} {f : Flight cfg.pageSize},
    Core cfg t.channel first filled done (f :: later) → ∀ hf : f.pushed + k ≤ f.pages,
    t.channel.mFifoSize + k ≤ READYFIFO_ENTRIES →
    ∃ t', Traced.pushInitialPages cfg (pushingId first filled done) i k t = .ok t' ∧
      Core cfg t'.channel first filled done (f.push k hf :: later) ∧ Pushed t.channel t'.channel k ∧
      (∀ j, t'.channel.readyFifo j = if i ≤ j ∧ j < i + k then .reset else t.channel.readyFifo j) ∧ Gave t t' ∧
      ∀ n, Recorded cfg.pageSize t first (filled ++ (done ++ f :: later)) n →
        Recorded cfg.pageSize t' first (filled ++ (done ++ f.push k hf :: later)) n
  | 0, i, t, f, h, hf, _ => ⟨t, rfl, h, .refl _, fun j => by rw [if_neg (by omega)], .refl t, fun _ hrec => hrec⟩
  | k + 1, i, t, f, h, hf, hroom => by
    have hreset : Core cfg (t.resetEntry i).channel first filled done (f :: later) :=
      h.card (Function.update t.channel.readyFifo i .reset) t.channel.freeFifo
    obtain ⟨t₁, h₁, hcore, hp, hr, -, hg, hrec⟩ := pushIntoSuperpage_trace hreset (by omega)
      (by show t.channel.mFifoSize < _; omega)
    have hp' : Pushed t.channel t₁.channel 1 := ⟨hp.size, hp.back, hp.pending, hp.todo⟩
    have hf₁ : f.pushed + 1 + k ≤ f.pages := by omega
    obtain ⟨t₂, h₂, hcore₂, hp₂, hr₂, hg₂, hrec₂⟩ := pushInitialPages_trace k (i + 1) hcore hf₁
      (by rw [hp'.size]; omega)
    rw [Flight.push_push f (by omega) hf₁ hf] at hcore₂ hrec₂
    refine ⟨t₂, by rw [Traced.pushInitialPages, h₁]; exact h₂, hcore₂, ?_, fun j => ?_,
      Gave.trans ⟨hg.given, hg.done, hg.taken⟩ hg₂, fun n hn => hrec₂ n (hrec n ?_)⟩
    · have := hp'.trans hp₂
      rwa [Nat.add_comm 1 k] at this
    · rw [hr₂ j, hr]
      show (if i + 1 ≤ j ∧ j < i + 1 + k then _ else Function.update t.channel.readyFifo i .reset j) = _
      by_cases hj : j = i
      · rw [if_neg (by omega), hj, Function.update_self, if_pos (by omega)]
      · rw [Function.update_of_ne hj]
        by_cases hin : i + 1 ≤ j ∧ j < i + 1 + k
        · rw [if_pos hin, if_pos (by omega)]
        · rw [if_neg hin, if_neg (by omega)]
    · exact hn.congr rfl rfl rfl hn.split rfl rfl

/-! ## Taking arrivals -/

/-- `m` pages of the first superpage that waits have been taken. -/
theorem Recorded.settle {front rest : List (Flight P)} {f : Flight P} {m : Nat}
    (h : Recorded P t first (front ++ f :: rest) n) (hfull : ∀ g ∈ front, g.pushed ≤ g.arrived)
    (hlt : f.arrived + m ≤ f.pushed) (howner : t'.owner = t.owner) (haccepted : t'.accepted = t.accepted)
    (hgiven : t'.given = t.given) (hdone : t'.done = t.done) (hcard : t'.card = t.card) (hpopped : t'.popped = t.popped)
    (hindex : ∀ j page, (t.given.drop (n + m))[j]? = some page →
      page.index = (t'.channel.mFifoBack + j) % READYFIFO_ENTRIES) :
    Recorded P t' first (front ++ f.arrive m hlt :: rest) (n + m) := by
  have hnone : tickets first front = [] := tickets_eq_nil first hfull
  have hflight := h.flight
  rw [tickets_append, hnone, List.nil_append, tickets, f.tickets_arrive hlt, List.append_assoc] at hflight
  have hm : ((List.range' f.arrived m).map fun i => (first + front.length, i)).length = m := by simp
  have hlen : m ≤ (t.given.drop n).length := by
    rw [← List.length_map GivenPage.ticket, hflight, List.length_append, hm]
    exact Nat.le_add_right _ _
  have hmore : ∀ {page : GivenPage}, page ∈ t.given.take n → page ∈ t.given.take (n + m) := fun hp =>
    (List.take_subset_take_left t.given (Nat.le_add_right n m)) hp
  rw [List.length_drop] at hlen
  have hle := h.le
  refine ⟨?_, ?_, ?_, ?_, ?_, by rw [hgiven]; exact hindex, ?_, ?_⟩
  · rw [howner]
    simpa using h.owner
  · rw [haccepted, h.accepted]
    simp
  · rw [hgiven]
    omega
  · rw [hgiven, hdone, hcard]
    exact h.split
  · rw [hgiven, ← List.drop_drop, List.map_drop, hflight, List.drop_left' hm, tickets_append, hnone, List.nil_append,
      tickets]
  · rw [hgiven]
    intro i a hi k hk
    by_cases hfront : i = front.length
    · -- what was taken before, and what is taken now
      rw [hfront, List.map_append, List.map_cons, List.getElem?_append_right (by simp), List.length_map,
        Nat.sub_self, List.getElem?_cons_zero] at hi
      rw [hfront]
      have ha : a = f.arrived + m := (Option.some.inj hi).symm
      by_cases hold : k < f.arrived
      · obtain ⟨page, hpage, hticket⟩ := h.arrived front.length f.arrived (by simp) k hold
        exact ⟨page, hmore hpage, hticket⟩
      · have hget : ((t.given.drop n).map GivenPage.ticket)[k - f.arrived]? = some (first + front.length, k) := by
          rw [hflight, List.getElem?_append_left (by rw [hm]; omega), List.getElem?_map,
            List.getElem?_range' (by omega)]
          simp only [Option.map_some, Nat.one_mul]
          rw [show f.arrived + (k - f.arrived) = k by omega]
        rw [List.getElem?_map] at hget
        obtain ⟨page, hpage, hticket⟩ := Option.map_eq_some_iff.1 hget
        rw [List.getElem?_drop] at hpage
        refine ⟨page, List.mem_of_getElem? (i := n + (k - f.arrived)) ?_, hticket⟩
        rw [List.getElem?_take_of_lt (by omega)]
        exact hpage
    · obtain ⟨page, hpage, hticket⟩ := h.arrived i a (by
        rw [List.map_append, List.map_cons] at hi ⊢
        by_cases hlt' : i < front.length
        · rwa [List.getElem?_append_left (by simpa using hlt')] at hi ⊢
        · rw [List.getElem?_append_right (by simp; omega), List.length_map] at hi ⊢
          rw [show i - front.length = i - front.length - 1 + 1 by omega, List.getElem?_cons_succ] at hi ⊢
          exact hi) k hk
      exact ⟨page, hmore hpage, hticket⟩
  · rw [hgiven, hpopped]
    intro p hp
    obtain ⟨hreceived, hall⟩ := h.popped p hp
    refine ⟨hreceived, fun k hk => ?_⟩
    obtain ⟨page, hpage, hticket⟩ := hall k hk
    exact ⟨page, hmore hpage, hticket⟩

/-- The card has completed all the pages it was given, if it was waited for. -/
theorem Seen.waited {ws : List CardWrite} (h : Seen P t n 0) (hrec : Recorded P t first all n)
    (hlen : (t.given.drop n).length = t.channel.mFifoSize) (hle : t.channel.mFifoSize ≤ READYFIFO_ENTRIES)
    (hws : Arrivals ws) (hall : t.channel.mFifoSize ≤ (ws.filter CardWrite.isWhole).length) :
    Recorded P (t.cardWrites ws) first all n ∧ Seen P (t.cardWrites ws) n t.channel.mFifoSize := by
  have hmin : min t.channel.mFifoSize (0 + (ws.filter CardWrite.isWhole).length) = t.channel.mFifoSize := by omega
  have hseen := h.cardWrites ws hrec hlen hle hws
  rwa [hmin] at hseen

/-- **The FIFO begins anew** when all pages in flight are completed and taken, which are pages of one superpage. -/
theorem Recorded.restart {f : Flight P} {rest : List (Flight P)} (h : Recorded P t first (f :: rest) n)
    (hseen : Seen P t n m) (hsize : t.channel.mFifoSize = m) (hlen : (t.given.drop n).length = m)
    (hlt : f.arrived + m ≤ f.pushed) (q : SuperpageQueue) :
    Recorded P ({ t with channel := { t.channel with mSuperpageQueue := q } } : Traced).resetFifo first
        (f.arrive m hlt :: rest) (n + m) ∧
      Seen P ({ t with channel := { t.channel with mSuperpageQueue := q } } : Traced).resetFifo (n + m) 0 := by
  have htodo : t.channel.freeFifo = [] := by
    rw [hseen.completed.todo, hsize, Nat.sub_self]
    rfl
  have hrec : Recorded P t first ([] ++ f :: rest) n := h
  refine ⟨hrec.settle (fun g hg => absurd hg List.not_mem_nil) hlt rfl rfl rfl rfl rfl rfl fun j page hpage => ?_,
    ⟨Nat.le_refl 0, htodo, fun j hj => absurd hj (Nat.not_lt_zero j), fun j _ _ => .inl rfl⟩, hseen.done,
    fun j hj => absurd hj (Nat.not_lt_zero j), hseen.taken⟩
  -- none is left
  rw [← List.drop_drop, List.getElem?_drop] at hpage
  have hlt' := (List.getElem?_eq_some_iff.1 hpage).1
  omega

/-! ## Superpages in and out -/

theorem Recorded.accept (h : Recorded P t first all n) {f : Flight P} {superpage : Superpage} {channel : Channel}
    (hf : f.pushed = 0) (hroom : all.length < MAX_SUPERPAGES) (hback : channel.mFifoBack = t.channel.mFifoBack) :
    Recorded P
      { t with
        channel
        owner := Function.update t.owner ((first + all.length) % MAX_SUPERPAGES) t.accepted.length
        accepted := t.accepted ++ [superpage] } first (all ++ [f]) n := by
  have harrived : f.arrived = 0 := Nat.le_zero.1 (hf ▸ f.arrived_le)
  refine ⟨fun i hi => ?_, ?_, h.le, h.split, ?_, ?_, ?_, h.popped⟩
  · rw [List.length_append, List.length_singleton] at hi
    by_cases hlast : i = all.length
    · rw [hlast]
      simp only [Function.update_self]
      exact h.accepted
    · simp only
      rw [Function.update_of_ne, h.owner i (by omega)]
      exact fun heq => hlast (@SuperpageQueue.id_inj MAX_SUPERPAGES first i all.length (all.length + 1) hroom (by omega)
        (Nat.lt_succ_self _) heq)
  · simp only [List.length_append, List.length_singleton, h.accepted]
    omega
  · rw [h.flight, tickets_append, tickets, tickets, f.tickets_eq_nil (by omega), List.append_nil, List.append_nil]
  · simp only [hback]
    exact h.index
  · intro i a hi k hk
    rw [List.map_append, List.map_singleton, harrived] at hi
    rcases getElem?_concat_cases hi with hi | ⟨-, rfl⟩
    · exact h.arrived i a hi k hk
    · omega

theorem Recorded.pop {rest : List (Flight P)} {f : Flight P} (h : Recorded P t first (f :: rest) n)
    (hfull : f.arrived = f.pages) {channel : Channel} (hback : channel.mFifoBack = t.channel.mFifoBack) :
    Recorded P
      { t with
        channel
        popped := t.popped ++ [⟨t.owner (first % MAX_SUPERPAGES), f.entry.superpage⟩] } (first + 1) rest n := by
  have hpushed := f.pushed_le
  refine ⟨fun i hi => ?_, ?_, h.le, h.split, ?_, ?_, fun i a hi k hk => ?_, fun p hp => ?_⟩
  · have howner := h.owner (i + 1) (Nat.succ_lt_succ hi)
    rwa [show first + (i + 1) = first + 1 + i by omega] at howner
  · have haccepted := h.accepted
    rw [List.length_cons] at haccepted
    simp only [haccepted]
    omega
  · rw [h.flight, tickets, f.tickets_eq_nil (by omega), List.nil_append]
  · simp only [hback]
    exact h.index
  · obtain ⟨page, hpage, hticket⟩ := h.arrived (i + 1) a hi k hk
    exact ⟨page, hpage, by rw [hticket, show first + (i + 1) = first + 1 + i by omega]⟩
  · rcases List.mem_append.1 hp with hp | hp
    · exact h.popped p hp
    · rw [List.mem_singleton.1 hp]
      have howner := h.owner 0 (Nat.succ_pos _)
      rw [Nat.add_zero] at howner
      refine ⟨?_, fun k hk => ?_⟩
      · show f.arrived * P = f.superpage.size
        rw [f.size_eq, hfull]
      · have hk' : k < f.arrived := by
          have hsize : P * k < f.pages * P := Nat.lt_of_lt_of_eq hk f.size_eq
          rw [Nat.mul_comm f.pages] at hsize
          rw [hfull]
          exact Nat.lt_of_mul_lt_mul_left hsize
        obtain ⟨page, hpage, hticket⟩ := h.arrived 0 f.arrived rfl k hk'
        exact ⟨page, hpage, by rw [hticket, howner]; rfl⟩

end Rorc
end Flp
