import FlpPrototype.Rorc.CrorcTrace
/-!
# CrorcAddresses — where the pages lie that the card is given

In every run, whatever the page size and whatever arrives: an entry in use is of an accepted superpage, and a page is
only pushed while `pushedPages` is less than `maxPages`, so it lies inside its superpage (`given_inside`).
-/
namespace Flp
namespace Rorc
namespace Traced

variable {cfg : Config} {t t' : Traced}

/-- An entry in use is of an accepted superpage, from the translated offset on. -/
structure EntryOf (cfg : Config) (superpage : Superpage) (e : Entry) : Prop where
  checked : Channel.checkSuperpage cfg superpage = .ok ()
  bus : getBusOffsetAddress cfg.scatterGatherList superpage.offset = some e.busAddress
  pushed : 0 ≤ e.pushedPages
  size : e.maxPages * cfg.pageSize ≤ superpage.size

/-- A page of a superpage, within it. -/
structure PageOf (cfg : Config) (superpage : Superpage) (page : GivenPage) : Prop where
  checked : Channel.checkSuperpage cfg superpage = .ok ()
  inside : cfg.pageSize * page.number + cfg.pageSize ≤ superpage.size
  address : ∃ busAddress, getBusOffsetAddress cfg.scatterGatherList superpage.offset = some busAddress ∧
    page.address = wrap64 (busAddress + cfg.pageSize * page.number)

/-- Every entry in use, and every page the card was given, is of the superpage that is recorded for it. -/
structure Addressed (cfg : Config) (t : Traced) : Prop where
  entries : ∀ id, (t.channel.mSuperpageQueue.mRegistry id).isValid = true → ∃ superpage,
    t.accepted[t.owner id]? = some superpage ∧ EntryOf cfg superpage (t.channel.mSuperpageQueue.mRegistry id)
  given : ∀ page ∈ t.given, ∃ superpage, t.accepted[page.serial]? = some superpage ∧ PageOf cfg superpage page

theorem Addressed.congr (h : Addressed cfg t)
    (hregistry : t'.channel.mSuperpageQueue.mRegistry = t.channel.mSuperpageQueue.mRegistry)
    (howner : t'.owner = t.owner) (haccepted : t'.accepted = t.accepted) (hgiven : t'.given = t.given) :
    Addressed cfg t' := by
  refine ⟨fun id hid => ?_, fun page hpage => ?_⟩
  · rw [hregistry] at hid ⊢
    rw [howner, haccepted]
    exact h.entries id hid
  · rw [haccepted]
    exact h.given page (by rw [← hgiven]; exact hpage)

theorem cardWrite_same (w : CardWrite) : (t.cardWrite w).owner = t.owner ∧ (t.cardWrite w).accepted = t.accepted ∧
    (t.cardWrite w).given = t.given ∧ (t.cardWrite w).popped = t.popped := by
  unfold cardWrite
  split
  · exact ⟨rfl, rfl, rfl, rfl⟩
  · cases w with
    | part l => exact ⟨rfl, rfl, rfl, rfl⟩
    | whole l st => exact ⟨rfl, rfl, rfl, rfl⟩

theorem cardWrites_same : ∀ (ws : List CardWrite) (t : Traced), (t.cardWrites ws).owner = t.owner ∧
    (t.cardWrites ws).accepted = t.accepted ∧ (t.cardWrites ws).given = t.given ∧ (t.cardWrites ws).popped = t.popped
  | [], _ => ⟨rfl, rfl, rfl, rfl⟩
  | w :: ws, t => by
    obtain ⟨h1, h2, h3, h4⟩ := cardWrites_same ws (t.cardWrite w)
    obtain ⟨h1', h2', h3', h4'⟩ := @cardWrite_same t w
    exact ⟨h1.trans h1', h2.trans h2', h3.trans h3', h4.trans h4'⟩

theorem Addressed.cardWrites (h : Addressed cfg t) (ws : List CardWrite) : Addressed cfg (t.cardWrites ws) := by
  obtain ⟨r, free, hw⟩ := cardWrites_eq ws t.channel
  obtain ⟨howner, haccepted, hgiven, -⟩ := cardWrites_same ws t
  exact h.congr (by rw [cardWrites_channel, hw]) howner haccepted hgiven

theorem Addressed.setEntry (h : Addressed cfg t) {id : Nat} {e : Entry}
    (hid : (t.channel.mSuperpageQueue.mRegistry id).isValid = true)
    (he : ∀ superpage, EntryOf cfg superpage (t.channel.mSuperpageQueue.mRegistry id) → EntryOf cfg superpage e)
    (hregistry : t'.channel.mSuperpageQueue.mRegistry = Function.update t.channel.mSuperpageQueue.mRegistry id e)
    (howner : t'.owner = t.owner) (haccepted : t'.accepted = t.accepted)
    (hgiven : ∀ page ∈ t'.given, page ∈ t.given ∨ ∃ superpage, t.accepted[page.serial]? = some superpage ∧
      PageOf cfg superpage page) : Addressed cfg t' := by
  refine ⟨fun id' hid' => ?_, fun page hpage => ?_⟩
  · rw [hregistry] at hid' ⊢
    rw [howner, haccepted]
    by_cases heq : id' = id
    · rw [heq, Function.update_self]
      obtain ⟨superpage, haccept, hentry⟩ := h.entries id hid
      exact ⟨superpage, haccept, he superpage hentry⟩
    · rw [Function.update_of_ne heq] at hid' ⊢
      exact h.entries id' hid'
  · rw [haccepted]
    exact (hgiven page hpage).elim (h.given page) (fun hx => hx)

/-! ## Pushing -/

theorem valid_of_nonneg {e : Entry} (h : 0 ≤ e.pushedPages) : e.isValid = true := by
  refine decide_eq_true ?_
  omega

/-- **A page is pushed** only while there is one left. -/
theorem Addressed.pushIntoSuperpage (h : Addressed cfg t) {id : Nat}
    (hid : (t.channel.mSuperpageQueue.mRegistry id).isValid = true) (hpush : t.pushIntoSuperpage cfg id = .ok t') :
    Addressed cfg t' ∧ (t'.channel.mSuperpageQueue.mRegistry id).isValid = true := by
  obtain ⟨superpage, haccept, hentry⟩ := h.entries id hid
  rw [Traced.pushIntoSuperpage, Channel.pushIntoSuperpage] at hpush
  by_cases hroom : t.channel.mFifoSize < READYFIFO_ENTRIES ∧
      (t.channel.mSuperpageQueue.mRegistry id).pushedPages < (t.channel.mSuperpageQueue.mRegistry id).maxPages
  · rw [if_pos hroom] at hpush
    obtain rfl := Except.ok.inj hpush
    have hnonneg := hentry.pushed
    refine ⟨h.setEntry (e := { t.channel.mSuperpageQueue.mRegistry id with
      pushedPages := (t.channel.mSuperpageQueue.mRegistry id).pushedPages + 1 }) hid (fun sp hsp => ?_) rfl rfl rfl
      (fun page hpage => ?_), ?_⟩
    · exact ⟨hsp.checked, hsp.bus, Int.add_nonneg hsp.pushed Int.one_nonneg, hsp.size⟩
    · rcases List.mem_append.1 hpage with hpage | hpage
      · exact .inl hpage
      · rw [List.mem_singleton.1 hpage]
        refine .inr ⟨superpage, haccept, hentry.checked, ?_, _, hentry.bus, rfl⟩
        -- one more page than were pushed is not more than there are
        have hle : ((t.channel.mSuperpageQueue.mRegistry id).pushedPages + 1) * (cfg.pageSize : Int) ≤ superpage.size :=
          (Int.mul_le_mul_of_nonneg_right hroom.2 (Int.natCast_nonneg _)).trans hentry.size
        have hnat : ((t.channel.mSuperpageQueue.mRegistry id).pushedPages.toNat : Int) =
            (t.channel.mSuperpageQueue.mRegistry id).pushedPages := Int.toNat_of_nonneg hnonneg
        rw [← hnat, Int.add_mul, Int.one_mul] at hle
        show cfg.pageSize * (t.channel.mSuperpageQueue.mRegistry id).pushedPages.toNat + cfg.pageSize ≤ superpage.size
        rw [Nat.mul_comm]
        exact_mod_cast hle
    · show (Function.update t.channel.mSuperpageQueue.mRegistry id _ id).isValid = true
      rw [Function.update_self]
      exact valid_of_nonneg (Int.add_nonneg hnonneg Int.one_nonneg)
  · rw [if_neg hroom] at hpush
    cases hpush

theorem Addressed.pushPages {id : Nat} : ∀ (n : Nat) {t : Traced}, Addressed cfg t →
    (t.channel.mSuperpageQueue.mRegistry id).isValid = true → Traced.pushPages cfg id n t = .ok t' → Addressed cfg t'
  | 0, t, h, _, hpush => by
    obtain rfl := Except.ok.inj hpush
    exact h
  | n + 1, t, h, hid, hpush => by
    rw [Traced.pushPages] at hpush
    cases hone : t.pushIntoSuperpage cfg id with
    | error e =>
      rw [hone] at hpush
      cases hpush
    | ok t₁ =>
      rw [hone] at hpush
      obtain ⟨h₁, hid₁⟩ := h.pushIntoSuperpage hid hone
      exact Addressed.pushPages n h₁ hid₁ hpush

theorem Addressed.pushInitialPages {id : Nat} : ∀ (n i : Nat) {t : Traced}, Addressed cfg t →
    (t.channel.mSuperpageQueue.mRegistry id).isValid = true → Traced.pushInitialPages cfg id i n t = .ok t' →
    Addressed cfg t' ∧ (t'.channel.mSuperpageQueue.mRegistry id).isValid = true
  | 0, _, t, h, hid, hpush => by
    obtain rfl := Except.ok.inj hpush
    exact ⟨h, hid⟩
  | n + 1, i, t, h, hid, hpush => by
    rw [Traced.pushInitialPages] at hpush
    cases hone : (t.resetEntry i).pushIntoSuperpage cfg id with
    | error e =>
      rw [hone] at hpush
      cases hpush
    | ok t₁ =>
      rw [hone] at hpush
      have hreset : Addressed cfg (t.resetEntry i) := h.congr rfl rfl rfl rfl
      obtain ⟨h₁, hid₁⟩ := hreset.pushIntoSuperpage hid hone
      exact Addressed.pushInitialPages n (i + 1) h₁ hid₁ hpush

/-! ## The queues -/

theorem Addressed.onQueue (h : Addressed cfg t) {r : Except QueueError SuperpageQueue}
    (hr : ∀ q, r = .ok q → q.mRegistry = t.channel.mSuperpageQueue.mRegistry)
    (hok : t.onChannel (t.channel.onQueue r) = .ok t') :
    Addressed cfg t' ∧ t'.channel.mSuperpageQueue.mRegistry = t.channel.mSuperpageQueue.mRegistry := by
  cases r with
  | error e => cases hok
  | ok q =>
    obtain rfl := Except.ok.inj hok
    exact ⟨h.congr (hr q rfl) rfl rfl rfl, hr q rfl⟩

theorem removeFromPushingQueue_registry {q q' : SuperpageQueue} (h : q.removeFromPushingQueue = .ok q') :
    q'.mRegistry = q.mRegistry := by
  unfold SuperpageQueue.removeFromPushingQueue at h
  split at h
  · cases h
  · split at h
    · cases h
    · split_ifs at h
      obtain rfl := Except.ok.inj h
      rfl

theorem moveFromArrivalsToFilledQueue_registry {n : Nat} {q q' : SuperpageQueue}
    (h : q.moveFromArrivalsToFilledQueue n = .ok q') : q'.mRegistry = q.mRegistry := by
  unfold SuperpageQueue.moveFromArrivalsToFilledQueue at h
  split at h
  · cases h
  · split at h
    · cases h
    · split_ifs at h
      obtain rfl := Except.ok.inj h
      rfl

theorem Addressed.removePushed (h : Addressed cfg t) {id : Nat}
    (hok : t.onChannel (t.channel.removePushed id) = .ok t') :
    Addressed cfg t' ∧ t'.channel.mSuperpageQueue.mRegistry = t.channel.mSuperpageQueue.mRegistry := by
  rw [Channel.removePushed] at hok
  split_ifs at hok
  · exact h.onQueue (fun q hq => removeFromPushingQueue_registry hq) hok
  · obtain rfl := Except.ok.inj hok
    exact ⟨h, rfl⟩

theorem receive_registry {s s' : Channel} {id bytes : Nat} {entry : Entry} (h : s.receive id entry bytes = .ok s') :
    ∃ superpage, s'.mSuperpageQueue.mRegistry =
      Function.update s.mSuperpageQueue.mRegistry id { entry with superpage } := by
  rw [Channel.receive] at h
  split_ifs at h
  · unfold Channel.onQueue at h
    split at h
    · rename_i q hq
      obtain rfl := Except.ok.inj h
      exact ⟨_, moveFromArrivalsToFilledQueue_registry hq⟩
    · cases h
  · obtain rfl := Except.ok.inj h
    exact ⟨_, rfl⟩

theorem getEntry_eq {q : SuperpageQueue} {id : Nat} {e : Entry} (h : q.getEntry id = .ok e) :
    e = q.mRegistry id ∧ (q.mRegistry id).isValid = true := by
  rw [SuperpageQueue.getEntry] at h
  split_ifs at h with hvalid
  exact ⟨(Except.ok.inj h).symm, hvalid⟩

theorem Addressed.takeArrival (h : Addressed cfg t) {id : Nat} {entry : Entry}
    (hget : t.channel.mSuperpageQueue.getEntry id = .ok entry) (htake : t.takeArrival cfg id entry = .ok t') :
    Addressed cfg t' := by
  obtain ⟨rfl, hvalid⟩ := getEntry_eq hget
  rw [Traced.takeArrival] at htake
  cases hchannel : t.channel.takeArrival cfg id (t.channel.mSuperpageQueue.mRegistry id) with
  | error e =>
    rw [hchannel] at htake
    cases htake
  | ok channel =>
    rw [hchannel] at htake
    obtain rfl := Except.ok.inj htake
    rw [Channel.takeArrival] at hchannel
    obtain ⟨superpage, hregistry⟩ := receive_registry hchannel
    exact h.setEntry (e := { t.channel.mSuperpageQueue.mRegistry id with superpage }) hvalid
      (fun sp hsp => ⟨hsp.checked, hsp.bus, hsp.pushed, hsp.size⟩) hregistry rfl rfl (fun page hpage => .inl hpage)

/-! ## The calls -/

theorem Addressed.fillArrivals : ∀ (turns : Nat) (during : List (List CardWrite)) {t : Traced}, Addressed cfg t →
    Traced.fillArrivals cfg turns during t = .ok t' → Addressed cfg t'
  | 0, _, t, h, hfill => by
    obtain rfl := Except.ok.inj hfill
    exact h
  | turns + 1, during, t, h, hfill => by
    rw [Traced.fillArrivals] at hfill
    split_ifs at hfill with hzero
    · obtain rfl := Except.ok.inj hfill
      exact h
    have h₁ := h.cardWrites (during.headD [])
    revert hfill h₁
    generalize t.cardWrites (during.headD []) = t₁
    intro hfill h₁
    cases hids : t₁.channel.mSuperpageQueue.mArrivals with
    | nil =>
      simp only [hids] at hfill
      cases hfill
    | cons id ids =>
      simp only [hids] at hfill
      cases hget : t₁.channel.mSuperpageQueue.getEntry id with
      | error e =>
        simp only [hget] at hfill
        cases hfill
      | ok entry =>
        simp only [hget] at hfill
        cases harrived : t₁.channel.dataArrived t₁.channel.mFifoBack with
        | error e =>
          simp only [harrived] at hfill
          cases hfill
        | ok status =>
          cases status with
          | noneArrived =>
            simp only [harrived] at hfill
            obtain rfl := Except.ok.inj hfill
            exact h₁
          | partArrived =>
            simp only [harrived] at hfill
            obtain rfl := Except.ok.inj hfill
            exact h₁
          | wholeArrived =>
            cases htake : t₁.takeArrival cfg id entry with
            | error e =>
              simp only [harrived, htake] at hfill
              cases hfill
            | ok t₂ =>
              simp only [harrived, htake] at hfill
              exact Addressed.fillArrivals turns during.tail (h₁.takeArrival hget htake) hfill

theorem Addressed.creditInitialPages (h : Addressed cfg t) {id : Nat} {writes : List CardWrite}
    (hid : (t.channel.mSuperpageQueue.mRegistry id).isValid = true)
    (hcredit : t.creditInitialPages cfg id writes = .ok t') : Addressed cfg t' := by
  have h₃ := h.cardWrites writes
  obtain ⟨r, free, hw⟩ := cardWrites_eq writes t.channel
  have hid₃ : ((t.cardWrites writes).channel.mSuperpageQueue.mRegistry id).isValid = true := by
    rw [cardWrites_channel, hw]
    exact hid
  rw [Traced.creditInitialPages] at hcredit
  revert hcredit h₃ hid₃
  generalize t.cardWrites writes = t₃
  intro hcredit h₃ hid₃
  split at hcredit
  · cases hcredit
  split at hcredit
  · cases hcredit
  rename_i t₄ hreceive
  obtain rfl := Except.ok.inj hcredit
  unfold onChannel at hreceive
  split at hreceive
  · rename_i channel hchannel
    obtain rfl := Except.ok.inj hreceive
    obtain ⟨superpage, hregistry'⟩ := receive_registry hchannel
    exact h₃.setEntry (e := { t₃.channel.mSuperpageQueue.mRegistry id with superpage }) hid₃
      (fun sp hsp => ⟨hsp.checked, hsp.bus, hsp.pushed, hsp.size⟩) hregistry' rfl rfl (fun page hpage => .inl hpage)
  · cases hreceive

theorem Addressed.startPendingDma (h : Addressed cfg t) {id : Nat} {atStart : CardStart}
    (hid : (t.channel.mSuperpageQueue.mRegistry id).isValid = true)
    (hstart : t.startPendingDma cfg id atStart = .ok t') :
    Addressed cfg t' := by
  rw [Traced.startPendingDma] at hstart
  split at hstart
  · cases hstart
  split at hstart
  · cases hstart
  rename_i t₁ hinitial
  have hempty : Addressed cfg { t with channel := { t.channel with freeFifo := [] }, card := [] } :=
    h.congr rfl rfl rfl rfl
  obtain ⟨h₁, hid₁⟩ := hempty.pushInitialPages READYFIFO_ENTRIES 0 hid hinitial
  split_ifs at hstart
  split at hstart
  · cases hstart
  rename_i t₂ hremove
  obtain ⟨h₂, hregistry⟩ := h₁.removePushed hremove
  split at hstart
  · cases hstart
  · exact h₂.creditInitialPages (by rw [hregistry]; exact hid₁) hstart

theorem Addressed.fillPushing (h : Addressed cfg t) {atStart : CardStart}
    (hfill : t.fillPushing cfg atStart = .ok t') : Addressed cfg t' := by
  rw [Traced.fillPushing] at hfill
  split at hfill
  · obtain rfl := Except.ok.inj hfill
    exact h
  split at hfill
  · cases hfill
  rename_i id ids hids entry hget
  obtain ⟨rfl, hvalid⟩ := getEntry_eq hget
  split_ifs at hfill
  · exact h.startPendingDma hvalid hfill
  · simp only at hfill
    split at hfill
    · cases hfill
    · rename_i t₁ hpush
      exact ((h.pushPages _ hvalid hpush).removePushed hfill).1

theorem Addressed.fillSuperpages (h : Addressed cfg t) {atStart : CardStart} {during : List (List CardWrite)}
    (hfill : t.fillSuperpages cfg atStart during = .ok t') : Addressed cfg t' := by
  rw [Traced.fillSuperpages] at hfill
  split at hfill
  · cases hfill
  rename_i t₁ hpush
  have h₁ := h.fillPushing hpush
  split_ifs at hfill
  · obtain rfl := Except.ok.inj hfill
    exact h₁
  · exact h₁.fillArrivals _ during hfill

/-- What is accepted has passed the checks, and has an entry of its own. -/
theorem pushSuperpage_ok {s s' : Channel} {superpage : Superpage} (h : s.pushSuperpage cfg superpage = .ok s') :
    ∃ e, EntryOf cfg superpage e ∧ s'.mSuperpageQueue.mRegistry =
      Function.update s.mSuperpageQueue.mRegistry s.mSuperpageQueue.mNextId e := by
  rw [Channel.pushSuperpage] at h
  cases hcheck : Channel.checkSuperpage cfg superpage with
  | error e =>
    rw [hcheck] at h
    cases h
  | ok _ =>
    simp only [hcheck, bind, Except.bind] at h
    split at h
    · cases h
    split at h
    · cases h
    rename_i busAddress hbus
    split at h
    · cases h
    · simp only [Channel.onQueue] at h
      split at h
      · rename_i q hadd
        obtain rfl := Except.ok.inj h
        rw [SuperpageQueue.addToQueue] at hadd
        split_ifs at hadd
        obtain rfl := Except.ok.inj hadd
        refine ⟨_, ⟨hcheck, hbus, Int.le_refl 0, ?_⟩, rfl⟩
        -- what is left of the number of pages in an `int` is not more than there are
        have hle : toSigned 32 (superpage.size / cfg.pageSize) ≤ (superpage.size / cfg.pageSize : Nat) :=
          toSigned_le _ _
        have hmul : ((superpage.size / cfg.pageSize : Nat) : Int) * cfg.pageSize ≤ superpage.size := by
          exact_mod_cast Nat.div_mul_le_self _ _
        exact (Int.mul_le_mul_of_nonneg_right hle (Int.natCast_nonneg _)).trans hmul
      · cases h

theorem Addressed.pushSuperpage (h : Addressed cfg t) {superpage : Superpage}
    (hpush : t.pushSuperpage cfg superpage = .ok t') : Addressed cfg t' := by
  rw [Traced.pushSuperpage] at hpush
  split at hpush
  · cases hpush
  rename_i channel hchannel
  obtain rfl := Except.ok.inj hpush
  obtain ⟨e, hentry, hregistry⟩ := pushSuperpage_ok hchannel
  have hmore : ∀ {i : Nat} {sp : Superpage}, t.accepted[i]? = some sp →
      (t.accepted ++ [superpage])[i]? = some sp := fun hi => by
    rw [List.getElem?_append_left (List.getElem?_eq_some_iff.1 hi).1, hi]
  refine ⟨fun id hid => ?_, fun page hpage => ?_⟩
  · simp only [hregistry] at hid ⊢
    by_cases heq : id = t.channel.mSuperpageQueue.mNextId
    · rw [heq, Function.update_self, Function.update_self]
      exact ⟨superpage, List.getElem?_concat_length, hentry⟩
    · rw [Function.update_of_ne heq] at hid
      rw [Function.update_of_ne heq, Function.update_of_ne heq]
      obtain ⟨sp, haccept, hsp⟩ := h.entries id hid
      exact ⟨sp, hmore haccept, hsp⟩
  · obtain ⟨sp, haccept, hsp⟩ := h.given page hpage
    exact ⟨sp, hmore haccept, hsp⟩

theorem removeFromFilledQueue_registry {q q' : SuperpageQueue} {e : Entry} (h : q.removeFromFilledQueue = .ok (e, q')) :
    ∃ id, q'.mRegistry = Function.update q.mRegistry id e.reset := by
  unfold SuperpageQueue.removeFromFilledQueue at h
  split at h
  · cases h
  · split at h
    · cases h
    · obtain ⟨rfl, rfl⟩ := Prod.mk.inj (Except.ok.inj h)
      exact ⟨_, rfl⟩

theorem Addressed.popSuperpage (h : Addressed cfg t) (hpop : t.popSuperpage = .ok t') : Addressed cfg t' := by
  rw [Traced.popSuperpage] at hpop
  split at hpop
  · cases hpop
  rename_i superpage channel hchannel
  obtain rfl := Except.ok.inj hpop
  rw [Channel.popSuperpage] at hchannel
  split at hchannel
  · cases hchannel
  rename_i entry q hremove
  obtain ⟨rfl, rfl⟩ := Prod.mk.inj (Except.ok.inj hchannel)
  obtain ⟨popped, hregistry⟩ := removeFromFilledQueue_registry hremove
  refine ⟨fun id hid => ?_, h.given⟩
  simp only [hregistry] at hid ⊢
  -- an entry that is reset is not in use
  by_cases heq : id = popped
  · rw [heq, Function.update_self] at hid
    cases hid
  · rw [Function.update_of_ne heq] at hid ⊢
    exact h.entries id hid

/-- **A call** that has a result gives the card only pages inside their superpages. -/
theorem addressed_step (t t' : Traced) (a : Action) (h : Addressed cfg t) (hstep : step cfg t a = some t') :
    Addressed cfg t' := by
  cases a with
  | push superpage =>
    simp only [step] at hstep
    split at hstep
    · rename_i t₁ hpush
      obtain rfl := Option.some.inj hstep
      exact h.pushSuperpage hpush
    · obtain rfl := Option.some.inj hstep
      exact h
    · obtain rfl := Option.some.inj hstep
      exact h
    · cases hstep
  | fill atStart during =>
    simp only [step] at hstep
    split at hstep
    · rename_i t₁ hfill
      obtain rfl := Option.some.inj hstep
      exact h.fillSuperpages hfill
    · cases hstep
  | pop =>
    simp only [step] at hstep
    split at hstep
    · rename_i t₁ hpop
      obtain rfl := Option.some.inj hstep
      exact h.popSuperpage hpop
    · obtain rfl := Option.some.inj hstep
      exact h
    · cases hstep
  | card writes =>
    obtain rfl := Option.some.inj hstep
    exact h.cardWrites writes

theorem addressed_start (cfg : Config) (s : Channel) : Addressed cfg (start s) := by
  refine ⟨fun id hid => ?_, fun page hpage => absurd hpage List.not_mem_nil⟩
  simp [start, Channel.deviceStartDma, SuperpageQueue.clear, Entry.reset, Entry.isValid] at hid

/-- **Every page the card is given in a run** lies inside an accepted superpage. -/
theorem given_inside (s : Channel) (as : List Action) (hr : run (step cfg) (start s) as = some t) :
    ∀ page ∈ t.given, ∃ superpage, t.accepted[page.serial]? = some superpage ∧ PageOf cfg superpage page := by
  have hl : Legal (step cfg) (fun _ _ => True) (start s) as := legal_true as _
  exact (run_keeps (fun t a t' h _ hstep => addressed_step t t' a h hstep) as (start s) t (addressed_start cfg s) hl
    hr).given

end Traced
end Rorc
end Flp
