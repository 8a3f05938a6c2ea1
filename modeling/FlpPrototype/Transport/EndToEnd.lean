import FlpPrototype.PermFifo.Delivery
import FlpPrototype.Transport.SystemAcks
/-!
# EndToEnd — no file is dropped before the application has it

In every run of the system: what a client removes from its queue was received by the server's application with its
contents, from that client, and the application has acknowledged it or a file of the client above it
(`removed_confirmed`); and what the application gets on a connection is the beginning of what the client has sent
completely on it (`received_inOrder`).  That the server acknowledges only files it has received is here a result, not an
assumption of the client's.
-/
namespace Flp
namespace Transport
namespace System

open TrDataConnection (willing)
open Tracked (Knows Closed GoesOn Sends Kept Indexed Ordered Wired)

variable {s s' : System} {c k : Nat} {l l' : Link} {t t' : Tracked} {rest : Bytes} {f g : TrFile}

/-- **The application has a file**, and has acknowledged it or one above it of the same client. -/
def Confirmed (s : System) (c : Nat) (f : TrFile) : Prop := GotBy s c f ∧
  ∃ a ∈ s.server.acked, (∃ l, s.links[a.connection]? = some l ∧ l.client = c) ∧ trFileIdCompare f.id a.file.id = false

/-- A connection and the client that has it. -/
structure Attached (t : Tracked) (c : Nat) (l : Link) : Prop where
  client : l.client = c
  opening : l.opening.iniLine = t.client.iniLine
  connected : t.client.stage ≠ .notConnected →
    l.stream = t.wire ∧ l.finished = t.finished ∧ l.sending = t.sending ∧ t.Direct
  waiting : t.client.stage = .notConnected → l.stream = t.client.iniLine ∧ l.finished = [] ∧ l.sending = none

/-- What was sent on a connection of a client. -/
def Sound (s : System) (c : Nat) (t : Tracked) (l : Link) : Prop :=
  (∀ f ∈ l.finished, f ∈ t.sent) ∧ Closed (GotBy s c) t.queued l.finished

/-- **A client in the system.** -/
structure TrackedOk (s : System) (c : Nat) (t : Tracked) : Prop where
  ordered : Ordered t
  opens : t.client.Opens
  sendable : ∀ f ∈ t.queued, f.Sendable ∧ Fits f
  here : t.client.stage ≠ .notConnected → Indexed t.here
  links : ∀ (k : Nat) l, s.links[k]? = some l → l.client = c → Sound s c t l
  sending : ∀ f, t.client.stage ≠ .notConnected → t.sending = some f → ∀ g ∈ t.queued,
    trFileIdCompare f.id g.id = true → g ∈ t.finished ∨ GotBy s c g
  knows : Knows (Confirmed s c) t

/-- A client with the connection it has. -/
structure StationOk (s : System) (c : Nat) (station : Station) : Prop where
  tracked : TrackedOk s c station.tracked
  cx : station.tracked.client.stage ≠ .notConnected → ∃ k, station.cx = .on k
  attached : ∀ k, station.cx = .on k → ∃ l, s.links[k]? = some l ∧ Attached station.tracked c l

/-- **The system.** -/
structure Inv (s : System) : Prop where
  server : s.server.Inv
  parses : s.server.Parses
  count : s.links.length = s.server.accepted
  old : ∀ g ∈ s.server.received, g.connection < s.server.accepted
  link : ∀ (k : Nat) l, s.links[k]? = some l → ∃ rest, LinkOk s.server k l rest
  station : ∀ c, StationOk s c (s.stations c)

/-! ## What stays -/

/-- Nothing recorded is lost. -/
structure Grew (s s' : System) : Prop where
  received : ∀ g ∈ s.server.received, g ∈ s'.server.received
  acked : ∀ g ∈ s.server.acked, g ∈ s'.server.acked
  links : ∀ (k : Nat) l, s.links[k]? = some l → ∃ l', s'.links[k]? = some l' ∧ l'.client = l.client

theorem GotBy.mono (h : GotBy s c f) (hg : Grew s s') : GotBy s' c f := by
  obtain ⟨g, hgr, ⟨l, hl, hc⟩, hcontents⟩ := h
  obtain ⟨l', hl', hc'⟩ := hg.links _ l hl
  exact ⟨g, hg.received g hgr, ⟨l', hl', hc'.trans hc⟩, hcontents⟩

theorem Confirmed.mono (h : Confirmed s c f) (hg : Grew s s') : Confirmed s' c f := by
  obtain ⟨hgot, a, ha, ⟨l, hl, hc⟩, hle⟩ := h
  obtain ⟨l', hl', hc'⟩ := hg.links _ l hl
  exact ⟨hgot.mono hg, a, hg.acked a ha, ⟨l', hl', hc'.trans hc⟩, hle⟩

theorem Sound.mono (h : Sound s c t l) (hg : Grew s s') (hfinished : l'.finished = l.finished) : Sound s' c t l' := by
  unfold Sound
  rw [hfinished]
  exact ⟨h.1, h.2.mono fun _ hf => GotBy.mono hf hg⟩

/-- Links that differ in what the server does with them. -/
structure Alike (c : Nat) (l l' : Link) : Prop where
  client : l'.client = l.client
  opening : l.client = c → l'.opening = l.opening
  stream : l.client = c → l'.stream = l.stream
  finished : l.client = c → l'.finished = l.finished
  sending : l.client = c → l'.sending = l.sending

theorem Alike.rfl : Alike c l l :=
  ⟨Eq.refl _, fun _ => Eq.refl _, fun _ => Eq.refl _, fun _ => Eq.refl _, fun _ => Eq.refl _⟩

/-- The connections of a client are as they were; a new one has no files. -/
structure SameLinks (c : Nat) (s s' : System) : Prop where
  old : ∀ (k : Nat) l, s.links[k]? = some l → ∃ l', s'.links[k]? = some l' ∧ Alike c l l'
  new : ∀ (k : Nat) l', s'.links[k]? = some l' → l'.finished = [] ∨ ∃ l, s.links[k]? = some l

theorem SameLinks.grew (h : SameLinks c s s') (hr : ∀ g ∈ s.server.received, g ∈ s'.server.received)
    (ha : ∀ g ∈ s.server.acked, g ∈ s'.server.acked) : Grew s s' :=
  ⟨hr, ha, fun k l hl => by
    obtain ⟨l', hl', halike⟩ := h.old k l hl
    exact ⟨l', hl', halike.client⟩⟩

theorem TrackedOk.frame (h : TrackedOk s c t) (hg : Grew s s') (hl : SameLinks c s s') : TrackedOk s' c t where
  ordered := h.ordered
  opens := h.opens
  sendable := h.sendable
  here := h.here
  links := fun k l' hl' hc => by
    rcases hl.new k l' hl' with hnone | ⟨l, hlk⟩
    · unfold Sound
      rw [hnone]
      exact ⟨fun f hf => absurd hf List.not_mem_nil, fun before f after hsplit =>
        absurd hsplit.symm (List.append_ne_nil_of_right_ne_nil _ (List.cons_ne_nil _ _))⟩
    · obtain ⟨l'', hl'', halike⟩ := hl.old k l hlk
      obtain rfl := Option.some.inj (hl''.symm.trans hl')
      have hc' := halike.client.symm.trans hc
      exact (h.links k l hlk hc').mono hg (halike.finished hc')
  sending := fun f hstage hf g hgq hbelow => (h.sending f hstage hf g hgq hbelow).imp_right fun h => GotBy.mono h hg
  knows := h.knows.mono fun _ hf => hf.mono hg

theorem Attached.alike (h : Attached t c l) (ha : Alike c l l') : Attached t c l' where
  client := ha.client.trans h.client
  opening := by rw [ha.opening h.client]; exact h.opening
  connected := fun hstage => by
    rw [ha.stream h.client, ha.finished h.client, ha.sending h.client]
    exact h.connected hstage
  waiting := fun hstage => by
    rw [ha.stream h.client, ha.finished h.client, ha.sending h.client]
    exact h.waiting hstage

theorem StationOk.frame {station : Station} (h : StationOk s c station) (hg : Grew s s') (hl : SameLinks c s s') :
    StationOk s' c station where
  tracked := h.tracked.frame hg hl
  cx := h.cx
  attached := fun k hk => by
    obtain ⟨l, hlk, hattached⟩ := h.attached k hk
    obtain ⟨l', hl', halike⟩ := hl.old k l hlk
    exact ⟨l', hl', hattached.alike halike⟩

/-! ## A client's step -/

theorem stations_setStation (s : System) (c : Nat) (station : Station) :
    (s.setStation c station).stations c = station :=
  Function.update_self ..

theorem stations_other {c' : Nat} (s : System) (station : Station) (h : c' ≠ c) :
    (s.setStation c station).stations c' = s.stations c' := Function.update_of_ne h ..

theorem set_links {links : List Link} (h : links[k]? = some l) (j : Nat) :
    (links.set k l')[j]? = if j = k then some l' else links[j]? := by
  rw [List.getElem?_set]
  by_cases hj : k = j
  · rw [if_pos hj, if_pos (List.getElem?_eq_some_iff.1 h).1, if_pos hj.symm]
  · rw [if_neg hj, if_neg fun e => hj e.symm]

theorem modify_links {links : List Link} (h : links[k]? = some l) (f : Link → Link) :
    links.modify k f = links.set k (f l) := by
  refine List.ext_getElem? fun j => ?_
  rw [List.getElem?_modify, set_links h]
  by_cases hj : k = j
  · subst hj
    rw [if_pos rfl, h]
    simp
  · rw [if_neg fun e => hj e.symm]
    simp [hj]

/-- The step of a client, with its connection. -/
theorem Inv.station_link (h : Inv s) (hl : s.links[k]? = some l) (hc : l.client = c) (hc' : l'.client = c)
    (hlink : ∃ rest, LinkOk s.server k l' rest)
    (hstation : StationOk { s.setStation c ⟨t', .on k⟩ with links := s.links.set k l' } c ⟨t', .on k⟩) :
    Inv { s.setStation c ⟨t', .on k⟩ with links := s.links.set k l' } where
  server := h.server
  parses := h.parses
  count := by
    show (s.links.set k l').length = _
    rw [List.length_set]
    exact h.count
  old := h.old
  link := fun j x hx => by
    rcases getElem?_set_cases hx with ⟨rfl, rfl⟩ | ⟨-, hx⟩
    · exact hlink
    · exact h.link j x hx
  station := fun c₁ => by
    by_cases heq : c₁ = c
    · subst heq
      show StationOk _ c₁ ((s.setStation c₁ ⟨t', .on k⟩).stations c₁)
      rw [stations_setStation]
      exact hstation
    · show StationOk _ c₁ ((s.setStation c ⟨t', .on k⟩).stations c₁)
      rw [stations_other s _ heq]
      have hsame : SameLinks c₁ s { s.setStation c ⟨t', .on k⟩ with links := s.links.set k l' } := by
        refine ⟨fun j x hx => ?_, fun j x hx => ?_⟩
        · by_cases hj : j = k
          · subst hj
            obtain rfl := Option.some.inj (hx.symm.trans hl)
            have hne : x.client ≠ c₁ := fun e => heq (e.symm.trans hc)
            exact ⟨l', by rw [set_links hl, if_pos rfl], hc'.trans hc.symm, fun e => absurd e hne,
              fun e => absurd e hne, fun e => absurd e hne, fun e => absurd e hne⟩
          · exact ⟨x, by rw [set_links hl, if_neg hj]; exact hx, .rfl⟩
        · rcases getElem?_set_cases hx with ⟨rfl, -⟩ | ⟨-, hx⟩
          · exact .inr ⟨l, hl⟩
          · exact .inr ⟨x, hx⟩
      exact (h.station c₁).frame (hsame.grew (fun _ hg => hg) fun _ hg => hg) hsame

/-- The step of a client that is no matter of the connections. -/
theorem Inv.station_alone {station : Station} (h : Inv s) (hstation : StationOk s c station) :
    Inv (s.setStation c station) where
  server := h.server
  parses := h.parses
  count := h.count
  old := h.old
  link := h.link
  station := fun c₁ => by
    have hsame : ∀ c₂, SameLinks c₂ s (s.setStation c station) :=
      fun c₂ => ⟨fun j x hx => ⟨x, hx, .rfl⟩, fun j x hx => .inr ⟨x, hx⟩⟩
    have hgrew := (hsame c).grew (fun _ hg => hg) fun _ hg => hg
    by_cases heq : c₁ = c
    · subst heq
      rw [stations_setStation]
      exact hstation.frame hgrew (hsame c₁)
    · rw [stations_other s _ heq]
      exact (h.station c₁).frame hgrew (hsame c₁)

/-! ## A client's own step -/

theorem Sound.goesOn (h : Sound s c t l) (hk : Kept t) (hg : GoesOn t t') : Sound s c t' l := by
  refine ⟨fun f hf => hg.sent f (h.1 f hf), ?_⟩
  rcases hg.queued with hq | ⟨f, hq, hf⟩
  · rw [hq]
    exact h.2
  · rw [hq]
    exact h.2.add fun g hgf => hf.1 g (hk.sent g (h.1 g hgf))

/-- What lies below the file under way was sent on the connection, or is with the application; a new file does not. -/
theorem TrackedOk.below (h : TrackedOk s c t) (hg : GoesOn t t') (hstage : t.client.stage ≠ .notConnected)
    (hf : t.sending = some f) (hgq : g ∈ t'.queued) (hbelow : trFileIdCompare f.id g.id = true) :
    g ∈ t.finished ∨ GotBy s c g := by
  rcases hg.queued with hq | ⟨f', hq, habove⟩
  · exact h.sending f hstage hf g (hq ▸ hgq) hbelow
  · rw [hq] at hgq
    rcases List.mem_append.1 hgq with hgq | hgq
    · exact h.sending f hstage hf g hgq hbelow
    · rw [List.mem_singleton.1 hgq] at hbelow
      have := trFileIdCompare_asymm (habove.1 f (h.ordered.kept.sending f hf).1)
      rw [hbelow] at this
      cases this

theorem TrackedOk.sending_goesOn (h : TrackedOk s c t) (hg : GoesOn t t') (hstage : t.client.stage ≠ .notConnected) :
    ∀ f, t'.sending = some f → ∀ g ∈ t'.queued, trFileIdCompare f.id g.id = true → g ∈ t'.finished ∨ GotBy s c g := by
  intro f hf g hgq hbelow
  cases (hg.sends hstage).1 with
  | nothing hsame =>
    rw [hsame.finished]
    exact h.below hg hstage (hsame.sending ▸ hf) hgq hbelow
  | begin hidle hsending hmem hwire hfinished hall =>
    obtain rfl := Option.some.inj (hsending.symm.trans hf)
    rw [hfinished]
    rcases hall g hgq hbelow with hremoved | hfin
    · exact .inr (h.knows.removed g hremoved).1
    · exact .inl hfin
  | sent hwire hfiles =>
    rcases hfiles with ⟨hfinished, hsending⟩ | ⟨f', -, hnone, -⟩
    · rw [hfinished]
      exact h.below hg hstage (hsending ▸ hf) hgq hbelow
    · rw [hnone] at hf
      cases hf

theorem sync_waiting (hstage : t.client.stage = .notConnected) : l.sync t = l := if_pos hstage

theorem sync_connected (hstage : t.client.stage ≠ .notConnected) :
    l.sync t = { l with stream := t.wire, finished := t.finished, sending := t.sending } := if_neg hstage

theorem sync_client (l : Link) (t : Tracked) : (l.sync t).client = l.client := by
  unfold Link.sync
  split <;> rfl

/-- **The connection of the client** after its step. -/
theorem Sound.sync (h : TrackedOk s c t) (hsound : Sound s c t l) (ha : Attached t c l) (hg : GoesOn t t') :
    Sound s c t' (l.sync t') := by
  have hstep := hsound.goesOn h.ordered.kept hg
  by_cases hstage : t'.client.stage = .notConnected
  · rw [sync_waiting hstage]
    exact hstep
  · have hstage' : t.client.stage ≠ .notConnected := fun e => hstage (hg.stage.2 e)
    have hfinished := (ha.connected hstage').2.1
    unfold Sound
    rw [sync_connected hstage]
    show (∀ f ∈ t'.finished, f ∈ t'.sent) ∧ Closed (GotBy s c) t'.queued t'.finished
    refine ⟨fun f hf => ?_, ?_⟩
    · rcases hg.finished f hf with hf | hf
      · exact hstep.1 f (hfinished ▸ hf)
      · exact hf
    · have hclosed := hstep.2
      rw [hfinished] at hclosed
      cases (hg.sends hstage').1 with
      | nothing hsame =>
        rw [hsame.finished]
        exact hclosed
      | begin hidle hsending hmem hwire hfin hall =>
        rw [hfin]
        exact hclosed
      | sent hwire hfiles =>
        rcases hfiles with ⟨hfin, -⟩ | ⟨f, hf, -, hfin⟩
        · rw [hfin]
          exact hclosed
        · rw [hfin]
          exact hclosed.append fun g hgq hbelow => h.below hg hstage' hf hgq hbelow

theorem Attached.sync (ha : Attached t c l) (hg : GoesOn t t') : Attached t' c (l.sync t') := by
  by_cases hstage : t'.client.stage = .notConnected
  · obtain ⟨hstream, hfinished, hsending⟩ := ha.waiting (hg.stage.1 hstage)
    rw [sync_waiting hstage]
    exact ⟨ha.client, ha.opening.trans hg.iniLine.symm, fun h => absurd hstage h,
      fun _ => ⟨hstream.trans hg.iniLine.symm, hfinished, hsending⟩⟩
  · have hstage' : t.client.stage ≠ .notConnected := fun e => hstage (hg.stage.2 e)
    rw [sync_connected hstage]
    refine ⟨ha.client, ha.opening.trans hg.iniLine.symm, fun _ => ⟨rfl, rfl, rfl, ?_⟩, fun h => absurd h hstage⟩
    have hdirect := (ha.connected hstage').2.2.2
    unfold Tracked.Direct at hdirect ⊢
    rw [hg.iniLine]
    cases (hg.sends hstage').1 with
    | nothing hsame =>
      rw [hsame.wire]
      exact hdirect
    | begin hidle hsending hmem hwire hfin hall =>
      rw [hwire]
      exact hdirect
    | sent hwire hfiles =>
      rw [hwire]
      exact hdirect.trans (List.prefix_append _ _)

/-- **The stream of the connection** after the client's step. -/
theorem link_goesOn (h : TrackedOk s c t) (ha : Attached t c l) (hlink : LinkOk s.server k l rest) (hg : GoesOn t t')
    (ho : Ordered t') (hsendable : ∀ f ∈ t'.queued, f.Sendable ∧ Fits f) :
    ∃ rest, LinkOk s.server k (l.sync t') rest := by
  by_cases hstage : t'.client.stage = .notConnected
  · rw [sync_waiting hstage]
    exact ⟨rest, hlink⟩
  have hstage' : t.client.stage ≠ .notConnected := fun e => hstage (hg.stage.2 e)
  obtain ⟨hstream, hfinished, hsending, hdirect⟩ := ha.connected hstage'
  obtain ⟨rest₁, hpart, hwire⟩ := (h.ordered.wired hstage').direct hdirect
  have hrest : rest = rest₁ := by
    have heq := hlink.stream
    rw [hstream, ha.opening, Link.files, hfinished, hsending, ← hwire] at heq
    exact List.append_cancel_left heq
  subst hrest
  have hattached := ha.sync hg
  rw [sync_connected hstage] at hattached ⊢
  have hdirect' := (hattached.connected hstage).2.2.2
  obtain ⟨rest', hpart', hwire'⟩ := (ho.wired hstage).direct hdirect'
  have hunsent : t'.sending ≠ none → rest' ≠ [] := fun hs => by
    obtain ⟨f, hf⟩ := Option.ne_none_iff_exists'.1 hs
    rw [hf] at hpart'
    exact Tracked.part_ne_nil hpart'
  -- the files are the same, and some bytes were taken
  have same : ∀ {taken : Bytes}, t'.wire = t.wire ++ taken →
      t'.finished ++ t'.sending.toList = t.finished ++ t.sending.toList → t.finished <+: t'.finished →
      LinkOk s.server k { l with stream := t'.wire, finished := t'.finished, sending := t'.sending } rest' := by
    intro taken htaken hfiles hprefix
    have hsplit : rest = taken ++ rest' := by
      rw [hfiles, hg.iniLine, ← hwire, htaken, List.append_assoc] at hwire'
      exact (List.append_cancel_left hwire').symm
    subst hsplit
    refine hlink.sent rfl ?_ (by rw [hstream]; exact htaken) rfl (hfinished ▸ hprefix) hunsent fun _ hl => hl
    show t'.finished ++ t'.sending.toList = l.finished ++ l.sending.toList
    rw [hfinished, hsending]
    exact hfiles
  cases (hg.sends hstage').1 with
  | nothing hsame =>
    have hnone : t'.wire = t.wire ++ [] := by rw [hsame.wire, List.append_nil]
    exact ⟨rest', same hnone (by rw [hsame.finished, hsame.sending]) (hsame.finished ▸ List.prefix_refl _)⟩
  | sent htaken hfiles =>
    refine ⟨rest', same htaken ?_ ?_⟩
    · rcases hfiles with ⟨hfin, hsend⟩ | ⟨f, hf, hnone, hfin⟩
      · rw [hfin, hsend]
      · rw [hfin, hnone, hf]
        exact List.append_nil _
    · rcases hfiles with ⟨hfin, -⟩ | ⟨f, -, -, hfin⟩
      · rw [hfin]
      · rw [hfin]
        exact List.prefix_append _ _
  | @begin f hidle hf hmem hsamewire hfin hall =>
    have hnil : rest = [] := by
      rw [hidle] at hpart
      cases hpart
      rfl
    subst hnil
    refine ⟨f.encode, ?_⟩
    rw [hsamewire, ← hstream, hfin, ← hfinished, hf]
    exact hlink.begin (hsendable f hmem) (hsending.trans hidle)

theorem grew_link (hl : s.links[k]? = some l) (hclient : l'.client = l.client) (station : Station) :
    Grew s { s.setStation c station with links := s.links.set k l' } :=
  ⟨fun _ hg => hg, fun _ hg => hg, fun j x hx => by
    by_cases hj : j = k
    · subst hj
      obtain rfl := Option.some.inj (hx.symm.trans hl)
      exact ⟨l', by rw [set_links hl, if_pos rfl], hclient⟩
    · exact ⟨x, by rw [set_links hl, if_neg hj]; exact hx, rfl⟩⟩

theorem removes_queued (h : Tracked.Removes t t') : t'.queued = t.queued := by
  cases h <;> rfl

theorem onMessages_queued {call : Perm.Env × Perm.Call} (h : t.onMessages call = some t') : t'.queued = t.queued := by
  unfold Tracked.onMessages at h
  split at h
  · rw [Option.some.inj h]
  · obtain ⟨m, -, rfl⟩ := Option.map_eq_some_iff.1 h
    rfl

/-- The files a client's step adds to its queue. -/
theorem queued_sendable (a : Transport.Action) (h : ∀ f ∈ t.queued, f.Sendable ∧ Fits f)
    (hadds : Adds t (fun f => f.Sendable ∧ Fits f) a) (hown : Own a) (hs : t.step a = some t') :
    ∀ f ∈ t'.queued, f.Sendable ∧ Fits f := by
  have added : ∀ {f}, f.Sendable ∧ Fits f → ∀ g ∈ t.queued ++ [f], g.Sendable ∧ Fits g := fun hf g hg => by
    rcases List.mem_append.1 hg with hg | hg
    · exact h g hg
    · rw [List.mem_singleton.1 hg]
      exact hf
  cases a with
  | connect direct => exact hown.elim
  | lose => exact hown.elim
  | replies lines => exact hown.elim
  | remove =>
    obtain ⟨-, hs⟩ := Option.ite_none_right_eq_some.1 hs
    obtain rfl := Option.some.inj hs
    rw [removes_queued t.remove_removes]
    exact h
  | select e =>
    obtain ⟨-, hs⟩ := Option.ite_none_right_eq_some.1 hs
    obtain ⟨choice, hchoice, rfl⟩ := Option.map_eq_some_iff.1 hs
    cases choice with
    | nothing client => exact h
    | begun f client => exact h
    | ended client => exact h
    | made f client => exact added (hadds f client hchoice)
  | transmit n =>
    obtain ⟨-, hs⟩ := Option.ite_none_right_eq_some.1 hs
    obtain rfl := Option.some.inj hs
    rcases t.transmit_cases n with ⟨-, heq⟩ | ⟨-, heq⟩
    · rw [heq]
      exact h
    · rw [heq]
      exact h
  | flush e =>
    obtain ⟨-, hs⟩ := Option.ite_none_right_eq_some.1 hs
    rw [onMessages_queued hs]
    exact h
  | sendMsg e msg =>
    rw [onMessages_queued hs]
    exact h
  | queueAddFile f =>
    obtain rfl := Option.some.inj hs
    by_cases hfull : t.client.inputQueue.isFull = true
    · rw [show t.queueAddFile f = t from if_pos hfull]
      exact h
    · rw [show (t.queueAddFile f).queued = t.queued ++ [{ f with handle := t.client.allocated }] by
        rw [Tracked.queueAddFile]; simp only [if_neg hfull]]
      exact added (hadds (Bool.eq_false_iff.2 hfull))
  | getLastFileSent =>
    obtain rfl := Option.some.inj hs
    exact h

theorem TrackedOk.goesOn (h : TrackedOk s c t) (hg : GoesOn t t') (ho : Ordered t')
    (hsendable : ∀ f ∈ t'.queued, f.Sendable ∧ Fits f)
    (hlinks : ∀ (k : Nat) l, s'.links[k]? = some l → l.client = c → Sound s c t' l) (hgrew : Grew s s') :
    TrackedOk s' c t' where
  ordered := ho
  opens := hg.opens h.opens
  sendable := hsendable
  here := fun hstage => (hg.sends fun e => hstage (hg.stage.2 e)).2
  links := fun k l hl hc => (hlinks k l hl hc).mono hgrew rfl
  sending := fun f hstage hf g hgq hbelow =>
    (h.sending_goesOn hg (fun e => hstage (hg.stage.2 e)) f hf g hgq hbelow).imp_right fun h => GotBy.mono h hgrew
  knows := (hg.knows _ h.knows).mono fun _ hf => hf.mono hgrew

/-- **A client's own step** keeps the system as it should be. -/
theorem inv_client {a : Transport.Action} (h : Inv s) (hadds : AddsWell s (.client c a))
    (hs : s.step (.client c a) = some s') :
    Inv s' := by
  obtain ⟨hown, t', ht, rfl⟩ := step_client hs
  obtain ⟨habove, hnew⟩ :
    (s.stations c).tracked.AddsAbove a ∧ Adds (s.stations c).tracked (fun f => f.Sendable ∧ Fits f) a :=
    hadds
  have hstation := h.station c
  have htracked := hstation.tracked
  generalize hst : s.stations c = station at habove hnew ht hstation htracked
  obtain ⟨t, cx⟩ := station
  have hserver : t.ServerAcks a := by cases a <;> trivial
  have ho := Tracked.ordered_step a htracked.ordered hserver habove ht
  have hg := Tracked.own_goesOn a hown htracked.ordered htracked.here habove ht
  have hsendable := queued_sendable a htracked.sendable hnew hown ht
  unfold goOn
  rw [hst]
  cases cx with
  | on k =>
    obtain ⟨l, hl, hattached⟩ := hstation.attached k rfl
    obtain ⟨rest, hlink⟩ := h.link k l hl
    have hclient : (l.sync t').client = c := (sync_client l t').trans hattached.client
    simp only [modify_links hl]
    refine h.station_link hl hattached.client hclient (link_goesOn htracked hattached hlink hg ho hsendable)
      ⟨?_, fun _ => ⟨k, rfl⟩, fun j hj => ?_⟩
    · refine htracked.goesOn hg ho hsendable (fun j x hx hc => ?_) (grew_link hl (sync_client l t') _)
      rcases getElem?_set_cases hx with ⟨-, rfl⟩ | ⟨-, hx⟩
      · exact (htracked.links k l hl hattached.client).sync htracked hattached hg
      · exact (htracked.links j x hx hc).goesOn htracked.ordered.kept hg
    · cases hj
      exact ⟨l.sync t', by rw [set_links hl, if_pos rfl], hattached.sync hg⟩
  | none | dialing | refused =>
    have hnot : t.client.stage = .notConnected := by
      by_contra hstage
      obtain ⟨k, hk⟩ := hstation.cx hstage
      cases hk
    refine h.station_alone ⟨htracked.goesOn hg ho hsendable (fun j x hx hc =>
      (htracked.links j x hx hc).goesOn htracked.ordered.kept hg)
        ⟨fun _ hg => hg, fun _ hg => hg, fun j x hx => ⟨x, hx, rfl⟩⟩,
      fun hstage => absurd (hg.stage.2 hnot) hstage, fun k hk => by cases hk⟩

/-! ## Opening and losing a connection -/

/-- A client that only changes its connection. -/
theorem StationOk.waits {cx : Cx} (h : StationOk s c ⟨t, cx⟩) (hstage : t.client.stage = .notConnected) {cx' : Cx}
    (hcx : ∀ k, cx' ≠ .on k) : StationOk s c ⟨t, cx'⟩ :=
  ⟨h.tracked, fun e => absurd hstage e, fun k hk => absurd hk (hcx k)⟩

theorem inv_dial (h : Inv s) (hs : s.step (.dial c) = some s') : Inv s' := by
  obtain ⟨⟨-, hstage⟩, rfl⟩ := step_dial hs
  exact h.station_alone ((h.station c).waits hstage fun k e => by cases e)

/-- A client whose connection is lost has its records. -/
theorem TrackedOk.lose (h : TrackedOk s c t) (hs : t.step .lose = some t') :
    TrackedOk s c t' ∧ t'.client.stage = .notConnected := by
  have ho := Tracked.ordered_step .lose h.ordered trivial trivial hs
  obtain ⟨-, hs⟩ := Option.ite_none_right_eq_some.1 hs
  obtain rfl := Option.some.inj hs
  exact ⟨⟨ho, ⟨h.opens.line, h.opens.fits⟩, h.sendable, fun hstage => absurd rfl hstage, h.links,
    fun _ hstage => absurd rfl hstage, h.knows.congr rfl rfl rfl⟩, rfl⟩

theorem inv_hangUp (h : Inv s) (hs : s.step (.hangUp c) = some s') : Inv s' := by
  obtain ⟨t', rfl, ⟨rfl, hstage⟩ | ht⟩ := step_hangUp hs
  · exact h.station_alone ((h.station c).waits hstage fun k e => by cases e)
  · obtain ⟨htracked, hstage⟩ := (h.station c).tracked.lose ht
    exact h.station_alone ⟨htracked, fun e => absurd hstage e, fun k hk => by cases hk⟩

/-- **`READY` has come**: the client begins with the first file of its queue. -/
theorem TrackedOk.connect (h : TrackedOk s c t) (ha : Attached t c l) (hs : t.step (.connect true) = some t') :
    TrackedOk s c t' ∧ t'.client.stage ≠ .notConnected ∧ Attached t' c (l.sync t') ∧ (l.sync t').finished = l.finished ∧
      (l.sync t').stream = l.stream ∧ (l.sync t').sending = l.sending ∧ (l.sync t').arrived = l.arrived ∧
      (l.sync t').opening = l.opening := by
  have ho := Tracked.ordered_step (.connect true) h.ordered trivial trivial hs
  obtain ⟨hat, hs⟩ := Option.ite_none_right_eq_some.1 hs
  obtain ⟨hstream, hfinished, hsending⟩ := ha.waiting hat
  obtain rfl := Option.some.inj hs
  have hstage : t.client.connect.stage ≠ .notConnected := fun e => by cases e
  refine ⟨⟨ho, ⟨h.opens.line, h.opens.fits⟩, h.sendable, fun _ => ⟨Int.natCast_nonneg _, fun _ => Int.le_refl 0,
    fun i f hi => absurd hi (Int.not_lt.2 (Int.natCast_nonneg i))⟩, h.links, (fun f _ hf => by cases hf),
    h.knows.congr rfl rfl rfl⟩, hstage, ?_⟩
  rw [sync_connected hstage]
  exact ⟨⟨ha.client, ha.opening, fun _ => ⟨rfl, rfl, rfl, List.prefix_refl _⟩, fun e => absurd e hstage⟩,
    hfinished.symm, hstream.symm, hsending.symm, rfl, rfl⟩

/-- The link of a client, with the station after a step that adds no file. -/
theorem Inv.station_replied (replies : List Bytes) (h : Inv s) (hl : s.links[k]? = some l)
    (hattached : Attached t' c l')
    (hl' : l' = { l with stream := l'.stream, replies := replies, finished := l'.finished, sending := l'.sending })
    (hstream : l'.stream = l.stream) (hfinished : l'.finished = l.finished) (hsending : l'.sending = l.sending)
    (hreplies : ∀ line ∈ replies, line ∈ l.replies) (htracked : TrackedOk s c t') :
    Inv { s.setStation c ⟨t', .on k⟩ with links := s.links.set k l' } := by
  have hsame : l' = { l with replies := replies } := by rw [hl', hstream, hfinished, hsending]
  obtain ⟨rest, hlink⟩ := h.link k l hl
  have hclient : l'.client = l.client := by rw [hsame]
  have hc : l.client = c := hclient.symm.trans hattached.client
  have hgrew := grew_link hl hclient ⟨t', .on k⟩ (c := c)
  refine h.station_link hl hc hattached.client ⟨rest, ?_⟩ ⟨htracked.frame hgrew ⟨fun j x hx => ?_, fun j x hx => ?_⟩,
    fun _ => ⟨k, rfl⟩, fun j hj => ?_⟩
  · rw [hsame]
    have hnone : LinkOk s.server k l ([] ++ rest) := hlink
    exact hnone.sent rfl rfl (List.append_nil _).symm rfl (List.prefix_refl _) hlink.unsent hreplies
  · by_cases hj : j = k
    · subst hj
      obtain rfl := Option.some.inj (hx.symm.trans hl)
      refine ⟨l', by rw [set_links hl, if_pos rfl], hclient, ?_, fun _ => hstream, fun _ => hfinished,
        fun _ => hsending⟩
      rw [hsame]
      exact fun _ => rfl
    · exact ⟨x, by rw [set_links hl, if_neg hj]; exact hx, .rfl⟩
  · rcases getElem?_set_cases hx with ⟨rfl, -⟩ | ⟨-, hx⟩
    · exact .inr ⟨l, hl⟩
    · exact .inr ⟨x, hx⟩
  · cases hj
    exact ⟨l', by rw [set_links hl, if_pos rfl], hattached⟩

/-- A client is attached to the connection it has. -/
theorem Inv.attached (h : Inv s) (hcx : (s.stations c).cx = .on k) (hl : s.links[k]? = some l) :
    Attached (s.stations c).tracked c l := by
  obtain ⟨l', hl', hattached⟩ := (h.station c).attached k hcx
  obtain rfl := Option.some.inj (hl.symm.trans hl')
  exact hattached

theorem inv_ready (h : Inv s) (hs : s.step (.ready c) = some s') : Inv s' := by
  obtain ⟨k, l, t', hcx, hl, -, ht, rfl⟩ := step_ready hs
  obtain ⟨htracked, hstage, hattached', hfinished, hstream, hsending, -, -⟩ :=
    (h.station c).tracked.connect (h.attached hcx hl) ht
  refine h.station_replied l.replies.tail hl
    ⟨hattached'.client, hattached'.opening, hattached'.connected, hattached'.waiting⟩ ?_ hstream hfinished hsending
    (fun line hline => List.mem_of_mem_tail hline) htracked
  rw [sync_connected hstage]

/-! ## Replies -/

theorem parseAck_readyLine : TrClient.parseAck readyLine = none := by decide

/-- **An acknowledgement is read back.** -/
theorem parseAck_ackLine {minId majId : Int} (hmin : -2 ^ 31 ≤ minId ∧ minId < 2 ^ 31)
    (hmaj : -2 ^ 31 ≤ majId ∧ majId < 2 ^ 31) : TrClient.parseAck (ackLine minId majId) = some (minId, majId) := by
  have hblank : ∀ x ∈ [(32 : UInt8)], isSpace x = true := fun x hx => by rw [List.mem_singleton.1 hx]; decide
  have htext : ackLine minId majId = ascii "ACK ".toList ++ (printInt minId ++ 32 :: (printInt majId ++ [])) := by
    simp [ackLine, ascii]
  have hdrop : (ackLine minId majId).drop 4 = [] ++ (printInt minId ++ 32 :: (printInt majId ++ [])) := by
    rw [htext]
    exact List.drop_left' rfl
  have hfirst := @scanInt_printInt minId [] (32 :: (printInt majId ++ [])) (fun _ hx => absurd hx List.not_mem_nil)
    (noDigit_cons (by decide))
  have hsecond := scanInt_printInt majId hblank noDigit_nil
  rw [List.singleton_append] at hsecond
  unfold TrClient.parseAck
  rw [if_pos (by rw [htext]; exact List.isPrefixOf_iff_prefix.2 (List.prefix_append _ _)), hdrop, hfirst,
    Option.bind_some, hsecond, Option.map_some, intOf_eq hmin.1 hmin.2, intOf_eq hmaj.1 hmaj.2]

theorem contents_ids (h : f.contents = g.contents) : f.id.majId = g.id.majId ∧ f.id.minId = g.id.minId := by
  unfold TrFile.contents at h
  simp only [Prod.mk.injEq] at h
  exact ⟨h.2.1, h.2.2.1⟩

/-- **What the server acknowledges on a connection** was sent on it, and all that lies below it is with the
application. -/
theorem Inv.acknowledged (h : Inv s) (hl : s.links[k]? = some l) (htracked : TrackedOk s c t) (hc : l.client = c)
    {line : Bytes} (hline : line ∈ l.replies) {r : Int × Int} (hr : TrClient.parseAck line = some r) :
    (∃ f ∈ t.sent, f.Named r) ∧ ∀ g ∈ t.queued, ∀ id : TrFileId, id.minId = r.1 → id.majId = r.2 →
      trFileIdCompare g.id id = false → Confirmed s c g := by
  obtain ⟨rest, hlink⟩ := h.link k l hl
  rcases hlink.replies line hline with rfl | ⟨a, ha, hak, rfl⟩
  · rw [parseAck_readyLine] at hr
    cases hr
  obtain ⟨x, hxr, hxa, hxc, hxmin, hxmaj⟩ := h.server.named a ha
  obtain ⟨before, f, after, hsplit, hcontents, hbefore⟩ := hlink.mem_finished hxr (hxc.trans hak)
  obtain ⟨hmaj, hmin⟩ := contents_ids hcontents
  have hf : f ∈ l.finished := by
    rw [hsplit]
    exact List.mem_append_right _ List.mem_cons_self
  obtain ⟨hsound, hclosed⟩ := htracked.links k l hl hc
  have hkept := htracked.ordered.kept
  have hfq := hkept.sent f (hsound f hf)
  have hsend := (htracked.sendable f hfq).1
  rw [← hxmin, ← hxmaj, ← hmin, ← hmaj, parseAck_ackLine hsend.minId hsend.majId] at hr
  obtain rfl := Option.some.inj hr
  refine ⟨⟨f, hsound f hf, rfl, rfl⟩, fun g hg id hid hid' hle => ?_⟩
  have hle' : trFileIdCompare g.id f.id = false := by
    rw [← hle]
    exact Tracked.compare_congr ⟨hid.symm, hid'.symm⟩ ⟨rfl, rfl⟩
  have hgot : ∀ {y : Received}, y ∈ s.server.received → y.connection = k → y.file.contents = g.contents → GotBy s c g :=
    fun hy hyk hyc => ⟨_, hy, ⟨l, by rw [hyk]; exact hl, hc⟩, hyc⟩
  refine ⟨?_, x, hxa, ⟨l, by rw [hxc, hak]; exact hl, hc⟩, ?_⟩
  · cases hbelow : trFileIdCompare f.id g.id with
    | true =>
      rcases hclosed before f after hsplit g hg hbelow with hg | hg
      · obtain ⟨y, hy, hyk, hyc⟩ := hbefore g hg
        exact hgot hy hyk hyc
      · exact hg
    | false =>
      obtain rfl := hkept.eq_of_same hg hfq hle' hbelow
      exact hgot hxr (hxc.trans hak) hcontents.symm
  · rw [← hle']
    exact Tracked.compare_congr ⟨hmin.symm, hmaj.symm⟩ ⟨rfl, rfl⟩

/-- **Replies are read.** -/
theorem inv_replies {n : Nat} (h : Inv s) (hs : s.step (.replies c n) = some s') : Inv s' := by
  obtain ⟨k, l, t', hcx, hl, ht, rfl⟩ := step_replies hs
  have hattached := h.attached hcx hl
  have htracked := (h.station c).tracked
  generalize (s.stations c).tracked = t at ht hattached htracked
  have hack : ∀ line ∈ l.replies.take n, _ := fun line hline r hr =>
    h.acknowledged hl htracked hattached.client (List.mem_of_mem_take hline) (r := r) hr
  have ho := Tracked.ordered_step (.replies (l.replies.take n)) htracked.ordered
    (fun line hline r hr => (hack line hline r hr).1) trivial ht
  obtain ⟨hat, ht⟩ := Option.ite_none_right_eq_some.1 ht
  obtain rfl := Option.some.inj ht
  have hstage : t.client.stage ≠ .notConnected := by rw [hat]; decide
  obtain ⟨hstream, hfinished, hsending, hdirect⟩ := hattached.connected hstage
  have hsame := Tracked.replies_same (l.replies.take n) t
  have hq := Tracked.replies_queues (l.replies.take n) t
  have hknows := htracked.knows.replies (l.replies.take n) fun line hline r hr => (hack line hline r hr).2
  generalize (l.replies.take n).foldl Tracked.reply t = u at ho hsame hq hknows
  have hini : TrClient.iniLine { u.client with stage := Stage.removing } = t.client.iniLine := by
    unfold TrClient.iniLine
    rw [← hsame.name, ← hsame.proxyState]
  have hremoving :
      ({ u with client := { u.client with stage := .removing } } : Tracked).client.stage ≠ .notConnected := by
    intro e
    cases e
  have htracked' : TrackedOk s c { u with client := { u.client with stage := .removing } } := by
    refine ⟨ho, ⟨hsame.name ▸ htracked.opens.line, ?_⟩,
      by rw [show Tracked.queued _ = u.queued from rfl, hq.queued]; exact htracked.sendable, fun _ => ?_,
      fun k l hl hc => ?_, fun f _ hf g hg hbelow => ?_, hknows.congr rfl rfl rfl⟩
    · have := htracked.opens.fits
      unfold TrClient.iniText at this ⊢
      rw [← hsame.name, ← hsame.proxyState] at this
      exact this
    · exact (htracked.here hstage).congr (congrArg Fifo.items hq.input) hq.index (fun hs => by cases hs)
        (fun f hf => hsame.finished ▸ hf) fun f hf => .inr (hsame.sending.trans hf)
    · obtain ⟨h₁, h₂⟩ := htracked.links k l hl hc
      exact ⟨fun f hf => hq.sent ▸ h₁ f hf, hq.queued ▸ h₂⟩
    · have hg : g ∈ t.queued := hq.queued ▸ hg
      have hf : t.sending = some f := hsame.sending.symm.trans hf
      exact (htracked.sending f hstage hf g hg hbelow).imp_left fun h => hsame.finished ▸ h
  have hattached' : Attached { u with client := { u.client with stage := .removing } } c
      { l.sync { u with client := { u.client with stage := .removing } } with replies := l.replies.drop n } := by
    rw [sync_connected hremoving]
    refine ⟨hattached.client, hattached.opening.trans hini.symm, fun _ => ⟨rfl, rfl, rfl, ?_⟩,
      fun e => absurd e hremoving⟩
    unfold Tracked.Direct at hdirect ⊢
    rw [show Tracked.wire _ = u.wire from rfl, hsame.wire]
    exact hini ▸ hdirect
  refine h.station_replied (l.replies.drop n) hl hattached' ?_ ?_ ?_ ?_
    (fun line hline => List.mem_of_mem_drop hline) htracked'
  · rw [sync_connected hremoving]
  · rw [sync_connected hremoving]
    exact hsame.wire.trans hstream.symm
  · rw [sync_connected hremoving]
    exact hsame.finished.trans hfinished.symm
  · rw [sync_connected hremoving]
    exact hsame.sending.trans hsending.symm

/-! ## The server's steps -/

/-- The server goes on with what the connections have. -/
structure Served (s s' : System) : Prop where
  stations : s'.stations = s.stations
  length : s'.links.length = s.links.length
  links : ∀ (k : Nat) l, s.links[k]? = some l → ∃ l', s'.links[k]? = some l' ∧
    l' = { l with arrived := l'.arrived, replies := l'.replies }
  received : ∀ g ∈ s.server.received, g ∈ s'.server.received
  acked : ∀ g ∈ s.server.acked, g ∈ s'.server.acked

theorem Served.sameLinks (h : Served s s') (c : Nat) : SameLinks c s s' where
  old := fun k l hl => by
    obtain ⟨l', hl', he⟩ := h.links k l hl
    exact ⟨l', hl', by rw [he], fun _ => by rw [he], fun _ => by rw [he], fun _ => by rw [he], fun _ => by rw [he]⟩
  new := fun k l' hl' => by
    have hlt : k < s.links.length := h.length ▸ (List.getElem?_eq_some_iff.1 hl').1
    exact .inr ⟨_, List.getElem?_eq_getElem hlt⟩

theorem Inv.served (h : Inv s) (hs : Served s s') (hserver : s'.server.Inv) (hparses : s'.server.Parses)
    (haccepted : s'.server.accepted = s.server.accepted)
    (hold : ∀ g ∈ s'.server.received, g.connection < s'.server.accepted)
    (hlink : ∀ (k : Nat) l', s'.links[k]? = some l' → ∃ rest, LinkOk s'.server k l' rest) : Inv s' where
  server := hserver
  parses := hparses
  count := by rw [hs.length, haccepted]; exact h.count
  old := hold
  link := hlink
  station := fun c => by
    rw [hs.stations]
    exact (h.station c).frame ((hs.sameLinks c).grew hs.received hs.acked) (hs.sameLinks c)

theorem parses_of_none {server : TrServer} (h : server.parsing = none) : server.Parses := fun i t slot hp => by
  rw [h] at hp
  cases hp

/-- With a connection more, that has no files, those of a client are as they were. -/
theorem sameLinks_added (hlinks : s'.links = s.links ++ [l]) (hfinished : l.finished = []) : SameLinks c s s' where
  old := fun j x hx => ⟨x, by
    rw [hlinks, List.getElem?_append_left (List.getElem?_eq_some_iff.1 hx).1]
    exact hx, .rfl⟩
  new := fun j x hx => by
    rw [hlinks] at hx
    rcases getElem?_concat_cases hx with hx | ⟨-, rfl⟩
    · exact .inr ⟨x, hx⟩
    · exact .inl hfinished

/-- **A client is accepted**, or its connection is closed. -/
theorem inv_accept (h : Inv s) (hs : s.step (.accept c) = some s') : Inv s' := by
  obtain ⟨⟨hdialing, hidle⟩, server, haccept, hs⟩ := step_accept hs
  have hstation := h.station c
  generalize s.stations c = station at hdialing hs hstation
  obtain ⟨t, cx⟩ := station
  obtain rfl : cx = .dialing := hdialing
  have hstage : t.client.stage = .notConnected := by
    by_contra hstage
    obtain ⟨k, hk⟩ := hstation.cx hstage
    cases hk
  rcases hs with ⟨-, rfl⟩ | ⟨hnew, rfl⟩
  · exact h.station_alone (hstation.waits hstage fun k e => by cases e)
  · have hinv := TrServer.inv_accept h.server haccept
    obtain ⟨hreceived, hacked, hsent, hparsing, haccepted⟩ := TrServer.accept_same haccept
    have hparsing : server.parsing = none := hparsing.trans hidle
    have haccepted : server.accepted = s.server.accepted + 1 := haccepted.resolve_left hnew
    have hsame : ∀ c', SameLinks c' s { s.setStation c ⟨t, .on s.links.length⟩ with
        links := s.links ++ [.new c t.client], server } := fun c' => sameLinks_added rfl rfl
    have hgrew := (hsame c).grew (fun g hg => hreceived ▸ hg) fun g hg => hacked ▸ hg
    refine ⟨hinv, parses_of_none hparsing, ?_, fun g hg => ?_, fun j x hx => ?_, fun c' => ?_⟩
    · show (s.links ++ [_]).length = server.accepted
      rw [List.length_append, haccepted, h.count]
      rfl
    · have := h.old g (hreceived ▸ hg)
      show g.connection < server.accepted
      omega
    · rcases getElem?_concat_cases hx with hx | ⟨rfl, rfl⟩
      · -- a connection there was
        obtain ⟨rest, hlink⟩ := h.link j x hx
        refine ⟨rest, hlink.frame (fun cx t hh => ?_) ?_ fun a ha => hsent ▸ ha⟩
        · rcases hh.accept haccept hidle with hh | ⟨-, hj, -⟩
          · exact hh
          · have := (List.getElem?_eq_some_iff.1 hx).1
            rw [h.count] at this
            omega
        · unfold TrServer.receivedOn
          rw [hreceived]
      · refine ⟨[], .new hstation.tracked.opens (fun g hg => ?_) fun cx t hh => ?_⟩
        · have := h.old g (hreceived ▸ hg)
          rw [h.count]
          exact this
        · rcases hh.accept haccept hidle with hh | ⟨-, -, hcx, ht⟩
          · -- no slot has a connection of this number yet
            obtain ⟨i, slot, hslot, hopen, hk, -⟩ := hh
            have := (h.server.slots i slot hslot hopen).old
            rw [h.count] at hk
            omega
          · exact ⟨hcx, ht⟩
    · by_cases heq : c' = c
      · subst heq
        show StationOk _ c' ((s.setStation c' ⟨t, .on s.links.length⟩).stations c')
        rw [stations_setStation]
        refine ⟨hstation.tracked.frame hgrew (hsame c'), fun e => absurd hstage e, fun k hk => ?_⟩
        cases hk
        refine ⟨.new c' t.client, ?_, rfl, rfl, fun e => absurd hstage e, fun _ => ⟨rfl, rfl, rfl⟩⟩
        show (s.links ++ _)[s.links.length]? = _
        simp
      · show StationOk _ c' ((s.setStation c ⟨t, .on s.links.length⟩).stations c')
        rw [stations_other s _ heq]
        exact (h.station c').frame hgrew (hsame c')

/-- The server takes part of a call: its connection goes on, and the others are as they were. -/
theorem Inv.update {i : Nat} {slot : TrSlot} {stat : TrStatistics} {cx' : TrDataConnection}
    {p : Option (Nat × Bytes × Bool)} (h : Inv s)
    (hslot : s.server.cxTable[i]? = some slot) (hopen : slot.IsOpen) (hl : s.links[slot.connection]? = some l)
    (hold : ∀ q, s.server.parsing = some q → q.1 = i) (hnew : ∀ q, p = some q → q.1 = i)
    (hpasses : slot.cx.Passes cx') (hl' : l' = { l with arrived := l'.arrived, replies := l'.replies })
    (hbuffer : ∀ t, p = some (i, t, false) → cx'.buffer = t)
    (hlink : ∃ rest, LinkOk (s.server.update i slot stat cx' p) slot.connection l' rest) :
    Inv { s with server := s.server.update i slot stat cx' p, links := s.links.set slot.connection l' } := by
  have hserver := TrServer.inv_update h.server hslot hpasses stat p
  refine h.served ⟨rfl, List.length_set, fun j x hx => ?_, fun g hg => List.mem_append_left _ hg, fun _ hg => hg⟩
    hserver
    (fun j t x hp hx => ?_) rfl (fun g hg => ?_) fun j x hx => ?_
  · by_cases hj : j = slot.connection
    · subst hj
      obtain rfl := Option.some.inj (hx.symm.trans hl)
      exact ⟨l', by rw [set_links hl, if_pos rfl], hl'⟩
    · exact ⟨x, by rw [set_links hl, if_neg hj]; exact hx, rfl⟩
  · have hp : p = some (j, t, false) := hp
    obtain rfl := hnew _ hp
    have hx : (s.server.cxTable.set _ _)[_]? = some x := hx
    rw [List.getElem?_set_self (List.getElem?_eq_some_iff.1 hslot).1] at hx
    obtain rfl := Option.some.inj hx
    exact hbuffer t hp
  · rcases List.mem_append.1 hg with hg | hg
    · exact h.old g hg
    · obtain ⟨f, -, rfl⟩ := List.mem_map.1 hg
      exact (h.server.slots i slot hslot hopen).old
  · rcases getElem?_set_cases hx with ⟨rfl, rfl⟩ | ⟨hne, hx⟩
    · exact hlink
    · obtain ⟨rest, hlink⟩ := h.link j x hx
      exact ⟨rest, hlink.other h.server hslot hopen hne hold hnew⟩

/-- **The server reads** from a connection. -/
theorem inv_read {i n : Nat} (h : Inv s) (hs : s.step (.read i n) = some s') : Inv s' := by
  obtain ⟨slot, l, data, hslot, hl, ⟨hopen, hidle⟩, hdata, rfl⟩ := step_read hs
  obtain ⟨rest, hlink⟩ := h.link _ l hl
  have hlen : data.length ≤ slot.cx.asked := by
    rw [hdata, List.length_take]
    omega
  have hway : l.underWay = data ++ l.underWay.drop data.length := by
    rw [hdata, List.length_take]
    by_cases hle : min n slot.cx.asked ≤ l.underWay.length
    · rw [Nat.min_eq_left hle, List.take_append_drop]
    · rw [Nat.min_eq_right (Nat.le_of_not_le hle), List.drop_length, List.append_nil,
        List.take_of_length_le (Nat.le_of_not_le hle)]
  have harrived : l.arrived + data.length ≤ l.stream.length := by
    have := congrArg List.length hway
    rw [List.length_append] at this
    have hdrop : l.underWay.length = l.stream.length - l.arrived := List.length_drop
    have := hlink.arrived
    omega
  have hpasses := slot.cx.beginRead_passes data hopen (TrServer.marks_of h.server hslot)
  have hold : ∀ q, s.server.parsing = some q → q.1 = i := fun q hq => by
    rw [hidle] at hq
    cases hq
  have hnew : ∀ q, (slot.cx.beginRead data).2.map (i, ·, false) = some q → q.1 = i := fun q hq => by
    obtain ⟨t, -, rfl⟩ := Option.map_eq_some_iff.1 hq
    rfl
  have hheld := hlink.held slot.cx slot.cx.buffer ⟨i, slot, hslot, hopen, rfl, rfl, by
    unfold TrServer.textOf
    rw [hidle]⟩
  obtain ⟨⟨fs, hparsing⟩, -⟩ := hheld
  rw [hway, List.append_assoc] at hparsing
  have hgoes := TrDataConnection.read_goesOn hparsing hlink.files hlen
  refine h.update hslot hopen hl hold hnew hpasses rfl (fun t ht => ?_)
    ⟨rest, hlink.goOn h.server hslot hopen rfl hold hnew rfl
    harrived (fun _ hline => .inl hline) hpasses (fun hinit => ?_) ?_⟩
  · obtain ⟨t', ht', he⟩ := Option.map_eq_some_iff.1 ht
    obtain ⟨-, rfl, -⟩ := by simpa using he
    exact slot.cx.beginRead_buffer ht'
  · exact slot.cx.beginRead_init hinit
  · refine hgoes.imp_right ?_
    rintro ⟨fs', hparsing'⟩
    refine ⟨fs', ?_⟩
    have htext : (((slot.cx.beginRead data).2.map (i, ·, false)).map (·.2.1)).getD (slot.cx.beginRead data).1.buffer =
        slot.cx.textOf data := by
      rw [Option.map_map]
      unfold TrDataConnection.textOf
      congr 1
      exact Option.map_id'
    have hdrop : Link.underWay { l with arrived := l.arrived + data.length } = l.underWay.drop data.length :=
      (List.drop_drop ..).symm
    rw [htext, hdrop]
    exact hparsing'

theorem set_same {links : List Link} (h : links[k]? = some l) : links.set k l = links := by
  refine List.ext_getElem? fun j => ?_
  rw [set_links h]
  by_cases hj : j = k
  · rw [if_pos hj, hj, h]
  · rw [if_neg hj]

/-- The loop over the lines of a closed connection is left. -/
theorem Inv.leave {i : Nat} {text : Bytes} {behind : Bool} {slot : TrSlot} (stat : TrStatistics) (h : Inv s)
    (hp : s.server.parsing = some (i, text, behind)) (hslot : s.server.cxTable[i]? = some slot)
    (hclosed : ¬slot.IsOpen) :
    Inv { s with server := s.server.update i slot stat slot.cx none } := by
  have hpasses : slot.cx.Passes slot.cx :=
    ⟨rfl, TrServer.marks_of h.server hslot, .inl rfl, fun hopen => absurd hopen hclosed⟩
  have hreceived : (s.server.update i slot stat slot.cx none).received = s.server.received := by
    unfold TrServer.update
    simp
  have hholds : ∀ k cx t, (s.server.update i slot stat slot.cx none).Holds k cx t → s.server.Holds k cx t := by
    rintro k cx t ⟨j, x, hx, hopen, hk, hcx, ht⟩
    rcases getElem?_set_cases hx with ⟨-, rfl⟩ | ⟨hne, hx⟩
    · exact absurd hopen hclosed
    · refine ⟨j, x, hx, hopen, hk, hcx, ?_⟩
      rw [ht]
      unfold TrServer.textOf
      rw [hp]
      exact (if_neg fun e => hne e.symm).symm
  refine h.served ⟨rfl, rfl, fun k l hl => ⟨l, hl, rfl⟩, fun g hg => by rw [hreceived]; exact hg, fun _ hg => hg⟩
    (TrServer.inv_update h.server hslot hpasses stat none) (parses_of_none rfl) rfl
      (fun g hg => h.old g (hreceived ▸ hg))
    fun k l hl => ?_
  obtain ⟨rest, hlink⟩ := h.link k l hl
  refine ⟨rest, hlink.frame (hholds k) ?_ fun _ ha => ha⟩
  unfold TrServer.receivedOn
  rw [hreceived]

/-- **A turn of the loop over the lines.** -/
theorem inv_parse {e : ServerEnv} (h : Inv s) (hs : s.step (.parse e) = some s') : Inv s' := by
  obtain ⟨i, text, behind, server, hp, hturn, rfl⟩ := step_parse hs
  rcases TrServer.parseTurn_update hp hturn with ⟨hslot, rfl⟩ | ⟨slot, turn, hslot, hturn, hserver⟩
  · simp only [hslot]
    exact h
  simp only [hslot]
  by_cases hopen : slot.IsOpen
  · have hlt : slot.connection < s.links.length := by
      rw [h.count]
      exact (h.server.slots i slot hslot hopen).old
    obtain ⟨l, hl⟩ : ∃ l, s.links[slot.connection]? = some l := ⟨_, List.getElem?_eq_getElem hlt⟩
    obtain ⟨rest, hlink⟩ := h.link _ l hl
    obtain ⟨l', hlinks, hl', harrived, hreplies⟩ : ∃ l', (if ReadySent s.server server i then
        s.links.modify slot.connection (·.push readyLine) else s.links) = s.links.set slot.connection l' ∧
        l' = { l with arrived := l'.arrived, replies := l'.replies } ∧ l'.arrived = l.arrived ∧
        ∀ line ∈ l'.replies, line ∈ l.replies ∨ line = readyLine := by
      by_cases hready : ReadySent s.server server i
      · refine ⟨l.push readyLine, by rw [if_pos hready, modify_links hl], rfl, rfl, fun line hline => ?_⟩
        exact (List.mem_append.1 hline).imp_right List.mem_singleton.1
      · exact ⟨l, by rw [if_neg hready, set_same hl], rfl, rfl, fun line hline => .inl hline⟩
    rw [hlinks]
    have hheld := hlink.held slot.cx text ⟨i, slot, hslot, hopen, rfl, rfl, by
      unfold TrServer.textOf
      rw [hp]
      exact (if_pos rfl).symm⟩
    obtain ⟨⟨fs, hparsing⟩, -⟩ := hheld
    have hbuffer : behind = false → slot.cx.buffer = text := fun hb => h.parses i text slot (by rw [hp, hb]) hslot
    have hgoes := TrDataConnection.turn_goesOn hparsing hlink.opens hlink.files hbuffer hturn
    have hpasses := TrDataConnection.parseTurn_passes hturn (TrServer.marks_of h.server hslot)
    have hold : ∀ q, s.server.parsing = some q → q.1 = i := fun q hq => by
      rw [hp] at hq
      obtain rfl := Option.some.inj hq
      rfl
    have hway : l'.underWay = l.underWay := by
      rw [hl']
      unfold Link.underWay
      rw [harrived]
    -- what is left to parse is in the buffer, or with the loop
    obtain ⟨p, hupdate, hnew, hleft, hnot⟩ : ∃ p, server = s.server.update i slot turn.statistics turn.connection p ∧
        (∀ q, p = some q → q.1 = i) ∧ (p.map (·.2.1)).getD turn.connection.buffer = turn.left ∧
        ∀ t, p ≠ some (i, t, false) := by
      refine ⟨_, hserver, ?_⟩
      cases turn with
      | done r stat cx => exact ⟨fun _ hq => (by cases hq), rfl, fun _ hq => by cases hq⟩
      | more stat cx t =>
        refine ⟨fun _ hq => ?_, rfl, fun _ hq => by cases hq⟩
        obtain rfl := Option.some.inj hq
        rfl
    rw [hupdate]
    refine h.update hslot hopen hl hold hnew hpasses hl' (fun t ht => absurd ht (hnot t))
      ⟨rest, hlink.goOn h.server hslot
      hopen rfl hold hnew hl' (by rw [harrived]; exact hlink.arrived) hreplies hpasses
      (fun hinit => TrDataConnection.turn_init hturn hinit) ?_⟩
    rw [hleft, hway]
    exact hgoes
  · have hclosed : slot.cx.state = .closed := not_not.1 hopen
    unfold TrDataConnection.parseTurn at hturn
    rw [if_pos hclosed] at hturn
    obtain rfl := Option.some.inj hturn
    obtain rfl : server = s.server.update i slot s.server.stat slot.cx none := hserver
    have hready : ¬ReadySent s.server (s.server.update i slot s.server.stat slot.cx none) i := fun hr => by
      have := hr.1
      rw [hslot, Option.map_some, hclosed] at this
      cases this
    simp only [if_neg hready]
    exact h.leave _ hp hslot hopen

/-- Acknowledging is no matter of the reception. -/
theorem Inv.acked {server : TrServer} {links : List Link} (h : Inv s) (hinv : server.Inv)
    (hsame : server.SameReception s.server) (hserved : Served s { s with server, links })
    (hreplies : ∀ (k : Nat) l, s.links[k]? = some l → ∀ l', links[k]? = some l' →
      l' = { l with replies := l'.replies } ∧ ∀ line ∈ l'.replies, line ∈ l.replies ∨
        ∃ a ∈ server.sent, a.connection = k ∧ line = ackLine a.minId a.majId)
    (hsent : ∀ a ∈ s.server.sent, a ∈ server.sent) : Inv { s with server, links } := by
  refine h.served hserved hinv (fun i t slot hp hslot => ?_) hsame.accepted (fun g hg => ?_) fun k l' hl' => ?_
  · obtain ⟨slot', hslot', hcx, -⟩ := hsame.table i slot hslot
    rw [← hcx]
    exact h.parses i t slot' (hsame.parsing ▸ hp) hslot'
  · have := h.old g (hsame.received ▸ hg)
    rw [← hsame.accepted] at this
    exact this
  · have hlt : k < s.links.length := hserved.length ▸ (List.getElem?_eq_some_iff.1 hl').1
    have hl := List.getElem?_eq_getElem hlt
    obtain ⟨rest, hlink⟩ := h.link k _ hl
    obtain ⟨he, hlines⟩ := hreplies k _ hl l' hl'
    have hframe : LinkOk server k _ rest := hlink.frame (fun cx t hh => hsame.holds hh) (by
      unfold TrServer.receivedOn
      rw [hsame.received]) hsent
    refine ⟨rest, ?_⟩
    rw [he]
    refine ⟨hframe.opens, hframe.files, hframe.stream, hframe.unsent, hframe.arrived, hframe.held, hframe.got,
      fun line hline => ?_⟩
    rcases hlines line hline with hline | hack
    · exact hframe.replies line hline
    · exact .inr hack

/-- The application acknowledges a file. -/
theorem inv_ackFile (h : Inv s) (hs : s.step (.ackFile k) = some s') : Inv s' := by
  obtain ⟨g, server, hg, hack, rfl⟩ := step_ackFile hs
  have hinv := TrServer.inv_ackFile h.server (List.mem_of_getElem? hg) hack
  have hsame := TrServer.ackFile_same hack
  refine h.acked hinv hsame ⟨rfl, rfl, fun k l hl => ⟨l, hl, rfl⟩, fun g hg => hsame.received ▸ hg, hsame.acked⟩
    (fun k l hl l' hl' => ?_) fun a ha => hsame.sent a ha
  obtain rfl := Option.some.inj (hl.symm.trans hl')
  exact ⟨rfl, fun line hline => .inl hline⟩

/-- **The server acknowledges** on a connection. -/
theorem inv_acknowledge {i minNumber : Nat} {result : Int} (h : Inv s)
    (hs : s.step (.acknowledge i minNumber result) = some s') : Inv s' := by
  obtain rfl := Option.some.inj hs
  have hinv := TrServer.inv_acknowledge h.server i minNumber result
  have hsame := TrServer.acknowledgeFiles_same s.server i minNumber result
  generalize hserver : s.server.acknowledgeFiles i minNumber result = server at hinv hsame
  rcases TrServer.acknowledgeFiles_sent s.server i minNumber result with hnone | ⟨slot, hslot, hopen, hsent⟩
  · rw [hserver] at hnone
    rw [hnone, List.drop_length]
    refine h.acked hinv hsame ⟨rfl, rfl, fun k l hl => ⟨l, hl, rfl⟩, fun g hg => hsame.received ▸ hg, hsame.acked⟩
      (fun k l hl l' hl' => ?_) fun a ha => hnone ▸ ha
    obtain rfl := Option.some.inj (hl.symm.trans hl')
    exact ⟨rfl, fun line hline => .inl hline⟩
  · rw [hserver] at hsent
    have hlt : slot.connection < s.links.length := by
      rw [h.count]
      exact (h.server.slots i slot hslot hopen).old
    obtain ⟨l₀, hl₀⟩ : ∃ l, s.links[slot.connection]? = some l := ⟨_, List.getElem?_eq_getElem hlt⟩
    have hpush : pushAcks s.links (server.sent.drop s.server.sent.length) = s.links.set slot.connection
        (l₀.push (ackLine slot.ackFile.minId slot.ackFile.majId)) := by
      rw [hsent, List.drop_left' rfl]
      exact modify_links hl₀ _
    rw [hpush]
    refine h.acked hinv hsame ⟨rfl, List.length_set, fun k l hl => ?_, fun g hg => hsame.received ▸ hg, hsame.acked⟩
      (fun k l hl l' hl' => ?_) fun a ha => by rw [hsent]; exact List.mem_append_left _ ha
    · by_cases hk : k = slot.connection
      · subst hk
        obtain rfl := Option.some.inj (hl.symm.trans hl₀)
        exact ⟨_, by rw [set_links hl, if_pos rfl], rfl⟩
      · exact ⟨l, by rw [set_links hl₀, if_neg hk]; exact hl, rfl⟩
    · rcases getElem?_set_cases hl' with ⟨rfl, rfl⟩ | ⟨-, hl'⟩
      · obtain rfl := Option.some.inj (hl.symm.trans hl₀)
        refine ⟨rfl, fun line hline => (List.mem_append.1 hline).imp_right fun hline => ?_⟩
        rw [List.mem_singleton.1 hline, hsent]
        exact ⟨_, List.mem_append_right _ List.mem_cons_self, rfl, rfl⟩
      · obtain rfl := Option.some.inj (hl.symm.trans hl')
        exact ⟨rfl, fun line hline => .inl hline⟩

theorem inv_printStats (h : Inv s) (hs : s.step .printStats = some s') : Inv s' := by
  obtain ⟨-, rfl⟩ := step_printStats hs
  refine h.acked (TrServer.inv_printStats h.server) (TrServer.printStats_same s.server)
    ⟨rfl, rfl, fun k l hl => ⟨l, hl, rfl⟩, fun g hg => hg, fun g hg => hg⟩ (fun k l hl l' hl' => ?_) fun a ha => ha
  obtain rfl := Option.some.inj (hl.symm.trans hl')
  exact ⟨rfl, fun line hline => .inl hline⟩

/-! ## Runs -/

/-- **Every step** keeps the system as it should be. -/
theorem inv_step (a : Action) (h : Inv s) (hadds : AddsWell s a) (hs : s.step a = some s') : Inv s' := by
  cases a with
  | dial c => exact inv_dial h hs
  | accept c => exact inv_accept h hs
  | hangUp c => exact inv_hangUp h hs
  | ready c => exact inv_ready h hs
  | replies c n => exact inv_replies h hs
  | client c a => exact inv_client h hadds hs
  | read i n => exact inv_read h hs
  | parse e => exact inv_parse h hs
  | ackFile k => exact inv_ackFile h hs
  | acknowledge i minNumber result => exact inv_acknowledge h hs
  | printStats => exact inv_printStats h hs

/-- A client just started, whose name can be sent. -/
def Fresh (c : TrClient) : Prop :=
  (∃ queueLength name proxyState messages, c = .start queueLength name proxyState messages) ∧ c.Opens

theorem inv_start {clients : Nat → TrClient} (hfresh : ∀ c, Fresh (clients c)) (maxClients : Nat) :
    Inv (start clients maxClients) where
  server := TrServer.inv_start maxClients
  parses := parses_of_none rfl
  count := rfl
  old := fun _ hg => absurd hg List.not_mem_nil
  link := fun k l hl => by cases hl
  station := fun c => by
    obtain ⟨⟨queueLength, name, proxyState, messages, hc⟩, hopens⟩ := hfresh c
    have hstage : (clients c).stage = .notConnected := by rw [hc]; rfl
    refine ⟨⟨Tracked.ordered_start _ hstage (by rw [hc]; rfl) (by rw [hc]; rfl), hopens, ?_, fun h => absurd hstage h,
      ?_, fun _ h => absurd hstage h, ⟨?_, ?_⟩⟩, fun h => absurd hstage h, fun k hk => by cases hk⟩
    · exact fun f hf => absurd hf List.not_mem_nil
    · exact fun k l hl => by cases hl
    · exact fun f hf => absurd hf List.not_mem_nil
    · exact fun f hf => absurd hf List.not_mem_nil

theorem inv_run {clients : Nat → TrClient} (hfresh : ∀ c, Fresh (clients c)) {maxClients : Nat} {as : List Action}
    (hl : Legal step AddsWell (start clients maxClients) as) (hr : run step (start clients maxClients) as = some s) :
    Inv s :=
  run_keeps (fun _ a _ h hok hs => inv_step a h hok hs) as _ s (inv_start hfresh maxClients) hl hr

/-- **What a client removes, the application has.** -/
theorem removed_confirmed (clients : Nat → TrClient) (maxClients : Nat) (hfresh : ∀ c, Fresh (clients c))
    (as : List Action)
    (hl : Legal step AddsWell (start clients maxClients) as) (hr : run step (start clients maxClients) as = some s) :
    ∀ c, ∀ f ∈ (s.stations c).tracked.removed, Confirmed s c f :=
  fun c => ((inv_run hfresh hl hr).station c).tracked.knows.removed

/-- **What the application gets on a connection** is what the client of the connection has sent on it, file by file from
the first one. -/
theorem received_inOrder (clients : Nat → TrClient) (maxClients : Nat) (hfresh : ∀ c, Fresh (clients c))
    (as : List Action)
    (hl : Legal step AddsWell (start clients maxClients) as) (hr : run step (start clients maxClients) as = some s) :
    (∀ (k : Nat) l, s.links[k]? = some l →
      (s.server.receivedOn k).map TrFile.contents <+: l.finished.map TrFile.contents ∧
      ∀ f ∈ l.finished, f ∈ (s.stations l.client).tracked.sent) ∧
    ∀ g ∈ s.server.received, ∃ l, s.links[g.connection]? = some l := by
  have h := inv_run hfresh hl hr
  refine ⟨fun k l hlk => ?_, fun g hg => ?_⟩
  · obtain ⟨rest, hlink⟩ := h.link k l hlk
    exact ⟨hlink.got, ((h.station l.client).tracked.links k l hlk rfl).1⟩
  · have hlt : g.connection < s.links.length := by
      rw [h.count]
      exact h.old g hg
    exact ⟨_, List.getElem?_eq_getElem hlt⟩

/-! ## A run -/

instance (f : TrFile) : Decidable f.Sendable :=
  decidable_of_iff ((f.id.source.any fun s => !s.1.isEmpty && !s.1.any isSpace) = true ∧
      (-2 ^ 31 ≤ f.id.minId ∧ f.id.minId < 2 ^ 31) ∧ (-2 ^ 31 ≤ f.id.majId ∧ f.id.majId < 2 ^ 31) ∧
      (f.blobs.flatten.length : Int) = f.size ∧ (0 < f.size ∧ f.size < 2 ^ 31) ∧
      f.headerText.length + 1 < TR_BUFFER_SIZE) (by
    have hword : ∀ s : Bytes, (!s.isEmpty && !s.any isSpace) = true ↔ s ≠ [] ∧ ∀ c ∈ s, isSpace c = false := by simp
    simp only [Option.any_eq_true, hword]
    constructor
    · rintro ⟨h, h₁, h₂, h₃, h₄, h₅⟩
      exact ⟨h, h₁, h₂, h₃, h₄, h₅⟩
    · rintro ⟨h, h₁, h₂, h₃, h₄, h₅⟩
      exact ⟨h, h₁, h₂, h₃, h₄, h₅⟩)

instance (f : TrFile) : Decidable (Fits f) := inferInstanceAs (Decidable (_ < _))

instance (t : Tracked) (f : TrFile) : Decidable (Tracked.Above t f) := inferInstanceAs (Decidable (_ ∧ _))

/-- A file chosen by a step has a property, if one is made of a message. -/
instance (t : Tracked) (e : Perm.Env) (P : TrFile → Prop) [DecidablePred P] :
    Decidable (∀ f client, t.client.chooseFile e = some (.made f client) → P f) :=
  match h : t.client.chooseFile e with
  | some (.made f client) => decidable_of_iff (P f) (by simp)
  | some (.nothing _)     => isTrue (by simp)
  | some (.begun _ _)     => isTrue (by simp)
  | some (.ended _)       => isTrue (by simp)
  | none                  => isTrue (by simp)

theorem adds_iff (t : Tracked) (P : TrFile → Prop) (a : Transport.Action) : Adds t P a ↔
    (∀ f ∈ a.file, t.client.inputQueue.isFull = false → P { f with handle := t.client.allocated }) ∧
      ∀ e ∈ a.selecting, ∀ f client, t.client.chooseFile e = some (.made f client) → P f := by
  cases a <;> simp [Adds, Transport.Action.file, Transport.Action.selecting]

instance (t : Tracked) (P : TrFile → Prop) [DecidablePred P] (a : Transport.Action) : Decidable (Adds t P a) :=
  decidable_of_iff _ (adds_iff t P a).symm

theorem addsAbove_iff (t : Tracked) (a : Transport.Action) : t.AddsAbove a ↔ Adds t t.Above a := by
  cases a <;> exact Iff.rfl

instance (t : Tracked) (a : Transport.Action) : Decidable (t.AddsAbove a) := decidable_of_iff _ (addsAbove_iff t a).symm

theorem addsWell_iff (s : System) (a : Action) : AddsWell s a ↔ ∀ x ∈ a.ofClient,
    (s.stations x.1).tracked.AddsAbove x.2 ∧ Adds (s.stations x.1).tracked (fun f => f.Sendable ∧ Fits f) x.2 := by
  cases a <;> simp [AddsWell, Action.ofClient]

instance (s : System) (a : Action) : Decidable (AddsWell s a) := decidable_of_iff _ (addsWell_iff s a).symm

/-- A client connects and is accepted; the server reads the opening, and the client finds it ready. -/
def opening (c i : Nat) : List Action := [.dial c, .accept c, .read i 5000, .parse willing, .parse willing, .ready c]

/-- A client sends a file of one blob. -/
def sendsFile (c : Nat) (e : Perm.Env) : List Action :=
  (List.replicate 4 [.replies c 0, .client c .remove, .client c (.select e),
    .client c (.transmit TR_BUFFER_SIZE)]).flatten

/-- The server reads two files of one blob. -/
def getsFiles (i : Nat) : List Action := .read i 5000 :: List.replicate 5 (.parse willing)

/-- Two files are handed over.  The first connection is lost when the server has not read the first of them, and the
second connection takes another slot. -/
def lostAndSentAgain : List Action :=
  [.client 0 (.queueAddFile ⟨0, ⟨some unknown, 1, 1, 0⟩, [[65]], 1⟩),
    .client 0 (.queueAddFile ⟨0, ⟨some unknown, 1, 2, 0⟩, [[66]], 1⟩)] ++
  opening 0 0 ++ sendsFile 0 Perm.calm ++ [.hangUp 0] ++ opening 0 1 ++ sendsFile 0 Perm.calm ++
    sendsFile 0 Perm.calm ++
  getsFiles 1 ++ [.ackFile 1, .acknowledge 1 0 0, .replies 0 1, .client 0 .remove, .client 0 .remove]

def plainClients : Nat → TrClient := fun _ => .start 4 unknown 0 none

theorem unknown_opens (messages : Option Perm.Session) : (TrClient.start 4 unknown 0 messages).Opens := by
  have hline : newline ∉ unknown.1 := by decide
  have hfits : (ascii "INI ".toList ++ unknown.1 ++ ascii [' '] ++ printInt 0).length + 1 < TR_BUFFER_SIZE := by decide
  exact ⟨hline, hfits⟩

theorem plainClients_fresh (c : Nat) : Fresh (plainClients c) := ⟨⟨4, unknown, 0, none, rfl⟩, unknown_opens none⟩

theorem lostAndSentAgain_runs : ∃ s, Legal step AddsWell (start plainClients 2) lostAndSentAgain ∧
    run step (start plainClients 2) lostAndSentAgain = some s ∧ (s.stations 0).tracked.removed.length = 2 ∧
    s.server.received.length = 2 := by
  have hrun : (run step (start plainClients 2) lostAndSentAgain).any (fun s =>
      decide ((s.stations 0).tracked.removed.length = 2) && decide (s.server.received.length = 2)) = true := by
    decide +kernel
  obtain ⟨s, hs, hlen⟩ := (Option.any_eq_true _ _).1 hrun
  obtain ⟨hremoved, hreceived⟩ := Bool.and_eq_true_iff.1 hlen
  exact ⟨s, by decide +kernel, hs, of_decide_eq_true hremoved, of_decide_eq_true hreceived⟩

theorem removed_confirmed_lostAndSentAgain : ∃ s, run step (start plainClients 2) lostAndSentAgain = some s ∧
    (s.stations 0).tracked.removed.length = 2 ∧ ∀ f ∈ (s.stations 0).tracked.removed, Confirmed s 0 f := by
  obtain ⟨s, hl, hr, hlen, -⟩ := lostAndSentAgain_runs
  exact ⟨s, hr, hlen, removed_confirmed plainClients 2 plainClients_fresh lostAndSentAgain hl hr 0⟩

theorem received_inOrder_lostAndSentAgain : ∃ s, run step (start plainClients 2) lostAndSentAgain = some s ∧
    s.server.received.length = 2 ∧ ∀ g ∈ s.server.received, ∃ l, s.links[g.connection]? = some l := by
  obtain ⟨s, hl, hr, -, hlen⟩ := lostAndSentAgain_runs
  exact ⟨s, hr, hlen, (received_inOrder plainClients 2 plainClients_fresh lostAndSentAgain hl hr).2⟩

end System
end Transport
end Flp
