import FlpPrototype.Transport.EndToEnd
/-!
# FirstReceipt — no file comes before the ones below it

A client whose connection was lost begins again with the first file in its queue, so the server's application may get
files twice, and some of them late.  But it gets no file for the first time before it has got all that the client's
queue had below it, on whichever connections that was (`received_gapFree`): the first receipts of a client's files are
in the order of its queue, without a gap.
-/
namespace Flp
namespace Transport

namespace TrDataConnection

variable {stat stat' : TrStatistics} {cx cx' : TrDataConnection} {e : ServerEnv} {text rest : Bytes}

/-- At most a file is added to the output queue. -/
def AddsFile (cx cx' : TrDataConnection) : Prop :=
  cx'.outputQueue = cx.outputQueue ∨ ∃ f : Incoming, cx'.outputQueue = cx.outputQueue ++ [f.file]

theorem processLine_adds {line : Bytes} {r : Int} (h : processLine e stat cx line text = some (r, stat', cx', rest)) :
    AddsFile cx cx' := by
  unfold processLine at h
  cases hs : cx.state with
  | waitingFileBegin =>
    simp only [hs] at h
    split at h
    · cases h
      exact .inl rfl
    · split at h
      · cases h
        exact .inl rfl
      · obtain ⟨⟨cx₁, t₁⟩, hbegin, hcx⟩ := Option.map_eq_some_iff.1 h
        obtain ⟨n, -, hn⟩ := Option.map_eq_some_iff.1 hbegin
        cases hn
        cases hcx
        exact .inl rfl
  | waitingFileEnd f =>
    simp only [hs] at h
    split at h
    · obtain ⟨⟨taken, stat₁⟩, -, hcx⟩ := Option.map_eq_some_iff.1 h
      cases taken with
      | true =>
        cases hcx
        exact .inr ⟨f, rfl⟩
      | false =>
        cases hcx
        exact .inl rfl
    · cases h
      exact .inl rfl
  | init =>
    simp only [hs] at h
    cases h
    split <;> exact .inl rfl
  | receivingFile f | closed =>
    simp only [hs] at h
    cases h
    exact .inl rfl

theorem parseTurn_adds {behind : Bool} {turn : Turn} (h : parseTurn e stat cx text behind = some turn) :
    AddsFile cx turn.connection := by
  unfold parseTurn at h
  split at h
  · cases h
    exact .inl rfl
  · split at h
    · split at h
      · cases h
        exact .inl rfl
      · split at h <;> cases h <;> exact .inl rfl
    · split at h
      · cases h
      · rename_i hprocess
        split at h <;> cases h <;> exact processLine_adds hprocess

theorem beginRead_adds (cx : TrDataConnection) (data : Bytes) : AddsFile cx (cx.beginRead data).1 := by
  unfold beginRead
  split
  · exact .inl rfl
  · split <;> exact .inl rfl

end TrDataConnection

namespace System

open Tracked (Above Closed)
open TrDataConnection (AddsFile)

variable {s s' : System} {c k : Nat} {l : Link} {f g : TrFile}

/-- The application has got a file from a client, with its index. -/
def GotAt (s : System) (c j : Nat) (f : TrFile) : Prop := ∃ g, s.server.received[j]? = some g ∧
  (∃ l, s.links[g.connection]? = some l ∧ l.client = c) ∧ g.file.contents = f.contents

/-- Files of a client that lie below one received were received no later. -/
def GapFree (s : System) : Prop := ∀ (i : Nat) g l, s.server.received[i]? = some g → s.links[g.connection]? = some l →
  ∀ f ∈ (s.stations l.client).tracked.queued, trFileIdCompare f.id g.file.id = false → ∃ j ≤ i, GotAt s l.client j f

/-! ## What is with the application -/

/-- **A file received is one of its client's**, and all that lies below it is with the application. -/
theorem Inv.below (h : Inv s) {x : Received} (hx : x ∈ s.server.received) (hl : s.links[x.connection]? = some l) :
    (∃ f ∈ (s.stations l.client).tracked.queued, f.contents = x.file.contents) ∧
    ∀ f ∈ (s.stations l.client).tracked.queued, trFileIdCompare f.id x.file.id = false → GotBy s l.client f := by
  obtain ⟨rest, hlink⟩ := h.link _ l hl
  have htracked := (h.station l.client).tracked
  obtain ⟨hsound, hclosed⟩ := htracked.links _ l hl rfl
  obtain ⟨before, y, after, hsplit, hcontents, hbefore⟩ := hlink.mem_finished hx rfl
  have hkept := htracked.ordered.kept
  have hy : y ∈ (s.stations l.client).tracked.queued := hkept.sent y (hsound y (by
    rw [hsplit]
    exact List.mem_append_right _ List.mem_cons_self))
  refine ⟨⟨y, hy, hcontents⟩, fun f hf hle => ?_⟩
  obtain ⟨hmaj, hmin⟩ := contents_ids hcontents
  have hle' : trFileIdCompare f.id y.id = false := by
    rw [← hle]
    exact Tracked.compare_congr ⟨hmin, hmaj⟩ ⟨rfl, rfl⟩
  cases hbelow : trFileIdCompare y.id f.id with
  | true =>
    rcases hclosed before y after hsplit f hf hbelow with hf | hf
    · obtain ⟨z, hz, hzk, hzc⟩ := hbefore f hf
      exact ⟨z, hz, ⟨l, by rw [hzk]; exact hl, rfl⟩, hzc⟩
    · exact hf
  | false =>
    obtain rfl := hkept.eq_of_same hf hy hle' hbelow
    exact ⟨x, hx, ⟨l, hl, rfl⟩, hcontents.symm⟩

/-! ## What a step adds -/

/-- A file received is in one piece. -/
def OnePiece (g : Received) : Prop := ∃ value, g.file.blobs = [value]

/-- At most one file is received in a step, a client's queue gets at most one file, above those it had, and connections
keep their clients. -/
structure Continues (s s' : System) : Prop where
  received : ∃ new, new.length ≤ 1 ∧ (∀ g ∈ new, OnePiece g) ∧ s'.server.received = s.server.received ++ new
  queued : ∀ c, (s'.stations c).tracked.queued = (s.stations c).tracked.queued ∨
    ∃ f, (s'.stations c).tracked.queued = (s.stations c).tracked.queued ++ [f] ∧ Above (s.stations c).tracked f
  clients : s.links.map (·.client) <+: s'.links.map (·.client)

theorem GotAt.mono {j : Nat} (h : GotAt s c j f) (hc : Continues s s') : GotAt s' c j f := by
  obtain ⟨g, hg, ⟨l, hl, hlc⟩, hcontents⟩ := h
  obtain ⟨new, -, -, hreceived⟩ := hc.received
  obtain ⟨more, hclients⟩ := hc.clients
  have hclient : (s'.links.map (·.client))[g.connection]? = some c := by
    rw [← hclients, List.getElem?_append_left (by simpa using (List.getElem?_eq_some_iff.1 hl).1), List.getElem?_map,
      hl, Option.map_some, hlc]
  rw [List.getElem?_map] at hclient
  obtain ⟨l', hl', hlc'⟩ := Option.map_eq_some_iff.1 hclient
  refine ⟨g, ?_, ⟨l', hl', hlc'⟩, hcontents⟩
  rw [hreceived, List.getElem?_append_left (List.getElem?_eq_some_iff.1 hg).1]
  exact hg

/-- A connection that was there has the client it had. -/
theorem Continues.client {l' : Link} (hc : Continues s s') (hlt : k < s.links.length) (hl' : s'.links[k]? = some l') :
    ∃ l, s.links[k]? = some l ∧ l.client = l'.client := by
  obtain ⟨more, hclients⟩ := hc.clients
  refine ⟨s.links[k], List.getElem?_eq_getElem hlt, ?_⟩
  have hclient : (s'.links.map (·.client))[k]? = some s.links[k].client := by
    rw [← hclients, List.getElem?_append_left (by simpa using hlt), List.getElem?_map, List.getElem?_eq_getElem hlt,
      Option.map_some]
  rw [List.getElem?_map, hl', Option.map_some] at hclient
  exact (Option.some.inj hclient).symm

/-- **What a step adds leaves no gap.** -/
theorem Continues.gapFree (hc : Continues s s') (h : Inv s) (h' : Inv s') (hgap : GapFree s) : GapFree s' := by
  intro i g l' hg hl' f hf hle
  obtain ⟨new, hlength, -, hreceived⟩ := hc.received
  by_cases hi : i < s.server.received.length
  · rw [hreceived, List.getElem?_append_left hi] at hg
    have hmem := List.mem_of_getElem? hg
    have hlt : g.connection < s.links.length := by
      rw [h.count]
      exact h.old g hmem
    obtain ⟨l, hl, hclient⟩ := hc.client hlt hl'
    rw [← hclient] at hf ⊢
    -- a file that entered the queue in the step lies above those received
    have hold : f ∈ (s.stations l.client).tracked.queued := by
      rcases hc.queued l.client with hq | ⟨x, hq, habove⟩
      · exact hq ▸ hf
      · rw [hq] at hf
        rcases List.mem_append.1 hf with hf | hf
        · exact hf
        · obtain ⟨⟨y, hy, hcontents⟩, -⟩ := h.below hmem hl
          obtain ⟨hmaj, hmin⟩ := contents_ids hcontents
          have hover := habove.1 y hy
          rw [Tracked.compare_congr (c := x.id) (d := g.file.id) ⟨hmin, hmaj⟩ ⟨rfl, rfl⟩, ← List.mem_singleton.1 hf,
            hle] at hover
          cases hover
    obtain ⟨j, hj, hgot⟩ := hgap i g l hg hl f hold hle
    exact ⟨j, hj, hgot.mono hc⟩
  · obtain ⟨y, hy, hlink, hcontents⟩ := (h'.below (List.mem_of_getElem? hg) hl').2 f hf hle
    obtain ⟨j, hj⟩ := List.mem_iff_getElem?.1 hy
    have hjlt := (List.getElem?_eq_some_iff.1 hj).1
    rw [hreceived, List.length_append] at hjlt
    exact ⟨j, by omega, y, hj, hlink, hcontents⟩

/-! ## Each step -/

theorem map_client_modify (links : List Link) (k : Nat) {f : Link → Link} (hf : ∀ l, (f l).client = l.client) :
    (links.modify k f).map (·.client) = links.map (·.client) := by
  refine List.ext_getElem? fun j => ?_
  rw [List.getElem?_map, List.getElem?_map, List.getElem?_modify]
  cases links[j]? with
  | none => rfl
  | some l =>
    by_cases hj : k = j
    · simp [hj, hf]
    · simp [hj]

theorem map_client_set {links : List Link} {l' : Link} (hl : links[k]? = some l) (hc : l'.client = l.client) :
    (links.set k l').map (·.client) = links.map (·.client) := by
  refine List.ext_getElem? fun j => ?_
  rw [List.getElem?_map, List.getElem?_map, set_links hl]
  by_cases hj : j = k
  · rw [if_pos hj, hj, hl, Option.map_some, Option.map_some, hc]
  · rw [if_neg hj]

theorem map_client_pushAcks : ∀ (sent : List AckSent) (links : List Link),
    (pushAcks links sent).map (·.client) = links.map (·.client)
  | [], _ => rfl
  | a :: sent, links => by
    have hone := map_client_modify links a.connection (f := (·.push (ackLine a.minId a.majId))) fun _ => rfl
    exact (map_client_pushAcks sent _).trans hone

/-- No file is received. -/
theorem received_none {server : TrServer} (h : server.received = s.server.received) :
    ∃ new, new.length ≤ 1 ∧ (∀ g ∈ new, OnePiece g) ∧ server.received = s.server.received ++ new :=
  ⟨[], Nat.zero_le 1, fun _ hg => absurd hg List.not_mem_nil, h.trans (List.append_nil _).symm⟩

/-- A step of the server's: the stations stay. -/
theorem Continues.served {server : TrServer} {links : List Link}
    (hreceived : ∃ new, new.length ≤ 1 ∧ (∀ g ∈ new, OnePiece g) ∧ server.received = s.server.received ++ new)
    (hclients : links.map (·.client) = s.links.map (·.client)) : Continues s { s with server, links } where
  received := hreceived
  queued := fun _ => .inl rfl
  clients := by
    show _ <+: links.map (·.client)
    rw [hclients]

/-- A step of one client. -/
theorem Continues.station {station : Station} {links : List Link}
    (hqueued : station.tracked.queued = (s.stations c).tracked.queued ∨
      ∃ f, station.tracked.queued = (s.stations c).tracked.queued ++ [f] ∧ Above (s.stations c).tracked f)
    (hclients : links.map (·.client) = s.links.map (·.client)) :
    Continues s { s.setStation c station with links } where
  received := received_none rfl
  queued := fun c' => by
    show ((s.setStation c station).stations c').tracked.queued = _ ∨ _
    by_cases heq : c' = c
    · subst heq
      show _ ∨ ∃ f, ((s.setStation c' station).stations c').tracked.queued = _ ∧ _
      rw [stations_setStation]
      exact hqueued
    · rw [stations_other s _ heq]
      exact .inl rfl
  clients := by
    show _ <+: links.map (·.client)
    rw [hclients]

theorem received_update {i : Nat} {slot : TrSlot} {stat : TrStatistics} {cx : TrDataConnection} (server : TrServer)
    (p : Option (Nat × Bytes × Bool)) (hadds : AddsFile slot.cx cx) :
    ∃ new, new.length ≤ 1 ∧ (∀ g ∈ new, OnePiece g) ∧
      (server.update i slot stat cx p).received = server.received ++ new := by
  refine ⟨(cx.outputQueue.drop slot.cx.outputQueue.length).map (⟨i, slot.connection, ·⟩), ?_, fun g hg => ?_, rfl⟩
  · rw [List.length_map, List.length_drop]
    rcases hadds with hsame | ⟨f, hone⟩
    · rw [hsame, Nat.sub_self]
      exact Nat.zero_le 1
    · rw [hone, List.length_append, List.length_singleton]
      omega
  · obtain ⟨f, hf, rfl⟩ := List.mem_map.1 hg
    rcases hadds with hsame | ⟨f', hone⟩
    · rw [hsame, List.drop_length] at hf
      exact absurd hf List.not_mem_nil
    · rw [hone, List.drop_left' rfl] at hf
      rw [List.mem_singleton.1 hf]
      exact ⟨f'.value, rfl⟩

/-- At most one file is received in a turn of the loop over the lines. -/
theorem received_parseTurn {e : ServerEnv} {i : Nat} {text : Bytes} {behind : Bool} {server : TrServer}
    (hp : s.server.parsing = some (i, text, behind)) (hs : s.server.parseTurn e = some server) :
    ∃ new, new.length ≤ 1 ∧ (∀ g ∈ new, OnePiece g) ∧ server.received = s.server.received ++ new := by
  rcases TrServer.parseTurn_update hp hs with ⟨-, rfl⟩ | ⟨slot, turn, -, hturn, rfl⟩
  · exact received_none rfl
  · exact received_update s.server _ (TrDataConnection.parseTurn_adds hturn)

/-- **Each step** adds as it should. -/
theorem step_continues (a : Action) (h : Inv s) (hadds : AddsWell s a) (hs : s.step a = some s') : Continues s s' := by
  cases a with
  | dial c =>
    obtain ⟨-, rfl⟩ := step_dial hs
    exact .station (.inl rfl) rfl
  | accept c =>
    obtain ⟨-, server, haccept, ⟨-, rfl⟩ | ⟨-, rfl⟩⟩ := step_accept hs
    · exact .station (.inl rfl) rfl
    · have hstation :
        Continues s { s.setStation c ⟨(s.stations c).tracked, .on s.links.length⟩ with links := s.links } :=
        .station (.inl rfl) rfl
      refine ⟨received_none (TrServer.accept_same haccept).1, hstation.queued, ?_⟩
      show _ <+: (s.links ++ _).map (·.client)
      rw [List.map_append]
      exact List.prefix_append _ _
  | hangUp c =>
    obtain ⟨t', rfl, ⟨rfl, -⟩ | ht⟩ := step_hangUp hs
    · exact .station (.inl rfl) rfl
    · obtain ⟨-, ht⟩ := Option.ite_none_right_eq_some.1 ht
      obtain rfl := Option.some.inj ht
      exact .station (.inl rfl) rfl
  | ready c =>
    obtain ⟨k, link, t', -, hl, -, ht, rfl⟩ := step_ready hs
    obtain ⟨-, ht⟩ := Option.ite_none_right_eq_some.1 ht
    obtain rfl := Option.some.inj ht
    exact .station (.inl rfl) (map_client_set hl (sync_client link _))
  | replies c n =>
    obtain ⟨k, link, t', -, hl, ht, rfl⟩ := step_replies hs
    obtain ⟨-, ht⟩ := Option.ite_none_right_eq_some.1 ht
    obtain rfl := Option.some.inj ht
    exact .station (.inl (Tracked.replies_queues _ _).queued) (map_client_set hl (sync_client link _))
  | client c a =>
    obtain ⟨hown, t', ht, rfl⟩ := step_client hs
    have htracked := (h.station c).tracked
    have hqueued := (Tracked.own_goesOn a hown htracked.ordered htracked.here hadds.1 ht).queued
    unfold goOn
    split
    · exact .station hqueued (map_client_modify _ _ fun l => sync_client l t')
    · exact .station hqueued rfl
  | read i n =>
    obtain ⟨slot, link, data, -, hl, -, -, rfl⟩ := step_read hs
    exact .served (received_update s.server _ (slot.cx.beginRead_adds _)) (map_client_set hl rfl)
  | parse e =>
    obtain ⟨i, text, behind, server, hp, hturn, rfl⟩ := step_parse hs
    refine .served (received_parseTurn hp hturn) ?_
    split
    · rfl
    · split
      · exact map_client_modify _ _ fun _ => rfl
      · rfl
  | ackFile k =>
    obtain ⟨g, server, -, hack, rfl⟩ := step_ackFile hs
    exact .served (received_none (TrServer.ackFile_same hack).received) rfl
  | acknowledge i minNumber result =>
    obtain rfl := Option.some.inj hs
    exact .served (received_none (TrServer.acknowledgeFiles_same s.server i minNumber result).received)
      (map_client_pushAcks _ _)
  | printStats =>
    obtain ⟨-, rfl⟩ := step_printStats hs
    exact .served (received_none rfl) rfl

/-! ## Runs -/

theorem gapFree_step (a : Action) (h : Inv s ∧ GapFree s) (hadds : AddsWell s a) (hs : s.step a = some s') :
    Inv s' ∧ GapFree s' :=
  have h' := inv_step a h.1 hadds hs
  ⟨h', (step_continues a h.1 hadds hs).gapFree h.1 h' h.2⟩

theorem gapFree_start (clients : Nat → TrClient) (maxClients : Nat) : GapFree (start clients maxClients) :=
  fun i g l hg => by cases hg

theorem gapFree_run {clients : Nat → TrClient} (hfresh : ∀ c, Fresh (clients c)) {maxClients : Nat} {as : List Action}
    (hl : Legal step AddsWell (start clients maxClients) as) (hr : run step (start clients maxClients) as = some s) :
    Inv s ∧ GapFree s :=
  run_keeps (I := fun s => Inv s ∧ GapFree s) (fun _ a _ h hok hs => gapFree_step a h hok hs) as _ s
    ⟨inv_start hfresh maxClients, gapFree_start clients maxClients⟩ hl hr

/-- **The application gets a client's files in order**, but for those it has got before: with each file received, all
below it in the client's queue were. -/
theorem received_gapFree (clients : Nat → TrClient) (maxClients : Nat) (hfresh : ∀ c, Fresh (clients c))
    (as : List Action)
    (hl : Legal step AddsWell (start clients maxClients) as) (hr : run step (start clients maxClients) as = some s) :
    ∀ (i : Nat) g, s.server.received[i]? = some g → ∃ l, s.links[g.connection]? = some l ∧
      (∃ f ∈ (s.stations l.client).tracked.queued, f.contents = g.file.contents) ∧
      ∀ f ∈ (s.stations l.client).tracked.queued, trFileIdCompare f.id g.file.id = false →
        ∃ j ≤ i, GotAt s l.client j f := by
  obtain ⟨h, hgap⟩ := gapFree_run hfresh hl hr
  intro i g hg
  have hlt : g.connection < s.links.length := by
    rw [h.count]
    exact h.old g (List.mem_of_getElem? hg)
  have hlink : s.links[g.connection]? = some s.links[g.connection] := List.getElem?_eq_getElem hlt
  exact ⟨_, hlink, (h.below (List.mem_of_getElem? hg) hlink).1, hgap i g _ hg hlink⟩

theorem received_gapFree_lostAndSentAgain : ∃ s, run step (start plainClients 2) lostAndSentAgain = some s ∧
    s.server.received.length = 2 ∧ ∀ (i : Nat) g, s.server.received[i]? = some g →
      ∃ l, s.links[g.connection]? = some l ∧
      (∃ f ∈ (s.stations l.client).tracked.queued, f.contents = g.file.contents) ∧
      ∀ f ∈ (s.stations l.client).tracked.queued, trFileIdCompare f.id g.file.id = false →
        ∃ j ≤ i, GotAt s l.client j f := by
  obtain ⟨s, hl, hr, -, hlen⟩ := lostAndSentAgain_runs
  exact ⟨s, hr, hlen, received_gapFree plainClients 2 plainClients_fresh lostAndSentAgain hl hr⟩

end System
end Transport
end Flp
