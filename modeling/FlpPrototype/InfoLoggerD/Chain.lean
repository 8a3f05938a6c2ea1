import FlpPrototype.InfoLoggerD.ServerRuns
import FlpPrototype.Message.RoundTrip
import FlpPrototype.Transport.FirstReceipt
import FlpPrototype.Transport.MessagesEndToEnd
/-!
# Chain — from the daemons to the dispatchers of the server

The application of the transport's server is `InfoLoggerServer::doLoop`: it takes the files in the order in which they
were received, and acknowledges each behind its turn.  The first file of some contents comes before all files above it
of the same client, so what a client removes has had its turn (`removed_dispatched`): it was decoded and given to one of
the database dispatchers, or could not be decoded, or found all of them full three times.  The same goes for each
message that a daemon has let its permanent FIFO forget (`dropped_dispatched`).
-/
namespace Flp
namespace InfoLoggerServer

open Message (Msg DoubleText infoLogDecode)
open Transport (TrClient TrFile Received)
open Transport.System (Inv GapFree OnePiece GotAt AddsWell Fresh FreshOn MessagesInv)

variable {D : Type}

/-- `InfoLoggerMessageList`: the messages of a file; it throws when there are none. -/
def msgList (dt : DoubleText D) (isInit : Bool) (blobs : List Bytes) : Option (List (Msg D)) :=
  (infoLogDecode dt isInit blobs).filter fun msgs => !msgs.isEmpty

/-- The transport with its clients, the server's loop with its dispatchers, how many files it has taken, and the one
that is not acknowledged yet. -/
structure Chain (D : Type) where
  transport : Transport.System
  server : Server (List (Msg D))
  taken : Nat
  newFile : Option Nat

namespace Chain

inductive Action (D : Type) where
  | transport (a : Transport.System.Action)
  /-- `TR_server_get_file` gives the next file. -/
  | getFile
  | server (a : InfoLoggerServer.Action (List (Msg D)))
  /-- `TR_server_ack_file` is called, and the loop goes round. -/
  | ackFile

/-- What the transport does by itself. -/
def Outside : Transport.System.Action → Bool
  | .ackFile _ => false
  | _          => true

/-- What the server does between two files. -/
def Inside : InfoLoggerServer.Action (List (Msg D)) → Bool
  | .getFile _ => false
  | .ackFile   => false
  | _          => true

/-- The server takes a step that it is at. -/
def serve (size : Nat) (s : Chain D) (a : InfoLoggerServer.Action (List (Msg D))) : Option (Chain D) :=
  if s.server.mayDo a then (s.server.step size List.length a).map fun server => { s with server } else none

def step (dt : DoubleText D) (isInit : Bool) (size : Nat) (s : Chain D) : Action D → Option (Chain D)
  | .transport a =>
    if Outside a then (s.transport.step a).map fun transport => { s with transport } else none
  | .getFile     => s.transport.server.received[s.taken]?.bind fun g =>
      (s.serve size (.getFile (msgList dt isInit g.file.blobs))).map fun s' =>
        { s' with taken := s.taken + 1, newFile := some s.taken }
  | .server a    => if Inside a then s.serve size a else none
  | .ackFile     => s.newFile.bind fun k => (s.transport.step (.ackFile k)).bind fun transport =>
      { s with transport, newFile := none }.serve size .ackFile

/-- Daemons that were started, and a server. -/
def start (clients : Nat → TrClient) (maxClients size nBase dbNThreads : Nat) : Option (Chain D) :=
  (Server.start size nBase dbNThreads).map fun server => ⟨.start clients maxClients, server, 0, none⟩

/-- **A file of a client has had its turn.** -/
def Dispatched (dt : DoubleText D) (isInit : Bool) (size n : Nat) (s : Chain D) (c : Nat) (f : TrFile) : Prop :=
  ∃ i o, GotAt s.transport c i f ∧ s.server.outcomes[i]? = some o ∧ match msgList dt isInit [f.blobs.flatten] with
    | none      => o = .undecoded
    | some msgs => (∃ k d, o = .kept msgs k ∧ s.server.dispatchEnginesDB[k]? = some d ∧ some msgs ∈ d.input.pushed) ∨
        ∃ full, o = .lost msgs full ∧ Server.Full size n full

/-! ## What the application does to the transport -/

variable {dt : DoubleText D} {isInit : Bool} {size nBase n : Nat} {s s' : Chain D}

/-- The transport acknowledges nothing by itself. -/
theorem step_acked {t t' : Transport.System} {a : Transport.System.Action} (ha : Outside a = true)
    (hs : t.step a = some t') :
    t'.server.acked = t.server.acked := by
  cases a with
  | ackFile k => cases ha
  | dial c =>
    obtain ⟨-, rfl⟩ := Transport.System.step_dial hs
    rfl
  | accept c =>
    obtain ⟨-, server, haccept, ⟨-, rfl⟩ | ⟨-, rfl⟩⟩ := Transport.System.step_accept hs
    · rfl
    · exact (Transport.TrServer.accept_same haccept).2.1
  | hangUp c =>
    obtain ⟨t', rfl, -⟩ := Transport.System.step_hangUp hs
    rfl
  | ready c =>
    obtain ⟨k, link, t', -, -, -, -, rfl⟩ := Transport.System.step_ready hs
    rfl
  | replies c n =>
    obtain ⟨k, link, t', -, -, -, rfl⟩ := Transport.System.step_replies hs
    rfl
  | client c a =>
    obtain ⟨-, t', -, rfl⟩ := Transport.System.step_client hs
    unfold Transport.System.goOn
    split <;> rfl
  | read i n =>
    obtain ⟨slot, link, data, -, -, -, -, rfl⟩ := Transport.System.step_read hs
    rfl
  | parse e =>
    obtain ⟨i, text, behind, server, hp, hturn, rfl⟩ := Transport.System.step_parse hs
    rcases Transport.TrServer.parseTurn_update hp hturn with ⟨-, rfl⟩ | ⟨slot, turn, -, -, rfl⟩
    · rfl
    · rfl
  | acknowledge i minNumber result =>
    obtain rfl := Option.some.inj hs
    exact Transport.TrServer.acknowledgeFiles_acked t.server i minNumber result
  | printStats =>
    obtain ⟨-, rfl⟩ := Transport.System.step_printStats hs
    rfl

/-- The application acknowledges one file. -/
theorem ackFile_acked {t t' : Transport.System} {k : Nat} (hs : t.step (.ackFile k) = some t') :
    ∃ g, t.server.received[k]? = some g ∧ t'.server.acked = t.server.acked ++ [g] ∧
      t'.server.received = t.server.received := by
  obtain ⟨g, server, hg, hack, rfl⟩ := Transport.System.step_ackFile hs
  exact ⟨g, hg, Transport.TrServer.ackFile_acked hack, (Transport.TrServer.ackFile_same hack).received⟩

/-! ## The invariant -/

section

variable (J : Transport.System → Prop) (ok : Transport.System → Transport.System.Action → Prop)

/-- What is known of the transport, and what its surroundings keep to. -/
structure Guards : Prop where
  inv : ∀ {t}, J t → Inv t
  adds : ∀ {t a}, J t → ok t a → AddsWell t a
  step : ∀ {t a t'}, J t → ok t a → t.step a = some t' → J t'
  ack : ∀ t k, ok t (.ackFile k)

/-- **The chain**: the server has taken the first files received, in order, and acknowledged some it was done with. -/
structure Linked (dt : DoubleText D) (isInit : Bool) (size n : Nat) (s : Chain D) : Prop where
  transport : J s.transport ∧ GapFree s.transport
  pieces : ∀ g ∈ s.transport.server.received, OnePiece g
  server : Server.Inv size n List.length s.server
  taken : s.taken ≤ s.transport.server.received.length
  history : s.server.history = (s.transport.server.received.take s.taken).map fun g => msgList dt isInit g.file.blobs
  acked : ∀ a ∈ s.transport.server.acked, ∃ i < s.server.outcomes.length, s.transport.server.received[i]? = some a
  newFile : ∀ k, s.newFile = some k → k + 1 = s.taken

/-- The surroundings keep to their rule. -/
def Rule (s : Chain D) : Action D → Prop
  | .transport a => ok s.transport a
  | _            => True

variable {J ok}

/-- The server's thread or a dispatcher's takes a step. -/
theorem serve_linked {a : InfoLoggerServer.Action (List (Msg D))} (hsize : size < intMax)
    (h : Server.Inv size n List.length s.server) (hs : s.serve size a = some s') :
    ∃ server, s' = { s with server } ∧ Server.Inv size n List.length server ∧ s.server.mayDo a = true ∧
      s.server.Later server (s.server.current.map some ++ Server.files a) := by
  obtain ⟨hmay, hs⟩ := Option.ite_none_right_eq_some.1 hs
  obtain ⟨server, hstep, rfl⟩ := Option.map_eq_some_iff.1 hs
  obtain ⟨server', hstep', hinv⟩ := Server.inv_step hsize s.server a h hmay
  obtain rfl := Option.some.inj (hstep.symm.trans hstep')
  exact ⟨server, rfl, hinv, hmay, Server.later_step hmay hstep⟩

/-- What the server was done with before. -/
theorem outcomes_lt {server server' : Server (List (Msg D))} {files : List (Option (List (Msg D)))} {i : Nat}
    (h : server.Later server' files) (hi : i < server.outcomes.length) : i < server'.outcomes.length :=
  Nat.lt_of_lt_of_le hi h.outcomes.length_le

theorem linked_transport {a : Transport.System.Action} (hg : Guards J ok) (h : Linked J dt isInit size n s)
    (hok : ok s.transport a) (hs : s.step dt isInit size (.transport a) = some s') : Linked J dt isInit size n s' := by
  obtain ⟨hout, hs⟩ := Option.ite_none_right_eq_some.1 hs
  obtain ⟨t', ht, rfl⟩ := Option.map_eq_some_iff.1 hs
  have hinv := hg.inv h.transport.1
  have hj := hg.step h.transport.1 hok ht
  have hc := Transport.System.step_continues a hinv (hg.adds h.transport.1 hok) ht
  obtain ⟨new, -, hpieces, hreceived⟩ := hc.received
  refine ⟨⟨hj, hc.gapFree hinv (hg.inv hj) h.transport.2⟩, fun g hg => ?_, h.server, ?_, ?_, fun x hx => ?_, h.newFile⟩
  · rw [hreceived] at hg
    exact (List.mem_append.1 hg).elim (h.pieces g) (hpieces g)
  · rw [hreceived, List.length_append]
    exact Nat.le_add_right_of_le h.taken
  · rw [hreceived, List.take_append_of_le_length h.taken]
    exact h.history
  · rw [step_acked hout ht] at hx
    obtain ⟨i, hi, hget⟩ := h.acked x hx
    refine ⟨i, hi, ?_⟩
    rw [hreceived, List.getElem?_append_left (List.getElem?_eq_some_iff.1 hget).1]
    exact hget

theorem linked_getFile (hsize : size < intMax) (h : Linked J dt isInit size n s)
    (hs : s.step dt isInit size .getFile = some s') : Linked J dt isInit size n s' := by
  obtain ⟨g, hget, hs⟩ := Option.bind_eq_some_iff.1 hs
  obtain ⟨s₁, hserve, rfl⟩ := Option.map_eq_some_iff.1 hs
  obtain ⟨server, rfl, hinv, -, hlater⟩ := serve_linked hsize h.server hserve
  refine ⟨h.transport, h.pieces, hinv, (List.getElem?_eq_some_iff.1 hget).1, ?_, fun x hx => ?_, fun k hk => ?_⟩
  · show server.history = (s.transport.server.received.take (s.taken + 1)).map _
    rw [hlater.history, List.take_add_one, hget, List.map_append, ← h.history, Server.history, List.append_assoc]
    rfl
  · obtain ⟨i, hi, hx⟩ := h.acked x hx
    exact ⟨i, outcomes_lt hlater hi, hx⟩
  · rw [← Option.some.inj hk]

theorem linked_server {a : InfoLoggerServer.Action (List (Msg D))} (hsize : size < intMax)
    (h : Linked J dt isInit size n s)
    (hs : s.step dt isInit size (.server a) = some s') : Linked J dt isInit size n s' := by
  obtain ⟨hin, hs⟩ := Option.ite_none_right_eq_some.1 hs
  obtain ⟨server, rfl, hinv, -, hlater⟩ := serve_linked hsize h.server hs
  refine ⟨h.transport, h.pieces, hinv, h.taken, ?_, fun x hx => ?_, h.newFile⟩
  · show server.history = _
    rw [hlater.history, ← h.history, Server.history]
    cases a with
    | getFile | ackFile => cases hin
    | push | base | db => exact congrArg (s.server.outcomes.map Outcome.list ++ ·) (List.append_nil _)
  · obtain ⟨i, hi, hx⟩ := h.acked x hx
    exact ⟨i, outcomes_lt hlater hi, hx⟩

/-- **The file at hand is acknowledged**: the server is done with it. -/
theorem linked_ackFile (hsize : size < intMax) (hg : Guards J ok) (h : Linked J dt isInit size n s)
    (hs : s.step dt isInit size .ackFile = some s') : Linked J dt isInit size n s' := by
  obtain ⟨k, hk, hs⟩ := Option.bind_eq_some_iff.1 hs
  obtain ⟨t', ht, hs⟩ := Option.bind_eq_some_iff.1 hs
  obtain ⟨server, rfl, hinv, hmay, hlater⟩ := serve_linked (s := ⟨t', s.server, s.taken, none⟩) hsize h.server hs
  have hti := hg.inv h.transport.1
  have hj := hg.step h.transport.1 (hg.ack s.transport k) ht
  have hc := Transport.System.step_continues (.ackFile k) hti (hg.adds h.transport.1 (hg.ack s.transport k)) ht
  obtain ⟨x, hx, hacked, hreceived⟩ := ackFile_acked ht
  -- nothing is at hand: the server is done with all it has taken
  have hcurrent : s.server.current = [] := by
    rw [Server.current, Server.mayDo_ackFile hmay]
  have hlength : s.server.outcomes.length = s.taken := by
    have := congrArg List.length h.history
    rw [Server.history, hcurrent, List.map_nil, List.append_nil, List.length_map, List.length_map, List.length_take,
      Nat.min_eq_left h.taken] at this
    exact this
  refine ⟨⟨hj, hc.gapFree hti (hg.inv hj) h.transport.2⟩, fun g hg => h.pieces g (hreceived ▸ hg), hinv, ?_, ?_,
    fun y hy => ?_, fun k hk => by cases hk⟩
  · exact hreceived ▸ h.taken
  · show server.history = (t'.server.received.take s.taken).map _
    rw [hreceived, hlater.history, ← h.history, Server.history]
    exact congrArg (s.server.outcomes.map Outcome.list ++ ·) (List.append_nil _)
  · have hy : y ∈ t'.server.acked := hy
    show ∃ i < server.outcomes.length, t'.server.received[i]? = some y
    rw [hreceived]
    rw [hacked] at hy
    rcases List.mem_append.1 hy with hy | hy
    · obtain ⟨i, hi, hget⟩ := h.acked y hy
      exact ⟨i, outcomes_lt hlater hi, hget⟩
    · rw [List.mem_singleton.1 hy]
      have := h.newFile k hk
      exact ⟨k, outcomes_lt hlater (show k < s.server.outcomes.length by omega), hx⟩

/-- **Every step** keeps the chain linked. -/
theorem linked_step (hsize : size < intMax) (hg : Guards J ok) (a : Action D) (h : Linked J dt isInit size n s)
    (hok : Rule ok s a) (hs : s.step dt isInit size a = some s') : Linked J dt isInit size n s' := by
  cases a with
  | transport a => exact linked_transport hg h hok hs
  | getFile => exact linked_getFile hsize h hs
  | server a => exact linked_server hsize h hs
  | ackFile => exact linked_ackFile hsize hg h hs

theorem linked_start {clients : Nat → TrClient} {maxClients : Nat} {s₀ : Chain D} (hsize : size < intMax)
    (hJ : J (.start clients maxClients)) (hs : start clients maxClients size nBase n = some s₀) :
    Linked J dt isInit size n s₀ := by
  obtain ⟨server, hserver, rfl⟩ := Option.map_eq_some_iff.1 hs
  obtain ⟨server', hserver', hinv⟩ := Server.inv_start (α := List (Msg D)) hsize nBase n List.length
  obtain rfl := Option.some.inj (hserver.symm.trans hserver')
  refine ⟨⟨hJ, Transport.System.gapFree_start clients maxClients⟩, fun g hg => absurd hg List.not_mem_nil, hinv,
    Nat.zero_le _, ?_, fun a ha => absurd ha List.not_mem_nil, fun k hk => by cases hk⟩
  obtain ⟨d, -, rfl⟩ := Option.map_eq_some_iff.1 hserver
  rfl

theorem linked_run {clients : Nat → TrClient} {maxClients : Nat} {s₀ : Chain D} {as : List (Action D)}
    (hsize : size < intMax)
    (hg : Guards J ok) (hJ : J (.start clients maxClients)) (hs : start clients maxClients size nBase n = some s₀)
    (hl : Legal (step dt isInit size) (Rule ok) s₀ as) (hr : run (step dt isInit size) s₀ as = some s) :
    Linked J dt isInit size n s :=
  run_keeps (fun _ a _ h hok hs => linked_step hsize hg a h hok hs) as _ s (linked_start hsize hJ hs) hl hr

/-! ## What has had its turn -/

/-- What a turn of the server was for: the file received at its place. -/
theorem Linked.turn (h : Linked J dt isInit size n s) {i : Nat} {o : Outcome (List (Msg D))}
    (ho : s.server.outcomes[i]? = some o) :
    ∃ g, s.transport.server.received[i]? = some g ∧ o.list = msgList dt isInit g.file.blobs := by
  have hhistory := congrArg (·[i]?) h.history
  have hget : s.server.history[i]? = some o.list := by
    rw [Server.history, List.getElem?_append_left (by simpa using (List.getElem?_eq_some_iff.1 ho).1),
      List.getElem?_map, ho, Option.map_some]
  simp only [hget, List.getElem?_map] at hhistory
  obtain ⟨g, hg, hlist⟩ := Option.map_eq_some_iff.1 hhistory.symm
  rw [List.getElem?_take] at hg
  obtain ⟨-, hg⟩ := Option.ite_none_right_eq_some.1 hg
  exact ⟨g, hg, hlist.symm⟩

/-- **A file the server took** had its turn. -/
theorem Linked.outcome (h : Linked J dt isInit size n s) {i c : Nat} {f : TrFile} (hgot : GotAt s.transport c i f)
    (hi : i < s.server.outcomes.length) : Dispatched dt isInit size n s c f := by
  obtain ⟨g, hg, hclient, hcontents⟩ := hgot
  refine ⟨i, s.server.outcomes[i], ⟨g, hg, hclient, hcontents⟩, List.getElem?_eq_getElem hi, ?_⟩
  obtain ⟨value, hvalue⟩ := h.pieces g (List.mem_of_getElem? hg)
  have hblobs : f.blobs.flatten = value := by
    have := congrArg (fun x => x.2.2.2.1) hcontents
    simpa [TrFile.contents, hvalue] using this.symm
  -- the outcome is that of the file's own blob
  have hlist : s.server.outcomes[i].list = msgList dt isInit [f.blobs.flatten] := by
    obtain ⟨g', hg', hlist⟩ := h.turn (List.getElem?_eq_getElem hi)
    obtain rfl := Option.some.inj (hg'.symm.trans hg)
    rw [hlist, hvalue, hblobs]
  have haccounts := h.server.accounts
  have hmem : s.server.outcomes[i] ∈ s.server.outcomes := List.getElem_mem hi
  rw [← hlist]
  generalize s.server.outcomes[i] = o at hmem
  cases o with
  | undecoded => rfl
  | kept msgs k =>
    obtain ⟨_, _, _, _, hcore, -, -⟩ := h.server.core
    have hlt : k < s.server.dispatchEnginesDB.length := by
      rw [hcore.rest.length]
      exact haccounts.kept msgs k hmem
    have hd := List.getElem?_eq_getElem hlt
    refine .inl ⟨k, _, rfl, hd, ?_⟩
    rw [(haccounts.db k _ hd).1]
    exact List.mem_map_of_mem (List.mem_filterMap.2 ⟨_, hmem, if_pos rfl⟩)
  | lost msgs full => exact .inr ⟨full, rfl, haccounts.lost msgs full hmem⟩

/-- **What a client removed** had its turn. -/
theorem Linked.removed (hg : Guards J ok) (h : Linked J dt isInit size n s) {c : Nat} {f : TrFile}
    (hf : f ∈ (s.transport.stations c).tracked.removed) : Dispatched dt isInit size n s c f := by
  have htracked := ((hg.inv h.transport.1).station c).tracked
  obtain ⟨-, a, ha, ⟨l, hl, rfl⟩, hle⟩ := htracked.knows.removed f hf
  obtain ⟨i, hi, hget⟩ := h.acked a ha
  have hfq : f ∈ (s.transport.stations l.client).tracked.queued := by
    rw [htracked.ordered.kept.split]
    exact List.mem_append_left _ hf
  obtain ⟨j, hj, hgot⟩ := h.transport.2 i a l hget hl f hfq hle
  exact h.outcome hgot (Nat.lt_of_le_of_lt hj hi)

end

theorem guards_files : Guards Inv AddsWell where
  inv := id
  adds := fun _ h => h
  step := fun h hok hs => Transport.System.inv_step _ h hok hs
  ack := fun _ _ => trivial

/-- The rule of clients in message mode. -/
def MessageRule (t : Transport.System) (a : Transport.System.Action) : Prop :=
  Transport.System.IdsFitStep t a ∧ Transport.System.ProperStep a

theorem guards_messages (names : Nat → CString) : Guards (MessagesInv names) MessageRule where
  inv := fun h => h.inv
  adds := fun h hok => Transport.System.messenger_addsWell hok h.messengers
  step := fun h hok hs => Transport.System.messagesInv_step _ h hok hs
  ack := fun _ _ => ⟨trivial, trivial⟩

/-- **What a client removes from its queue has had its turn at the server**: its list was given to one database
dispatcher, or could not be made, or was lost when all of them were full, three times each. -/
theorem removed_dispatched (dt : DoubleText D) (isInit : Bool) (hsize : size < intMax) (clients : Nat → TrClient)
    (maxClients nBase n : Nat) (hfresh : ∀ c, Fresh (clients c)) (s₀ : Chain D)
    (hs : start clients maxClients size nBase n = some s₀) (as : List (Action D))
    (hl : Legal (step dt isInit size) (Rule AddsWell) s₀ as) (hr : run (step dt isInit size) s₀ as = some s) :
    ∀ c, ∀ f ∈ (s.transport.stations c).tracked.removed, Dispatched dt isInit size n s c f := fun _ _ hf =>
  (linked_run hsize guards_files (Transport.System.inv_start hfresh maxClients) hs hl hr).removed guards_files hf

/-- **A message that a daemon's permanent FIFO was let forget has had its turn at the server.** -/
theorem dropped_dispatched (dt : DoubleText D) (isInit : Bool) (hsize : size < intMax) (clients : Nat → TrClient)
    (maxClients nBase n : Nat) (hfresh : ∀ c, FreshOn (clients c)) (s₀ : Chain D)
    (hs : start clients maxClients size nBase n = some s₀) (as : List (Action D))
    (hl : Legal (step dt isInit size) (Rule MessageRule) s₀ as) (hr : run (step dt isInit size) s₀ as = some s) :
    ∀ c m, (s.transport.stations c).tracked.client.inputQueueMsg = some m →
      ∀ x ∈ (s.transport.stations c).tracked.permAcks, ∀ r ∈ m.written, r.id ≤ x →
        ∃ f, f.blobs.flatten = r.data ∧ Dispatched dt isInit size n s c f := by
  have hg := guards_messages fun c => (clients c).clientName
  have h := linked_run hsize hg (Transport.System.messagesInv_start hfresh maxClients) hs hl hr
  intro c m hm x hx r hrm hle
  obtain ⟨f, hf, hcontents⟩ := h.transport.1.dropped hm hx hrm hle
  exact ⟨f, congrArg (fun x => x.2.2.2.1) hcontents, h.removed hg hf⟩

/-! ## Runs -/

section

open Message (wholeNumbers textHead)
open Transport.TrDataConnection (willing)
open Transport.System (opening sendsFile plainClients messageClients IdsFitStep ProperStep)

/-- The surroundings keep to a rule that can be decided. -/
instance Rule.decidable (ok : Transport.System → Transport.System.Action → Prop) [∀ t a, Decidable (ok t a)]
    (s : Chain D) :
    (a : Action D) → Decidable (Rule ok s a)
  | .transport a => inferInstanceAs (Decidable (ok s.transport a))
  | .getFile     => isTrue trivial
  | .server _    => isTrue trivial
  | .ackFile     => isTrue trivial

/-- Client 0 sends its first file, which the server has its turn with, in so many accesses, and acknowledges. -/
def handled (first : Transport.Action) (accesses : Nat) : List (Action Nat) :=
  (.client 0 first :: (opening 0 0 ++ sendsFile 0 Perm.calm ++
    [.read 0 5000, .parse willing, .parse willing, .parse willing])).map .transport ++
  .getFile :: List.replicate accesses (.server .push) ++ [.ackFile] ++
  [Transport.System.Action.acknowledge 0 0 0, .replies 0 1, .client 0 .remove].map .transport

theorem removed_dispatched_handled : ∃ s₀ s : Chain Nat, start plainClients 1 4 1 1 = some s₀ ∧
    run (step wholeNumbers false 4) s₀ (handled (.queueAddFile ⟨0, ⟨some Transport.unknown, 1, 1, 0⟩, [[65]], 1⟩) 0) =
      some s ∧
    (s.transport.stations 0).tracked.removed.length = 1 ∧
    ∀ f ∈ (s.transport.stations 0).tracked.removed, Dispatched wholeNumbers false 4 1 s 0 f := by
  have hruns : (start plainClients 1 4 1 1 : Option (Chain Nat)).any (fun s₀ =>
      decide (Legal (step wholeNumbers false 4) (Rule AddsWell) s₀
        (handled (.queueAddFile ⟨0, ⟨some Transport.unknown, 1, 1, 0⟩, [[65]], 1⟩) 0)) &&
      (run (step wholeNumbers false 4) s₀
        (handled (.queueAddFile ⟨0, ⟨some Transport.unknown, 1, 1, 0⟩, [[65]], 1⟩) 0)).any
        fun s => decide ((s.transport.stations 0).tracked.removed.length = 1)) = true := by decide +kernel
  obtain ⟨s₀, hs, h⟩ := (Option.any_eq_true _ _).1 hruns
  obtain ⟨hlegal, hrun⟩ := Bool.and_eq_true_iff.1 h
  obtain ⟨s, hr, hlen⟩ := (Option.any_eq_true _ _).1 hrun
  exact ⟨s₀, s, hs, hr, of_decide_eq_true hlen, removed_dispatched wholeNumbers false (by decide) plainClients 1 1 1
    Transport.System.plainClients_fresh s₀ hs _ (of_decide_eq_true hlegal) hr 0⟩

/-- A message of a record. -/
def recordMessage : Transport.Action := .sendMsg Perm.calm (textHead ++ [65, 0])

theorem handled_proper (s : Chain Nat) : ∀ a ∈ handled recordMessage 14, Rule (fun _ a => ProperStep a) s a := by
  have hpayload : Perm.payload (textHead ++ [65, 0]) 0 = some (textHead ++ [65, 0]) := by decide
  have hlength : textHead.length + 2 ≤ Perm.ioMax := by decide
  simp [handled, recordMessage, opening, sendsFile, Rule, ProperStep, Transport.Tracked.Proper, Perm.calm_succeeds,
    hpayload, hlength]

theorem dropped_dispatched_handled : ∃ fifo, ∃ s₀ s : Chain Nat, ∃ m, start (messageClients fifo) 1 4 1 1 = some s₀ ∧
    run (step wholeNumbers false 4) s₀ (handled recordMessage 14) = some s ∧
    (s.transport.stations 0).tracked.client.inputQueueMsg = some m ∧ (s.transport.stations 0).tracked.permAcks = [1] ∧
    s.server.outcomes.length = 1 ∧ ∀ r ∈ m.written, r.id ≤ 1 →
      ∃ f, f.blobs.flatten = r.data ∧ Dispatched wholeNumbers false 4 1 s 0 f := by
  have hruns : (Perm.permFifoNew Perm.calm (Perm.dirOf .empty) 4).any (fun fifo =>
      (start (messageClients fifo) 1 4 1 1 : Option (Chain Nat)).any fun s₀ =>
        decide (Legal (step wholeNumbers false 4) (Rule IdsFitStep) s₀ (handled recordMessage 14)) &&
        (run (step wholeNumbers false 4) s₀ (handled recordMessage 14)).any fun s =>
          (s.transport.stations 0).tracked.client.inputQueueMsg.isSome &&
          decide ((s.transport.stations 0).tracked.permAcks = [1]) && decide (s.server.outcomes.length = 1)) =
            true := by
    decide +kernel
  obtain ⟨fifo, hfifo, h⟩ := (Option.any_eq_true _ _).1 hruns
  obtain ⟨s₀, hs, h⟩ := (Option.any_eq_true _ _).1 h
  obtain ⟨hlegal, hrun⟩ := Bool.and_eq_true_iff.1 h
  obtain ⟨s, hr, h⟩ := (Option.any_eq_true _ _).1 hrun
  obtain ⟨h, hlen⟩ := Bool.and_eq_true_iff.1 h
  obtain ⟨hm, hacks⟩ := Bool.and_eq_true_iff.1 h
  obtain ⟨m, hm⟩ := Option.isSome_iff_exists.1 hm
  have hacks := of_decide_eq_true hacks
  have hlegal : Legal (step wholeNumbers false 4) (Rule MessageRule) s₀ (handled recordMessage 14) :=
    ((of_decide_eq_true hlegal).and fun a ha s => handled_proper s a ha).mono fun s a h => by
      cases a <;> first | exact h | trivial
  refine ⟨fifo, s₀, s, m, hs, hr, hm, hacks, of_decide_eq_true hlen, fun r hrm hle => ?_⟩
  exact dropped_dispatched wholeNumbers false (by decide) (messageClients fifo) 1 1 1
    (Transport.System.messageClients_fresh hfifo) s₀ hs _ hlegal hr 0 m hm 1
      (by rw [hacks]; exact List.mem_singleton_self 1)
    r hrm hle

end

end Chain
end InfoLoggerServer
end Flp
