import FlpPrototype.InfoLoggerD.Chain
import FlpPrototype.InfoLoggerD.Daemon
import FlpPrototype.Message.Versions
/-!
# Logging — from the lines of the programs that log to the dispatchers of the server

On every host a daemon reads the lines of its clients and hands them to `TR_client_send_msg`, one after the other, while
the thread of its transport client goes on; the rest is the chain.  Each message is accounted for (`message_accounted`):
the daemon still has it to hand over, or its permanent FIFO has it, or it has had its turn at the server.  Nothing else
comes to the server, and no message overtakes one that its daemon had before (`outcomes_inOrder`).
-/
namespace Flp

open InfoLoggerD (Served Found)
open InfoLoggerServer (Chain msgList)
open InfoLoggerServer.Chain (MessageRule Dispatched Linked guards_messages)
open Message (Msg DoubleText)
open Transport (TrClient TrFile)
open Transport.System (FreshOn MessagesInv GotAt IdsFitStep ProperStep)

variable {D : Type}

/-- A daemon, and how many of its messages it has handed over. -/
structure Reader where
  served : Served
  handed : Nat

/-- The message the daemon hands over next. -/
def Reader.next (r : Reader) : Option Bytes := r.served.sent[r.handed]?.map Prod.snd

/-- The strings a daemon has handed over. -/
def Reader.strings (r : Reader) : List Bytes := (r.served.sent.take r.handed).map fun x => x.2 ++ [0]

/-- A daemon for each transport client, and the chain behind them. -/
structure Logging (D : Type) where
  readers : Nat → Reader
  chain : Chain D

namespace Logging

inductive Action (D : Type) where
  /-- A round of a daemon's loop, up to its first call of `TR_client_send_msg`. -/
  | round (c : Nat) (found : Found)
  | send (c : Nat) (e : Perm.Env)
  | chain (a : Chain.Action D)

/-- What goes on besides the calls of the daemons. -/
def Beside : Chain.Action D → Bool
  | .transport (.client _ (.sendMsg _ _)) => false
  | _                                     => true

/-- A daemon hands over a message as a string. -/
def sending (c : Nat) (e : Perm.Env) (msg : Bytes) : Chain.Action D := .transport (.client c (.sendMsg e (msg ++ [0])))

def setReader (s : Logging D) (c : Nat) (r : Reader) : Logging D := { s with readers := Function.update s.readers c r }

def step (dt : DoubleText D) (isInit : Bool) (size : Nat) (s : Logging D) : Action D → Option (Logging D)
  | .round c found =>
    if (s.readers c).next = none then
      ((s.readers c).served.step found).map fun served => s.setReader c ⟨served, (s.readers c).handed⟩
    else none
  | .send c e      => (s.readers c).next.bind fun msg =>
      (s.chain.step dt isInit size (sending c e msg)).map fun chain =>
        { s.setReader c ⟨(s.readers c).served, (s.readers c).handed + 1⟩ with chain }
  | .chain a       => if Beside a then (s.chain.step dt isInit size a).map fun chain => { s with chain } else none

def start (rxMaxConnections : Int) (clients : Nat → TrClient) (maxClients size nBase dbNThreads : Nat) :
    Option (Logging D) :=
  (Chain.start clients maxClients size nBase dbNThreads).map fun chain => ⟨fun _ => ⟨.start rxMaxConnections, 0⟩, chain⟩

/-- The kernel gives descriptors that are free, one system call writes a message, and the ids given to messages fit an
`int`. -/
def Fits (s : Logging D) : Action D → Prop
  | .round c found => (s.readers c).served.Rule found
  | .send c e      => ∀ msg ∈ (s.readers c).next, msg.length < Perm.ioMax ∧
      IdsFitStep s.chain.transport (.client c (.sendMsg e (msg ++ [0])))
  | .chain a       => Chain.Rule IdsFitStep s.chain a

/-- Memory and file systems do what they are asked. -/
def Works : Action D → Prop
  | .chain (.transport a) => ProperStep a
  | .send _ e             => e.Succeeds
  | _                     => True

/-- The rule of the surroundings. -/
def Rule (s : Logging D) (a : Action D) : Prop := Fits s a ∧ Works a

/-- What the records of a daemon's permanent FIFO held when it was opened. -/
def recovered (client : TrClient) : List Bytes :=
  (client.inputQueueMsg.map fun m => m.written.map Perm.Record.data).getD []

/-- A daemon keeps what it keeps, and the records of its permanent FIFO are those recovered and the strings handed
over. -/
structure Hands (max : Int) (client : TrClient) (t : Transport.Tracked) (r : Reader) : Prop where
  kept : r.served.Kept max
  handed : r.handed ≤ r.served.sent.length
  written : ∃ m, t.client.inputQueueMsg = some m ∧ m.written.map Perm.Record.data = recovered client ++ r.strings

/-- **The parts** fit together. -/
structure Joined (dt : DoubleText D) (isInit : Bool) (size n : Nat) (max : Int) (clients : Nat → TrClient)
    (s : Logging D) :
    Prop where
  linked : Linked (MessagesInv fun c => (clients c).clientName) dt isInit size n s.chain
  hands : ∀ c, Hands max (clients c) (s.chain.transport.stations c).tracked (s.readers c)

variable {dt : DoubleText D} {isInit : Bool} {size nBase n maxClients : Nat} {max : Int} {clients : Nat → TrClient}
  {s s' : Logging D} {c : Nat}

/-! ## Every step keeps them -/

theorem readers_setReader (s : Logging D) (c : Nat) (r : Reader) : (s.setReader c r).readers c = r :=
  Function.update_self ..

theorem readers_other {c' : Nat} (s : Logging D) (r : Reader) (h : c' ≠ c) :
    (s.setReader c r).readers c' = s.readers c' :=
  Function.update_of_ne h ..

/-- A message of a daemon has no NUL in it. -/
theorem nul_not_mem_sent {served : Served} (h : served.Kept max) {x : Nat × Bytes} (hx : x ∈ served.sent) :
    0 ∉ x.2 := by
  have hon : x.2 ∈ InfoLoggerD.on x.1 served.sent :=
    List.mem_map_of_mem (List.mem_filter.2 ⟨hx, decide_eq_true rfl⟩)
  rw [h.sent, InfoLoggerD.received_eq] at hon
  obtain ⟨m, -, hm⟩ := List.mem_map.1 hon
  rw [← hm]
  exact zero_not_mem_cStr m

/-- A string handed over is written with its terminator. -/
theorem payload_string {msg : Bytes} (h : 0 ∉ msg) : Perm.payload (msg ++ [0]) 0 = some (msg ++ [0]) := by
  rw [Perm.payload, if_pos rfl, Perm.cString, if_pos (List.mem_append_right _ (List.mem_singleton_self 0)),
    Option.map_some]
  exact congrArg (fun b => some (b ++ [0])) (cStr_append_nul h [])

/-- More rounds of a daemon change nothing of what was handed over. -/
theorem strings_earlier {served served' : Served} {k : Nat} (hk : k ≤ served.sent.length)
    (h : served.sent <+: served'.sent) :
    (Reader.mk served' k).strings = (Reader.mk served k).strings := by
  obtain ⟨new, hnew⟩ := h
  unfold Reader.strings
  rw [← hnew, List.take_append_of_le_length hk]

theorem joined_round {found : Found} (h : Joined dt isInit size n max clients s) (hrule : s.Rule (.round c found))
    (hs : s.step dt isInit size (.round c found) = some s') : Joined dt isInit size n max clients s' := by
  obtain ⟨-, hs⟩ := Option.ite_none_right_eq_some.1 hs
  obtain ⟨served, hserved, rfl⟩ := Option.map_eq_some_iff.1 hs
  obtain ⟨served', hserved', hkept⟩ := Served.kept_step _ found (h.hands c).kept hrule.1
  obtain rfl := Option.some.inj (hserved.symm.trans hserved')
  have hsent : (s.readers c).served.sent <+: served.sent := by
    obtain ⟨r, -, rfl⟩ := Option.map_eq_some_iff.1 hserved
    exact List.prefix_append _ _
  refine ⟨h.linked, fun c' => ?_⟩
  by_cases hc : c' = c
  · subst hc
    rw [readers_setReader]
    have hhands := h.hands c'
    refine ⟨hkept, Nat.le_trans hhands.handed hsent.length_le, ?_⟩
    rw [strings_earlier hhands.handed hsent]
    exact hhands.written
  · rw [readers_other s _ hc]
    exact h.hands c'

/-- What a step of the chain hands to the permanent FIFO of a client. -/
def handedBy (c : Nat) : Chain.Action D → List Bytes
  | .transport a => Transport.System.handed c a
  | _            => []

/-- **What a step of the chain writes** to a permanent FIFO. -/
theorem chain_written {a : Chain.Action D} {chain' : Chain D} (h : Transport.System.Inv s.chain.transport)
    (hs : s.chain.step dt isInit size a = some chain') {m : Perm.Session}
    (hm : (s.chain.transport.stations c).tracked.client.inputQueueMsg = some m) :
    ∃ m', (chain'.transport.stations c).tracked.client.inputQueueMsg = some m' ∧
      m'.written.map Perm.Record.data = m.written.map Perm.Record.data ++ handedBy c a := by
  cases a with
  | transport a =>
    obtain ⟨-, hs⟩ := Option.ite_none_right_eq_some.1 hs
    obtain ⟨t', ht, rfl⟩ := Option.map_eq_some_iff.1 hs
    exact Transport.System.step_written h ht hm
  | getFile =>
    obtain ⟨g, -, hs⟩ := Option.bind_eq_some_iff.1 hs
    obtain ⟨chain₁, hserve, rfl⟩ := Option.map_eq_some_iff.1 hs
    obtain ⟨-, hs⟩ := Option.ite_none_right_eq_some.1 hserve
    obtain ⟨server, -, rfl⟩ := Option.map_eq_some_iff.1 hs
    exact ⟨m, hm, (List.append_nil _).symm⟩
  | server a =>
    obtain ⟨-, hs⟩ := Option.ite_none_right_eq_some.1 hs
    obtain ⟨-, hs⟩ := Option.ite_none_right_eq_some.1 hs
    obtain ⟨server, -, rfl⟩ := Option.map_eq_some_iff.1 hs
    exact ⟨m, hm, (List.append_nil _).symm⟩
  | ackFile =>
    obtain ⟨k, -, hs⟩ := Option.bind_eq_some_iff.1 hs
    obtain ⟨t', ht, hs⟩ := Option.bind_eq_some_iff.1 hs
    obtain ⟨-, hs⟩ := Option.ite_none_right_eq_some.1 hs
    obtain ⟨server, -, rfl⟩ := Option.map_eq_some_iff.1 hs
    exact Transport.System.step_written h ht hm

/-- A string joins those handed over. -/
theorem strings_next {r : Reader} {msg : Bytes} (h : msg ∈ r.next) :
    (Reader.mk r.served (r.handed + 1)).strings = r.strings ++ [msg ++ [0]] := by
  obtain ⟨x, hx, rfl⟩ := Option.map_eq_some_iff.1 h
  simp only [Reader.strings, List.take_add_one, hx, Option.toList_some, List.map_append, List.map_cons, List.map_nil]

theorem handedBy_sending {c' : Nat} {e : Perm.Env} {msg : Bytes} (h : 0 ∉ msg) :
    handedBy c' (sending c e msg : Chain.Action D) = if c = c' then [msg ++ [0]] else [] := by
  show (if c = c' then (Perm.payload (msg ++ [0]) 0).toList else []) = _
  rw [payload_string h]
  rfl

theorem joined_send {e : Perm.Env} (hsize : size < intMax) (h : Joined dt isInit size n max clients s)
    (hrule : s.Rule (.send c e)) (hs : s.step dt isInit size (.send c e) = some s') :
    Joined dt isInit size n max clients s' := by
  obtain ⟨msg, hmsg, hs⟩ := Option.bind_eq_some_iff.1 hs
  obtain ⟨chain, hchain, rfl⟩ := Option.map_eq_some_iff.1 hs
  obtain ⟨x, hx, rfl⟩ := Option.map_eq_some_iff.1 hmsg
  obtain ⟨hlt, hget⟩ := List.getElem?_eq_some_iff.1 hx
  have hnul := nul_not_mem_sent (h.hands c).kept (hget ▸ List.getElem_mem hlt)
  obtain ⟨hlength, hids⟩ := hrule.1 _ hmsg
  have hproper : ProperStep (.client c (.sendMsg e (x.2 ++ [0]))) := ⟨hrule.2, _, payload_string hnul, by
    rw [List.length_append]
    exact hlength⟩
  refine ⟨InfoLoggerServer.Chain.linked_step hsize (guards_messages _) (sending c e x.2) h.linked
    ⟨hids, hproper⟩ hchain, fun c' => ?_⟩
  have hhands := h.hands c'
  obtain ⟨m, hm, hdata⟩ := hhands.written
  obtain ⟨m', hm', hdata'⟩ := chain_written h.linked.transport.1.inv hchain hm
  rw [hdata, List.append_assoc] at hdata'
  by_cases hc : c' = c
  · subst hc
    show Hands max (clients c') _ ((s.setReader c' ⟨_, _⟩).readers c')
    rw [readers_setReader]
    refine ⟨hhands.kept, hlt, m', hm', hdata'.trans (congrArg _ ?_)⟩
    rw [strings_next hmsg, handedBy_sending hnul, if_pos rfl]
  · show Hands max (clients c') _ ((s.setReader c ⟨_, _⟩).readers c')
    rw [readers_other s _ hc]
    refine ⟨hhands.kept, hhands.handed, m', hm', hdata'.trans (congrArg _ ?_)⟩
    rw [handedBy_sending hnul, if_neg fun e => hc e.symm, List.append_nil]

/-- Only the daemons hand over strings. -/
theorem beside_handed {a : Chain.Action D} (h : Beside a = true) : handedBy c a = [] := by
  cases a with
  | transport a =>
    cases a with
    | client c' b =>
      show (if c' = c then _ else _) = _
      split
      · cases b with
        | sendMsg e msg => cases h
        | _ => rfl
      · rfl
    | _ => rfl
  | _ => rfl

theorem joined_chain {a : Chain.Action D} (hsize : size < intMax) (h : Joined dt isInit size n max clients s)
    (hrule : s.Rule (.chain a)) (hs : s.step dt isInit size (.chain a) = some s') :
    Joined dt isInit size n max clients s' := by
  obtain ⟨hbeside, hs⟩ := Option.ite_none_right_eq_some.1 hs
  obtain ⟨chain, hchain, rfl⟩ := Option.map_eq_some_iff.1 hs
  have hok : Chain.Rule MessageRule s.chain a := by
    cases a with
    | transport a => exact hrule
    | getFile | server | ackFile => trivial
  refine ⟨InfoLoggerServer.Chain.linked_step hsize (guards_messages _) _ h.linked hok hchain, fun c => ?_⟩
  have hhands := h.hands c
  obtain ⟨m, hm, hdata⟩ := hhands.written
  obtain ⟨m', hm', hdata'⟩ := chain_written h.linked.transport.1.inv hchain hm
  rw [beside_handed hbeside, List.append_nil] at hdata'
  exact ⟨hhands.kept, hhands.handed, m', hm', hdata'.trans hdata⟩

theorem joined_step (hsize : size < intMax) (a : Action D) (h : Joined dt isInit size n max clients s)
    (hrule : s.Rule a) (hs : s.step dt isInit size a = some s') : Joined dt isInit size n max clients s' := by
  cases a with
  | round c found => exact joined_round h hrule hs
  | send c e => exact joined_send hsize h hrule hs
  | chain a => exact joined_chain hsize h hrule hs

theorem joined_start {s₀ : Logging D} (hsize : size < intMax) (hfresh : ∀ c, FreshOn (clients c))
    (hs : start max clients maxClients size nBase n = some s₀) : Joined dt isInit size n max clients s₀ := by
  obtain ⟨chain, hchain, rfl⟩ := Option.map_eq_some_iff.1 hs
  have hlinked : Linked (MessagesInv fun c => (clients c).clientName) dt isInit size n chain :=
    InfoLoggerServer.Chain.linked_start hsize (Transport.System.messagesInv_start hfresh maxClients) hchain
  obtain ⟨server, -, rfl⟩ := Option.map_eq_some_iff.1 hchain
  refine ⟨hlinked, fun c => ⟨Served.kept_start max, Nat.zero_le _, ?_⟩⟩
  obtain ⟨F, d, e, queueLength, name, proxyState, fifo, -, -, hclient, -⟩ := hfresh c
  refine ⟨.start fifo, congrArg TrClient.inputQueueMsg hclient, ?_⟩
  rw [recovered, hclient]
  exact (List.append_nil _).symm

theorem joined_run {s₀ : Logging D} {as : List (Action D)} (hsize : size < intMax) (hfresh : ∀ c, FreshOn (clients c))
    (hs : start max clients maxClients size nBase n = some s₀) (hl : Legal (step dt isInit size) Rule s₀ as)
    (hr : run (step dt isInit size) s₀ as = some s) : Joined dt isInit size n max clients s :=
  run_keeps (fun _ a _ h hok hs => joined_step hsize a h hok hs) as _ s (joined_start hsize hfresh hs) hl hr

/-! ## Where the messages are -/

/-- **Where a message of a daemon is**: not handed over yet, or kept by the permanent FIFO, or it has had its turn at
the server. -/
def Accounted (dt : DoubleText D) (isInit : Bool) (size n : Nat) (client : TrClient) (s : Logging D) (c i : Nat)
    (msg : Bytes) : Prop :=
  (s.readers c).handed ≤ i ∨ ∃ m r, (s.chain.transport.stations c).tracked.client.inputQueueMsg = some m ∧
    m.written[(recovered client).length + i]? = some r ∧ r.data = msg ++ [0] ∧
    ((∀ x ∈ (s.chain.transport.stations c).tracked.permAcks, x < r.id) ∨
      ∃ f, f.blobs.flatten = msg ++ [0] ∧ Dispatched dt isInit size n s.chain c f)

theorem Joined.accounted (h : Joined dt isInit size n max clients s) {i : Nat} {x : Nat × Bytes}
    (hx : (s.readers c).served.sent[i]? = some x) : Accounted dt isInit size n (clients c) s c i x.2 := by
  by_cases hi : (s.readers c).handed ≤ i
  · exact .inl hi
  · obtain ⟨m, hm, hdata⟩ := (h.hands c).written
    have hstring : (s.readers c).strings[i]? = some (x.2 ++ [0]) := by
      rw [Reader.strings, List.getElem?_map, List.getElem?_take_of_lt (by omega), hx, Option.map_some]
    have hget := congrArg (·[(recovered (clients c)).length + i]?) hdata
    simp only [List.getElem?_map] at hget
    rw [List.getElem?_append_right (by omega), Nat.add_sub_cancel_left, hstring] at hget
    obtain ⟨r, hr, hrdata⟩ := Option.map_eq_some_iff.1 hget
    refine .inr ⟨m, r, hm, hr, hrdata, ?_⟩
    by_cases hacks : ∀ y ∈ (s.chain.transport.stations c).tracked.permAcks, y < r.id
    · exact .inl hacks
    · obtain ⟨y, hy, hle⟩ : ∃ y ∈ (s.chain.transport.stations c).tracked.permAcks, r.id ≤ y := by
        simpa using hacks
      obtain ⟨f, hf, hcontents⟩ := h.linked.transport.1.dropped hm hy (List.mem_of_getElem? hr) hle
      refine .inr ⟨f, ?_, h.linked.removed (guards_messages _) hf⟩
      rw [← hrdata]
      exact congrArg (fun x => x.2.2.2.1) hcontents

/-- **Every message of every daemon is accounted for**, in any run. -/
theorem message_accounted (dt : DoubleText D) (isInit : Bool) (hsize : size < intMax) (clients : Nat → TrClient)
    (max : Int) (maxClients nBase n : Nat) (hfresh : ∀ c, FreshOn (clients c)) (s₀ : Logging D)
    (hs : start max clients maxClients size nBase n = some s₀) (as : List (Action D))
    (hl : Legal (step dt isInit size) Rule s₀ as) (hr : run (step dt isInit size) s₀ as = some s) :
    ∀ c, (s.readers c).served.Kept max ∧ ∀ (i : Nat) x, (s.readers c).served.sent[i]? = some x →
      Accounted dt isInit size n (clients c) s c i x.2 := fun c =>
  have h := joined_run hsize hfresh hs hl hr
  ⟨(h.hands c).kept, fun _ _ hx => h.accounted hx⟩

/-! ## What comes to the server -/

/-- **A turn of the server** was for a record of a host's permanent FIFO. -/
def TurnOf (dt : DoubleText D) (isInit : Bool) (s : Logging D) (c i : Nat) (r : Perm.Record) : Prop :=
  ∃ o g, s.chain.server.outcomes[i]? = some o ∧ s.chain.transport.server.received[i]? = some g ∧
    (∃ l, s.chain.transport.links[g.connection]? = some l ∧ l.client = c) ∧ g.file.id.minId = (r.id : Int) ∧
    o.list = msgList dt isInit [r.data]

/-- A file of a client that was received before a turn had one. -/
theorem Joined.turnOf (h : Joined dt isInit size n max clients s) {i : Nat} {f : TrFile} {r : Perm.Record}
    (hi : i < s.chain.server.outcomes.length) (hgot : GotAt s.chain.transport c i f)
    (hkey : Transport.Tracked.fileKey f = (1, (r.id : Int), [r.data])) : TurnOf dt isInit s c i r := by
  obtain ⟨g, hg, hlink, hcontents⟩ := hgot
  have ho := List.getElem?_eq_getElem hi
  obtain ⟨g', hg', hlist⟩ := h.linked.turn ho
  obtain rfl := Option.some.inj (hg'.symm.trans hg)
  obtain ⟨-, hkey⟩ := Prod.mk.inj hkey
  obtain ⟨hmin, hblobs⟩ := Prod.mk.inj hkey
  refine ⟨_, g', ho, hg, hlink, ?_, ?_⟩
  · exact (Transport.System.contents_ids hcontents).2.trans hmin
  · obtain ⟨value, hvalue⟩ := h.linked.pieces g' (List.mem_of_getElem? hg)
    have hdata : value = r.data := by
      have hflat := congrArg (fun x => x.2.2.2.1) hcontents
      simpa [TrFile.contents, hvalue, hblobs] using hflat
    rw [hlist, hvalue, hdata]

/-- **Each turn of the server was for a record, and all records of the same host before it had theirs no later.** -/
theorem Joined.inOrder (h : Joined dt isInit size n max clients s) {i : Nat} (hi : i < s.chain.server.outcomes.length) :
    ∃ c m, (s.chain.transport.stations c).tracked.client.inputQueueMsg = some m ∧ ∃ (k : Nat) (r : Perm.Record),
      m.written[k]? = some r ∧
      TurnOf dt isInit s c i r ∧ ∀ k' < k, ∀ r' ∈ m.written[k']?, ∃ j ≤ i, TurnOf dt isInit s c j r' := by
  obtain ⟨g, hg, -⟩ := h.linked.turn (List.getElem?_eq_getElem hi)
  have hinv := h.linked.transport.1.inv
  have hmem := List.mem_of_getElem? hg
  obtain ⟨l, hl⟩ : ∃ l, s.chain.transport.links[g.connection]? = some l := by
    have := hinv.old g hmem
    rw [← hinv.count] at this
    exact ⟨_, List.getElem?_eq_getElem this⟩
  obtain ⟨⟨f, hf, hcontents⟩, -⟩ := hinv.below hmem hl
  obtain ⟨-, -, queueLength, m, hmessages⟩ := h.linked.transport.1.messengers l.client
  obtain ⟨r, hr, hle, hkey⟩ := hmessages.item_of hf
  obtain ⟨k, hk⟩ := List.getElem?_of_mem hr
  refine ⟨l.client, m, hmessages.messages, k, r, hk, h.turnOf hi ⟨g, hg, ⟨l, hl, rfl⟩, hcontents.symm⟩ hkey,
    fun k' hk' r' hr' => ?_⟩
  -- a record before it was read before it, so its file lies below
  have hlt : r'.id < r.id := by
    obtain ⟨hdr, p, hgood⟩ := hmessages.good
    obtain ⟨hk'lt, hk'⟩ := List.getElem?_eq_some_iff.1 hr'
    obtain ⟨hklt, hk⟩ := List.getElem?_eq_some_iff.1 hk
    rw [← hk, ← hk']
    exact List.pairwise_iff_getElem.1 hgood.written_increasing k' k hk'lt hklt ‹_›
  obtain ⟨f', hf', hkey'⟩ := hmessages.file_of (List.mem_of_getElem? hr') (by omega)
  have hbelow : Transport.trFileIdCompare f'.id g.file.id = false := by
    obtain ⟨hmaj, hmin⟩ := Transport.System.contents_ids hcontents
    obtain ⟨hfmaj, hfmin, -⟩ : f.id.majId = 1 ∧ f.id.minId = r.id ∧ f.blobs = [r.data] := by
      simpa [Transport.Tracked.fileKey] using hkey
    obtain ⟨hfmaj', hfmin', -⟩ : f'.id.majId = 1 ∧ f'.id.minId = r'.id ∧ f'.blobs = [r'.data] := by
      simpa [Transport.Tracked.fileKey] using hkey'
    rw [Bool.eq_false_iff, Ne, Transport.trFileIdCompare_iff]
    omega
  obtain ⟨j, hj, hgot⟩ := h.linked.transport.2 i g l hg hl f' hf' hbelow
  exact ⟨j, hj, h.turnOf (Nat.lt_of_le_of_lt hj hi) hgot hkey'⟩

/-- **Nothing but what was logged comes to the dispatchers, and no message overtakes another of its host**, in any
run. -/
theorem outcomes_inOrder (dt : DoubleText D) (isInit : Bool) (hsize : size < intMax) (clients : Nat → TrClient)
    (max : Int) (maxClients nBase n : Nat) (hfresh : ∀ c, FreshOn (clients c)) (s₀ : Logging D)
    (hs : start max clients maxClients size nBase n = some s₀) (as : List (Action D))
    (hl : Legal (step dt isInit size) Rule s₀ as) (hr : run (step dt isInit size) s₀ as = some s) :
    ∀ i < s.chain.server.outcomes.length, ∃ c m,
      (s.chain.transport.stations c).tracked.client.inputQueueMsg = some m ∧
      m.written.map Perm.Record.data = recovered (clients c) ++ (s.readers c).strings ∧
      ∃ (k : Nat) (r : Perm.Record), m.written[k]? = some r ∧ TurnOf dt isInit s c i r ∧
        ∀ k' < k, ∀ r' ∈ m.written[k']?, ∃ j ≤ i, TurnOf dt isInit s c j r' := by
  have h := joined_run hsize hfresh hs hl hr
  intro i hi
  obtain ⟨c, m, hm, horder⟩ := h.inOrder hi
  obtain ⟨m', hm', hdata⟩ := (h.hands c).written
  obtain rfl := Option.some.inj (hm'.symm.trans hm)
  exact ⟨c, m', hm, hdata, horder⟩

/-! ## A line -/

section

open Message (wholeNumbers textHead)
open Transport.System (messageClients)
open InfoLoggerServer.Chain (handled recordMessage)

instance (s : Logging D) : (a : Action D) → Decidable (Fits s a)
  | .round c found => inferInstanceAs (Decidable ((s.readers c).served.Rule found))
  | .send c e      => inferInstanceAs (Decidable (∀ msg ∈ (s.readers c).next, msg.length < Perm.ioMax ∧
      IdsFitStep s.chain.transport (.client c (.sendMsg e (msg ++ [0])))))
  | .chain a       => inferInstanceAs (Decidable (Chain.Rule IdsFitStep s.chain a))

/-- A client of daemon 0 sends a record, in some reads, which goes all the way, and back. -/
def oneLine (chunks : List Bytes) : List (Action Nat) :=
  .round 0 ⟨fun _ => none, some (some 5)⟩ :: chunks.map (fun b => .round 0 ⟨fun _ => some b, none⟩) ++
    .send 0 Perm.calm :: (handled recordMessage 14).tail.map .chain

theorem oneLine_works (chunks : List Bytes) : ∀ a ∈ oneLine chunks, Works a := by
  have htail : ∀ a ∈ Action.send 0 Perm.calm :: (handled recordMessage 14).tail.map .chain, Works a := by
    simp [handled, Transport.System.opening, Transport.System.sendsFile, Works, ProperStep, Transport.Tracked.Proper,
      Perm.calm_succeeds]
  intro a ha
  rcases List.mem_append.1 ha with ha | ha
  · rcases List.mem_cons.1 ha with rfl | ha
    · trivial
    · obtain ⟨b, -, rfl⟩ := List.mem_map.1 ha
      trivial
  · exact htail a ha

def recordLine : List (Action Nat) := oneLine [textHead ++ [65, newline]]

/-- The run, and where it ends. -/
theorem oneLine_runs : ∃ fifo, ∃ s₀ s : Logging Nat, (∀ c, FreshOn (messageClients fifo c)) ∧
    start 1 (messageClients fifo) 1 4 1 1 = some s₀ ∧ Legal (step wholeNumbers false 4) Rule s₀ recordLine ∧
    run (step wholeNumbers false 4) s₀ recordLine = some s ∧ (s.readers 0).served.sent = [(0, textHead ++ [65])] ∧
    (s.readers 0).handed = 1 ∧ (s.chain.transport.stations 0).tracked.permAcks = [1] ∧
    s.chain.server.outcomes.length = 1 := by
  have hruns : (Perm.permFifoNew Perm.calm (Perm.dirOf .empty) 4).any (fun fifo =>
      (start 1 (messageClients fifo) 1 4 1 1 : Option (Logging Nat)).any fun s₀ =>
        decide (Legal (step wholeNumbers false 4) Fits s₀ recordLine) &&
        (run (step wholeNumbers false 4) s₀ recordLine).any fun s =>
          decide ((s.readers 0).served.sent = [(0, textHead ++ [65])] ∧ (s.readers 0).handed = 1 ∧
            (s.chain.transport.stations 0).tracked.permAcks = [1] ∧ s.chain.server.outcomes.length = 1)) = true := by
    decide +kernel
  obtain ⟨fifo, hfifo, h⟩ := (Option.any_eq_true _ _).1 hruns
  obtain ⟨s₀, hs, h⟩ := (Option.any_eq_true _ _).1 h
  obtain ⟨hlegal, hrun⟩ := Bool.and_eq_true_iff.1 h
  obtain ⟨s, hr, h⟩ := (Option.any_eq_true _ _).1 hrun
  exact ⟨fifo, s₀, s, Transport.System.messageClients_fresh hfifo, hs,
    (of_decide_eq_true hlegal).and fun a ha _ => oneLine_works _ a ha, hr, of_decide_eq_true h⟩

theorem message_accounted_oneLine : ∃ fifo, ∃ s₀ s : Logging Nat, start 1 (messageClients fifo) 1 4 1 1 = some s₀ ∧
    run (step wholeNumbers false 4) s₀ recordLine = some s ∧ (s.readers 0).handed = 1 ∧
    (s.chain.transport.stations 0).tracked.permAcks = [1] ∧ (s.readers 0).served.Kept 1 ∧
    Accounted wholeNumbers false 4 1 (messageClients fifo 0) s 0 0 (textHead ++ [65]) := by
  obtain ⟨fifo, s₀, s, hfresh, hs, hl, hr, hsent, hhanded, hacks, -⟩ := oneLine_runs
  obtain ⟨hkept, haccounted⟩ :=
    message_accounted wholeNumbers false (by decide) (messageClients fifo) 1 1 1 1 hfresh s₀ hs
    recordLine hl hr 0
  exact ⟨fifo, s₀, s, hs, hr, hhanded, hacks, hkept, haccounted 0 (0, textHead ++ [65]) (by rw [hsent]; rfl)⟩

theorem outcomes_inOrder_oneLine : ∃ fifo, ∃ s₀ s : Logging Nat, start 1 (messageClients fifo) 1 4 1 1 = some s₀ ∧
    run (step wholeNumbers false 4) s₀ recordLine = some s ∧ ∃ c m,
      (s.chain.transport.stations c).tracked.client.inputQueueMsg = some m ∧
      m.written.map Perm.Record.data = recovered (messageClients fifo c) ++ (s.readers c).strings ∧
      ∃ (k : Nat) (r : Perm.Record), m.written[k]? = some r ∧ TurnOf wholeNumbers false s c 0 r ∧
        ∀ k' < k, ∀ r' ∈ m.written[k']?, ∃ j ≤ 0, TurnOf wholeNumbers false s c j r' := by
  obtain ⟨fifo, s₀, s, hfresh, hs, hl, hr, -, -, -, hlength⟩ := oneLine_runs
  exact ⟨fifo, s₀, s, hs, hr,
    outcomes_inOrder wholeNumbers false (by decide) (messageClients fifo) 1 1 1 1 hfresh s₀ hs recordLine
    hl hr 0 (by rw [hlength]; decide)⟩

end

end Logging
end Flp
