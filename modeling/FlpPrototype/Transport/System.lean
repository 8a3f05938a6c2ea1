import FlpPrototype.Transport.ClientAcks
import FlpPrototype.Transport.Connections
import FlpPrototype.Transport.Reception
/-!
# System — clients, a server, and the connections between them

Any number of clients, each in its thread, and one server with its own thread and those of its application.  A
connection has the bytes the client's socket has taken, of which the server has read a part, and the lines on their way
back; it may be lost at any time from either side, with all that is under way in it.  The server accepts waiting clients
in any order, or closes their connection when it has no free slot.  A client enters `STATE_CONNECTED` with the line
`READY`.

Connections with a proxy between are left out.
-/
namespace Flp
namespace Transport

/-- Where a client's connection is; `on` has its number in the order of acceptance. -/
inductive Cx where
  | none
  | dialing
  | refused
  | on (k : Nat)
  deriving DecidableEq

/-- A client and its connection. -/
structure Station where
  tracked : Tracked
  cx : Cx

/-- A connection that was accepted. -/
structure Link where
  client : Nat
  /-- The client as it opened the connection. -/
  opening : TrClient
  /-- What the client's socket has taken. -/
  stream : Bytes
  /-- How many bytes of it the server has read. -/
  arrived : Nat
  /-- The lines the server has sent and the client has not read. -/
  replies : List Bytes
  /-- The files sent completely. -/
  finished : List TrFile
  /-- The file that is being sent. -/
  sending : Option TrFile

namespace Link

def new (client : Nat) (opening : TrClient) : Link := ⟨client, opening, opening.iniLine, 0, [], [], none⟩

/-- The files the sending of which has begun. -/
def files (l : Link) : List TrFile := l.finished ++ l.sending.toList

/-- What is on its way to the server. -/
def underWay (l : Link) : Bytes := l.stream.drop l.arrived

/-- The client has gone on, if it is in `STATE_CONNECTED`. -/
def sync (l : Link) (t : Tracked) : Link :=
  if t.client.stage = .notConnected then l
  else { l with stream := t.wire, finished := t.finished, sending := t.sending }

def push (l : Link) (line : Bytes) : Link := { l with replies := l.replies ++ [line] }

end Link

/-- The line that a server is ready, without its end. -/
def readyLine : Bytes := ascii "READY".toList

structure System where
  stations : Nat → Station
  /-- The connections, by their numbers. -/
  links : List Link
  server : TrServer

namespace System

/-- Clients that were started, and a server. -/
def start (clients : Nat → TrClient) (maxClients : Nat) : System where
  stations c := ⟨.start (clients c), .none⟩
  links := []
  server := .start maxClients

def setStation (s : System) (c : Nat) (station : Station) : System :=
  { s with stations := Function.update s.stations c station }

/-- A client has gone on, with the connection it has. -/
def goOn (s : System) (c : Nat) (t : Tracked) : System :=
  match (s.stations c).cx with
  | .on k => { s.setStation c ⟨t, .on k⟩ with links := s.links.modify k (·.sync t) }
  | cx    => s.setStation c ⟨t, cx⟩

inductive Action where
  /-- A client connects, and sends the line of the opening. -/
  | dial (c : Nat)
  /-- The server takes a waiting client. -/
  | accept (c : Nat)
  /-- A client gives up its connection, or finds it lost. -/
  | hangUp (c : Nat)
  /-- A client reads that the server is ready. -/
  | ready (c : Nat)
  /-- A client reads some lines of the server. -/
  | replies (c n : Nat)
  /-- A client, or one of its users, does something else. -/
  | client (c : Nat) (a : Transport.Action)
  /-- The server reads at most some bytes on a slot; none when the connection is lost. -/
  | read (i n : Nat)
  | parse (e : ServerEnv)
  | ackFile (k : Nat)
  | acknowledge (i minNumber : Nat) (result : Int)
  | printStats

/-- The step a client, or one of its users, takes. -/
def Action.ofClient : Action → Option (Nat × Transport.Action)
  | .client c a => some (c, a)
  | _           => none

/-- What a client does by itself. -/
def Own : Transport.Action → Prop
  | .connect _ => False
  | .lose      => False
  | .replies _ => False
  | _          => True

instance : (a : Transport.Action) → Decidable (Own a)
  | .connect _ | .lose | .replies _ => isFalse id
  | .remove | .select _ | .transmit _ | .flush _ | .sendMsg _ _ | .queueAddFile _ | .getLastFileSent => isTrue trivial

/-- Whether the line `READY` was sent in a step, on the connection of a slot. -/
def ReadySent (server server' : TrServer) (i : Nat) : Prop :=
  server.cxTable[i]?.map (·.cx.state) = some .init ∧ server'.cxTable[i]?.map (·.cx.state) = some .waitingFileBegin

instance (server server' : TrServer) (i : Nat) : Decidable (ReadySent server server' i) :=
  inferInstanceAs (Decidable (_ ∧ _))

/-- The lines of acknowledgement that were sent are on their way. -/
def pushAcks (links : List Link) (sent : List AckSent) : List Link :=
  sent.foldl (fun links a => links.modify a.connection (·.push (ackLine a.minId a.majId))) links

def step (s : System) : Action → Option System
  | .dial c =>
    if (s.stations c).cx = .none ∧ (s.stations c).tracked.client.stage = .notConnected then
      some (s.setStation c ⟨(s.stations c).tracked, .dialing⟩)
    else none
  | .accept c =>
    if (s.stations c).cx = .dialing ∧ s.server.parsing = none then
      s.server.accept.map fun server =>
        if server.accepted = s.server.accepted then s.setStation c ⟨(s.stations c).tracked, .refused⟩
        else { s.setStation c ⟨(s.stations c).tracked, .on s.links.length⟩ with
          links := s.links ++ [.new c (s.stations c).tracked.client]
          server }
    else none
  | .hangUp c =>
    if (s.stations c).cx = .none then none
    else if (s.stations c).tracked.client.stage = .notConnected then
      some (s.setStation c ⟨(s.stations c).tracked, .none⟩)
    else ((s.stations c).tracked.step .lose).map fun t => s.setStation c ⟨t, .none⟩
  | .ready c =>
    match (s.stations c).cx with
    | .on k =>
      match s.links[k]? with
      | none      => none
      | some link =>
        if link.replies.head? = some readyLine then
          ((s.stations c).tracked.step (.connect true)).map fun t => { s.setStation c ⟨t, .on k⟩ with
            links := s.links.set k { link.sync t with replies := link.replies.tail } }
        else none
    | _     => none
  | .replies c n =>
    match (s.stations c).cx with
    | .on k =>
      match s.links[k]? with
      | none      => none
      | some link =>
        ((s.stations c).tracked.step (.replies (link.replies.take n))).map fun t => { s.setStation c ⟨t, .on k⟩ with
          links := s.links.set k { link.sync t with replies := link.replies.drop n } }
    | _     => none
  | .client c a => if Own a then ((s.stations c).tracked.step a).map (s.goOn c) else none
  | .read i n =>
    match s.server.cxTable[i]? with
    | none      => none
    | some slot =>
      match s.links[slot.connection]? with
      | none      => none
      | some link =>
        if slot.IsOpen ∧ s.server.parsing = none then
          let data := link.underWay.take (min n slot.cx.asked)
          some { s with
            server := s.server.connectionRead i data
            links := s.links.set slot.connection { link with arrived := link.arrived + data.length } }
        else none
  | .parse e =>
    match s.server.parsing with
    | none           => none
    | some (i, _, _) =>
      (s.server.parseTurn e).map fun server => { s with
        server
        links := match s.server.cxTable[i]? with
          | none      => s.links
          | some slot =>
              if ReadySent s.server server i then s.links.modify slot.connection (·.push readyLine) else s.links }
  | .ackFile k =>
    match s.server.received[k]? with
    | none   => none
    | some g => (s.server.ackFile g).map fun server => { s with server }
  | .acknowledge i minNumber result =>
    let server := s.server.acknowledgeFiles i minNumber result
    some { s with server, links := pushAcks s.links (server.sent.drop s.server.sent.length) }
  | .printStats => if s.server.parsing = none then some { s with server := s.server.printStats } else none

/-! ## What each step does -/

variable {s s' : System} {c k : Nat}

theorem step_dial (h : s.step (.dial c) = some s') :
    ((s.stations c).cx = .none ∧ (s.stations c).tracked.client.stage = .notConnected) ∧
      s' = s.setStation c ⟨(s.stations c).tracked, .dialing⟩ := by
  obtain ⟨hat, h⟩ := Option.ite_none_right_eq_some.1 h
  exact ⟨hat, (Option.some.inj h).symm⟩

/-- The connection of a client is closed again, or there is one more. -/
theorem step_accept (h : s.step (.accept c) = some s') :
    ((s.stations c).cx = .dialing ∧ s.server.parsing = none) ∧ ∃ server, s.server.accept = some server ∧
      (server.accepted = s.server.accepted ∧ s' = s.setStation c ⟨(s.stations c).tracked, .refused⟩ ∨
        server.accepted ≠ s.server.accepted ∧ s' = { s.setStation c ⟨(s.stations c).tracked, .on s.links.length⟩ with
          links := s.links ++ [.new c (s.stations c).tracked.client]
          server }) := by
  obtain ⟨hat, h⟩ := Option.ite_none_right_eq_some.1 h
  obtain ⟨server, haccept, h⟩ := Option.map_eq_some_iff.1 h
  refine ⟨hat, server, haccept, ?_⟩
  split at h
  · exact .inl ⟨‹_›, h.symm⟩
  · exact .inr ⟨‹_›, h.symm⟩

theorem step_hangUp (h : s.step (.hangUp c) = some s') : ∃ t, s' = s.setStation c ⟨t, .none⟩ ∧
    (t = (s.stations c).tracked ∧ t.client.stage = .notConnected ∨ (s.stations c).tracked.step .lose = some t) := by
  obtain ⟨-, h⟩ := Option.ite_none_left_eq_some.1 h
  split at h
  · exact ⟨_, (Option.some.inj h).symm, .inl ⟨rfl, ‹_›⟩⟩
  · obtain ⟨t, ht, rfl⟩ := Option.map_eq_some_iff.1 h
    exact ⟨t, rfl, .inr ht⟩

theorem step_ready (h : s.step (.ready c) = some s') : ∃ k link t, (s.stations c).cx = .on k ∧ s.links[k]? = some link ∧
    link.replies.head? = some readyLine ∧ (s.stations c).tracked.step (.connect true) = some t ∧
    s' = { s.setStation c ⟨t, .on k⟩ with
      links := s.links.set k { link.sync t with replies := link.replies.tail } } := by
  simp only [step] at h
  split at h
  · rename_i k hcx
    split at h
    · cases h
    · rename_i link hl
      obtain ⟨hready, h⟩ := Option.ite_none_right_eq_some.1 h
      obtain ⟨t, ht, rfl⟩ := Option.map_eq_some_iff.1 h
      exact ⟨k, link, t, hcx, hl, hready, ht, rfl⟩
  · cases h

theorem step_replies {n : Nat} (h : s.step (.replies c n) = some s') : ∃ k link t, (s.stations c).cx = .on k ∧
    s.links[k]? = some link ∧ (s.stations c).tracked.step (.replies (link.replies.take n)) = some t ∧
    s' = { s.setStation c ⟨t, .on k⟩ with
      links := s.links.set k { link.sync t with replies := link.replies.drop n } } := by
  simp only [step] at h
  split at h
  · rename_i k hcx
    split at h
    · cases h
    · rename_i link hl
      obtain ⟨t, ht, rfl⟩ := Option.map_eq_some_iff.1 h
      exact ⟨k, link, t, hcx, hl, ht, rfl⟩
  · cases h

theorem step_client {a : Transport.Action} (h : s.step (.client c a) = some s') :
    Own a ∧ ∃ t, (s.stations c).tracked.step a = some t ∧ s' = s.goOn c t := by
  obtain ⟨hown, h⟩ := Option.ite_none_right_eq_some.1 h
  obtain ⟨t, ht, rfl⟩ := Option.map_eq_some_iff.1 h
  exact ⟨hown, t, ht, rfl⟩

theorem step_read {i n : Nat} (h : s.step (.read i n) = some s') : ∃ slot link data, s.server.cxTable[i]? = some slot ∧
    s.links[slot.connection]? = some link ∧ (slot.IsOpen ∧ s.server.parsing = none) ∧
    data = link.underWay.take (min n slot.cx.asked) ∧ s' = { s with
      server := s.server.update i slot s.server.stat (slot.cx.beginRead data).1
        ((slot.cx.beginRead data).2.map (i, ·, false))
      links := s.links.set slot.connection { link with arrived := link.arrived + data.length } } := by
  simp only [step] at h
  split at h
  · cases h
  · rename_i slot hslot
    split at h
    · cases h
    · rename_i link hl
      obtain ⟨hat, h⟩ := Option.ite_none_right_eq_some.1 h
      obtain rfl := Option.some.inj h
      refine ⟨slot, link, _, hslot, hl, hat, rfl, ?_⟩
      rw [TrServer.connectionRead, hslot]
      simp only [if_pos hat.1]

theorem step_parse {e : ServerEnv} (h : s.step (.parse e) = some s') : ∃ i text behind server,
    s.server.parsing = some (i, text, behind) ∧ s.server.parseTurn e = some server ∧ s' = { s with
      server
      links := match s.server.cxTable[i]? with
        | none      => s.links
        | some slot =>
            if ReadySent s.server server i then s.links.modify slot.connection (·.push readyLine) else s.links } := by
  simp only [step] at h
  split at h
  · cases h
  · rename_i i text behind hp
    obtain ⟨server, hturn, rfl⟩ := Option.map_eq_some_iff.1 h
    exact ⟨i, text, behind, server, hp, hturn, rfl⟩

theorem step_ackFile (h : s.step (.ackFile k) = some s') : ∃ g server, s.server.received[k]? = some g ∧
    s.server.ackFile g = some server ∧ s' = { s with server } := by
  simp only [step] at h
  split at h
  · cases h
  · rename_i g hg
    obtain ⟨server, hack, rfl⟩ := Option.map_eq_some_iff.1 h
    exact ⟨g, server, hg, hack, rfl⟩

theorem step_printStats (h : s.step .printStats = some s') :
    s.server.parsing = none ∧ s' = { s with server := s.server.printStats } := by
  obtain ⟨hat, h⟩ := Option.ite_none_right_eq_some.1 h
  exact ⟨hat, (Option.some.inj h).symm⟩

/-! ## What is promised -/

/-- The server's application has got this file from this client. -/
def GotBy (s : System) (c : Nat) (f : TrFile) : Prop :=
  ∃ g ∈ s.server.received, (∃ link, s.links[g.connection]? = some link ∧ link.client = c) ∧ g.file.contents = f.contents

/-- The files that enter a client's queue in a step. -/
def Adds (t : Tracked) (P : TrFile → Prop) : Transport.Action → Prop
  | .queueAddFile f => t.client.inputQueue.isFull = false → P { f with handle := t.client.allocated }
  | .select e       => ∀ f client, t.client.chooseFile e = some (.made f client) → P f
  | _               => True

/-- Files that enter a client's queue can be sent, and have increasing ids. -/
def AddsWell (s : System) : Action → Prop
  | .client c a => (s.stations c).tracked.AddsAbove a ∧ Adds (s.stations c).tracked (fun f => f.Sendable ∧ Fits f) a
  | _           => True

end System
end Transport
end Flp
