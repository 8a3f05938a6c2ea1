import FlpPrototype.InfoLoggerD.Framing
import FlpPrototype.Lib.Run
/-!
# Daemon — `InfoLoggerD::doLoop`, its clients and their sockets

A round of the loop reads from every client whose socket is readable, takes away those whose connection has ended, and
answers one connection request.  The connections share the loop and the descriptors, which the kernel gives out again
once they are closed.  In every run each connection's messages are those its own reads make, and each descriptor
`accept` gave is the socket of one client or was closed once (`doLoop_runs`).
-/
namespace Flp

/-- `t_clientConnection`. -/
structure ClientConnection where
  socket : Int
  buffer : Bytes
  /-- Which connection it is, in the order `accept` gave them; the code has no such number. -/
  number : Nat
  deriving DecidableEq

structure InfoLoggerD where
  rxMaxConnections : Int
  numberOfMessagesReceived : UInt64
  clients : List ClientConnection

namespace InfoLoggerD

/-- How many descriptors an `fd_set` has room for. -/
def FD_SETSIZE : Nat := 1024

/-- What a round finds: on a readable socket what `read` gives, no bytes being the end of the stream or an error; for a
connection request what `accept` gives, if it does not fail. -/
structure Found where
  read : Int → Option Bytes
  request : Option (Option Nat)

/-- The calls of a round: the messages for `TR_client_send_msg`, each with its connection, and the descriptors
closed. -/
structure Calls where
  sent : List (Nat × Bytes)
  closed : List Int

/-- The turn of a client in the loop: what becomes of it, and its messages. -/
def serveClient (found : Found) (client : ClientConnection) : ClientConnection × List Bytes :=
  match found.read client.socket with
  | none         => (client, [])
  | some []      => ({ client with socket := -1 }, [])
  | some newData =>
    let r := processRead ([], client.buffer) newData
    ({ client with buffer := r.2 }, r.1)

/-- The connection of a client has ended, and its socket is closed. -/
def ended (found : Found) (client : ClientConnection) : Bool := decide (found.read client.socket = some [])

/-- The loop over the clients, and the clean-up of the list behind it. -/
def checkClients (d : InfoLoggerD) (found : Found) : InfoLoggerD × Calls :=
  let sent := d.clients.flatMap fun c => (serveClient found c).2.map (c.number, ·)
  let closed := (d.clients.filter (ended found)).map ClientConnection.socket
  let clients := d.clients.map fun c => (serveClient found c).1
  ({ d with
    numberOfMessagesReceived := d.numberOfMessagesReceived + UInt64.ofNat sent.length
    clients := if closed.length = 0 then clients else clients.filter fun c => decide (c.socket ≠ -1) }, ⟨sent, closed⟩)

/-- A connection request is answered; with the maximum of clients the connection is closed. -/
def handleRequest (d : InfoLoggerD) (request : Option (Option Nat)) (number : Nat) : InfoLoggerD × List Int :=
  match request with
  | some (some tmpSocket) =>
    if d.rxMaxConnections ≤ d.clients.length ∧ 0 < d.rxMaxConnections then (d, [(tmpSocket : Int)])
    else ({ d with clients := d.clients ++ [⟨tmpSocket, [], number⟩] }, [])
  | some none             => (d, [])
  | none                  => (d, [])

/-- A round; `FD_SET` of a descriptor there is no room for has no defined result. -/
def doLoop (d : InfoLoggerD) (found : Found) (number : Nat) : Option (InfoLoggerD × Calls) :=
  if ∀ c ∈ d.clients, 0 ≤ c.socket ∧ c.socket < FD_SETSIZE then
    let checked := d.checkClients found
    let handled := checked.1.handleRequest found.request number
    some (handled.1, ⟨checked.2.sent, checked.2.closed ++ handled.2⟩)
  else none

/-! ## Runs -/

/-- The daemon with what its surroundings saw: the descriptors `accept` gave and those closed, what each connection's
reads gave, and the messages in order. -/
structure Served where
  d : InfoLoggerD
  granted : List Int
  closed : List Int
  reads : List (Nat × Bytes)
  sent : List (Nat × Bytes)

/-- What is in a list for a connection. -/
def on (n : Nat) (l : List (Nat × Bytes)) : List Bytes := (l.filter fun x => decide (x.1 = n)).map Prod.snd

/-- The bytes a client's socket gives in a round. -/
def reading (found : Found) (c : ClientConnection) : List Bytes :=
  ((found.read c.socket).filter fun newData => !newData.isEmpty).toList

def readings (found : Found) (clients : List ClientConnection) : List (Nat × Bytes) :=
  clients.flatMap fun c => (reading found c).map (c.number, ·)

/-- The descriptor `accept` gives in a round. -/
def Found.grants (found : Found) : List Int := (found.request.bind id).toList.map fun fd : Nat => (fd : Int)

namespace Served

def start (rxMaxConnections : Int) : Served := ⟨⟨rxMaxConnections, 0, []⟩, [], [], [], []⟩

def step (s : Served) (found : Found) : Option Served :=
  (s.d.doLoop found s.granted.length).map fun r => ⟨r.1, s.granted ++ found.grants, s.closed ++ r.2.closed,
    s.reads ++ readings found s.d.clients, s.sent ++ r.2.sent⟩

/-- The kernel gives a descriptor that is not open, and none above the limit of an `fd_set`. -/
def Rule (s : Served) (found : Found) : Prop :=
  ∀ fd ∈ found.grants, fd < FD_SETSIZE ∧ fd ∉ (s.d.checkClients found).1.clients.map ClientConnection.socket

instance (s : Served) (found : Found) : Decidable (Rule s found) := inferInstanceAs (Decidable (∀ fd ∈ found.grants, _))

/-- **What a daemon keeps.** -/
structure Kept (max : Int) (s : Served) : Prop where
  limit : s.d.rxMaxConnections = max
  sent : ∀ n, on n s.sent = (received (on n s.reads)).1
  buffers : ∀ c ∈ s.d.clients, c.buffer = (received (on c.number s.reads)).2
  counted : s.d.numberOfMessagesReceived = UInt64.ofNat s.sent.length
  bounded : 0 < max → s.d.clients.length ≤ max
  descriptors : s.granted.Perm (s.closed ++ s.d.clients.map ClientConnection.socket)
  sockets : (s.d.clients.map ClientConnection.socket).Nodup
  inRange : ∀ c ∈ s.d.clients, 0 ≤ c.socket ∧ c.socket < FD_SETSIZE
  numbers : (s.d.clients.map ClientConnection.number).Nodup
  accepted : ∀ c ∈ s.d.clients, c.number < s.granted.length
  unread : ∀ x ∈ s.reads, x.1 < s.granted.length

end Served

/-! ## The messages of a connection -/

theorem on_append (n : Nat) (l l' : List (Nat × Bytes)) : on n (l ++ l') = on n l ++ on n l' := by
  rw [on, List.filter_append, List.map_append]
  rfl

theorem on_map (n k : Nat) (l : List Bytes) : on n (l.map (k, ·)) = if k = n then l else [] := by
  unfold on
  split
  · rename_i h
    rw [List.filter_eq_self.2 (by simp [h]), List.map_map]
    exact List.map_id' l
  · rename_i h
    rw [List.filter_eq_nil_iff.2 (by simp [h])]
    rfl

theorem on_flatMap_none {clients : List ClientConnection} {n : Nat} (f : ClientConnection → List Bytes)
    (h : ∀ c ∈ clients, c.number ≠ n) : on n (clients.flatMap fun c => (f c).map (c.number, ·)) = [] := by
  induction clients with
  | nil => rfl
  | cons c cs ih =>
    rw [List.flatMap_cons, on_append, on_map, if_neg (h c List.mem_cons_self),
      ih fun c hc => h c (List.mem_cons_of_mem _ hc)]
    rfl

/-- A client's part of what a round makes. -/
theorem on_flatMap {clients : List ClientConnection} (f : ClientConnection → List Bytes)
    (h : (clients.map ClientConnection.number).Nodup) {c : ClientConnection} (hc : c ∈ clients) :
    on c.number (clients.flatMap fun c => (f c).map (c.number, ·)) = f c := by
  induction clients with
  | nil => cases hc
  | cons c' cs ih =>
    obtain ⟨hnot, hnodup⟩ := List.nodup_cons.1 h
    rw [List.flatMap_cons, on_append, on_map]
    rcases List.mem_cons.1 hc with rfl | hc
    · rw [if_pos rfl, on_flatMap_none f fun d hd e => hnot (by rw [← e]; exact List.mem_map_of_mem hd), List.append_nil]
    · rw [if_neg fun e => hnot (by rw [e]; exact List.mem_map_of_mem hc), ih hnodup hc, List.nil_append]

theorem pushStep_after (newData : Bytes) (before : List Bytes) (s : Pushing) (i : Nat) :
    pushStep newData ⟨s.ix, s.buffer, before ++ s.sent⟩ i =
      ⟨(pushStep newData s i).ix, (pushStep newData s i).buffer, before ++ (pushStep newData s i).sent⟩ := by
  unfold pushStep
  simp only
  by_cases hline : newData[i]? = some newline
  · simp only [hline, if_true]
    split
    · rfl
    · rw [List.append_assoc]
  · simp only [hline, if_false]
    split <;> rfl

/-- What was sent before a read stays in front of its messages. -/
theorem processRead_after (before : List Bytes) (buffer newData : Bytes) : processRead (before, buffer) newData =
    (before ++ (processRead ([], buffer) newData).1, (processRead ([], buffer) newData).2) := by
  have loop : ∀ (is : List Nat) (s : Pushing), is.foldl (pushStep newData) ⟨s.ix, s.buffer, before ++ s.sent⟩ =
      ⟨(is.foldl (pushStep newData) s).ix, (is.foldl (pushStep newData) s).buffer,
        before ++ (is.foldl (pushStep newData) s).sent⟩ := by
    intro is
    induction is with
    | nil => exact fun _ => rfl
    | cons i is ih => exact fun s => by rw [List.foldl_cons, pushStep_after, ih, List.foldl_cons]
  have h := loop (List.range newData.length) ⟨0, buffer, []⟩
  rw [List.append_nil] at h
  unfold processRead
  simp only [h]

theorem received_append (chunks chunks' : List Bytes) :
    received (chunks ++ chunks') = chunks'.foldl processRead (received chunks) := List.foldl_append

/-! ## The loop over the clients -/

/-- **A client's turn**: its messages and its buffer are those of its reads. -/
theorem serveClient_received (found : Found) (c : ClientConnection) (chunks : List Bytes)
    (h : c.buffer = (received chunks).2) :
    (received (chunks ++ reading found c)).1 = (received chunks).1 ++ (serveClient found c).2 ∧
      (serveClient found c).1.buffer = (received (chunks ++ reading found c)).2 := by
  rw [received_append]
  unfold serveClient reading
  cases found.read c.socket with
  | none => exact ⟨(List.append_nil _).symm, h⟩
  | some newData =>
    cases newData with
    | nil => exact ⟨(List.append_nil _).symm, h⟩
    | cons b bs =>
      have hread := processRead_after (received chunks).1 c.buffer (b :: bs)
      rw [h] at hread
      simp only [List.isEmpty_cons, Bool.not_false, Option.filter_some_pos, Option.toList_some, List.foldl_cons,
        List.foldl_nil, h]
      exact ⟨congrArg Prod.fst hread, (congrArg Prod.snd hread).symm⟩

theorem serveClient_number (found : Found) (c : ClientConnection) : (serveClient found c).1.number = c.number := by
  unfold serveClient
  split <;> rfl

/-- A client keeps its socket while its connection has not ended. -/
theorem serveClient_socket (found : Found) (c : ClientConnection) :
    (serveClient found c).1.socket = if ended found c then -1 else c.socket := by
  unfold serveClient ended
  cases hread : found.read c.socket with
  | none => rfl
  | some newData => cases newData <;> rfl

/-- The clients left, in their order: those whose connection has not ended. -/
theorem checkClients_clients {d : InfoLoggerD} (found : Found) (h : ∀ c ∈ d.clients, 0 ≤ c.socket) :
    (d.checkClients found).1.clients = (d.clients.filter fun c => !ended found c).map fun c =>
      (serveClient found c).1 := by
  have hkept : ∀ c ∈ d.clients, decide ((serveClient found c).1.socket ≠ -1) = !ended found c := fun c hc => by
    have := h c hc
    rw [serveClient_socket]
    cases ended found c with
    | true => rfl
    | false => exact decide_eq_true (show c.socket ≠ -1 by omega)
  have hfilter : (d.clients.map fun c => (serveClient found c).1).filter (fun c => decide (c.socket ≠ -1)) =
      (d.clients.filter fun c => !ended found c).map fun c => (serveClient found c).1 := by
    rw [List.filter_map]
    exact congrArg _ (List.filter_congr hkept)
  unfold checkClients
  simp only [List.length_map, List.length_eq_zero_iff]
  split
  · rename_i hnone
    rw [List.filter_eq_self.2 fun c hc => by
      rw [Bool.not_eq_true']
      exact Bool.eq_false_iff.2 (List.filter_eq_nil_iff.1 hnone c hc)]
  · exact hfilter

namespace Served

variable {s s' : Served} {max : Int}

/-- A round up to the clean-up. -/
def check (s : Served) (found : Found) : Served :=
  ⟨(s.d.checkClients found).1, s.granted, s.closed ++ (s.d.checkClients found).2.closed,
    s.reads ++ readings found s.d.clients, s.sent ++ (s.d.checkClients found).2.sent⟩

/-- The rest of the round. -/
def answer (s : Served) (found : Found) : Served :=
  ⟨(s.d.handleRequest found.request s.granted.length).1, s.granted ++ found.grants,
    s.closed ++ (s.d.handleRequest found.request s.granted.length).2, s.reads, s.sent⟩

theorem step_eq (found : Found) (h : ∀ c ∈ s.d.clients, 0 ≤ c.socket ∧ c.socket < FD_SETSIZE) :
    s.step found = some ((s.check found).answer found) := by
  unfold step doLoop
  rw [if_pos h]
  simp only [Option.map_some, answer, check, List.append_assoc]

theorem Kept.checked (h : Kept max s) (found : Found) : Kept max (s.check found) := by
  have hclients := checkClients_clients found fun c hc => (h.inRange c hc).1
  have hleft : ∀ {c}, c ∈ (s.d.checkClients found).1.clients → ∃ c' ∈ s.d.clients, ended found c' = false ∧
      c = (serveClient found c').1 := fun hc => by
    rw [hclients] at hc
    obtain ⟨c', hc', rfl⟩ := List.mem_map.1 hc
    obtain ⟨hc', hended⟩ := List.mem_filter.1 hc'
    exact ⟨c', hc', by simpa using hended, rfl⟩
  have hsockets : (s.d.checkClients found).1.clients.map ClientConnection.socket =
      (s.d.clients.filter fun c => !ended found c).map ClientConnection.socket := by
    rw [hclients, List.map_map]
    refine List.map_congr_left fun c hc => ?_
    rw [Function.comp, serveClient_socket, if_neg (by simpa using (List.mem_filter.1 hc).2)]
  have hnumbers : (s.d.checkClients found).1.clients.map ClientConnection.number =
      (s.d.clients.filter fun c => !ended found c).map ClientConnection.number := by
    rw [hclients, List.map_map]
    exact List.map_congr_left fun c _ => serveClient_number found c
  have hsub : (s.d.clients.filter fun c => !ended found c).Sublist s.d.clients := List.filter_sublist
  have hreads : ∀ c ∈ s.d.clients, on c.number (s.check found).reads = on c.number s.reads ++ reading found c :=
    fun c hc => by rw [check, on_append, readings, on_flatMap _ h.numbers hc]
  refine ⟨h.limit, fun n => ?_, fun c hc => ?_, ?_, fun hmax => ?_, ?_, ?_, fun c hc => ?_, ?_, fun c hc => ?_,
    fun x hx => ?_⟩
  · by_cases hn : ∃ c ∈ s.d.clients, c.number = n
    · obtain ⟨c, hc, rfl⟩ := hn
      have hsent : on c.number (s.check found).sent = on c.number s.sent ++ (serveClient found c).2 := by
        rw [check, on_append, checkClients, on_flatMap _ h.numbers hc]
      rw [hsent, hreads c hc, (serveClient_received found c _ (h.buffers c hc)).1, h.sent]
    · have hnone : ∀ c ∈ s.d.clients, c.number ≠ n := fun c hc e => hn ⟨c, hc, e⟩
      rw [check, on_append, on_append, readings, checkClients, on_flatMap_none _ hnone, on_flatMap_none _ hnone,
        List.append_nil, List.append_nil, h.sent]
  · obtain ⟨c', hc', -, rfl⟩ := hleft hc
    rw [serveClient_number, hreads c' hc']
    exact (serveClient_received found c' _ (h.buffers c' hc')).2
  · show s.d.numberOfMessagesReceived + _ = _
    rw [h.counted, check, List.length_append, UInt64.ofNat_add]
    rfl
  · have := h.bounded hmax
    have hle : (s.d.checkClients found).1.clients.length ≤ s.d.clients.length := by
      rw [hclients, List.length_map]
      exact hsub.length_le
    exact Int.le_trans (Int.ofNat_le.2 hle) this
  · -- what is closed and what is left are the sockets there were
    show s.granted.Perm (s.closed ++ _ ++ (s.d.checkClients found).1.clients.map ClientConnection.socket)
    rw [hsockets, List.append_assoc]
    refine h.descriptors.trans (List.Perm.append_left _ ?_)
    have hparts := (List.filter_append_perm (ended found) s.d.clients).symm.map ClientConnection.socket
    rw [List.map_append] at hparts
    exact hparts
  · show ((s.d.checkClients found).1.clients.map ClientConnection.socket).Nodup
    rw [hsockets]
    exact (hsub.map _).nodup h.sockets
  · obtain ⟨c', hc', hended, rfl⟩ := hleft hc
    rw [serveClient_socket, if_neg (by simp [hended])]
    exact h.inRange c' hc'
  · show ((s.d.checkClients found).1.clients.map ClientConnection.number).Nodup
    rw [hnumbers]
    exact (hsub.map _).nodup h.numbers
  · obtain ⟨c', hc', -, rfl⟩ := hleft hc
    rw [serveClient_number]
    exact h.accepted c' hc'
  · rcases List.mem_append.1 hx with hx | hx
    · exact h.unread x hx
    · obtain ⟨c, hc, hx⟩ := List.mem_flatMap.1 hx
      obtain ⟨b, -, rfl⟩ := List.mem_map.1 hx
      exact h.accepted c hc

theorem Kept.answered (h : Kept max s) {found : Found}
    (hrule : ∀ fd ∈ found.grants, fd < FD_SETSIZE ∧ fd ∉ s.d.clients.map ClientConnection.socket) :
    Kept max (s.answer found) := by
  have hlater : ∀ k, k < s.granted.length → k < (s.answer found).granted.length := fun k hk => by
    rw [answer, List.length_append]
    omega
  obtain ⟨read, request⟩ := found
  rcases request with - | - | fd
  · exact ⟨h.limit, h.sent, h.buffers, h.counted, h.bounded,
      by simpa [answer, Found.grants, handleRequest] using h.descriptors,
      h.sockets, h.inRange, h.numbers, fun c hc => hlater _ (h.accepted c hc), fun x hx => hlater _ (h.unread x hx)⟩
  · exact ⟨h.limit, h.sent, h.buffers, h.counted, h.bounded,
      by simpa [answer, Found.grants, handleRequest] using h.descriptors,
      h.sockets, h.inRange, h.numbers, fun c hc => hlater _ (h.accepted c hc), fun x hx => hlater _ (h.unread x hx)⟩
  · obtain ⟨hsize, hnew⟩ := hrule fd (List.mem_singleton_self _)
    by_cases hfull : s.d.rxMaxConnections ≤ s.d.clients.length ∧ 0 < s.d.rxMaxConnections
    · have heq : s.answer ⟨read, some (some fd)⟩ =
        ⟨s.d, s.granted ++ [(fd : Int)], s.closed ++ [(fd : Int)], s.reads, s.sent⟩ := by
        unfold answer handleRequest
        simp only [if_pos hfull]
        rfl
      rw [heq] at hlater ⊢
      refine ⟨h.limit, h.sent, h.buffers, h.counted, h.bounded, ?_, h.sockets, h.inRange, h.numbers,
        fun c hc => hlater _ (h.accepted c hc), fun x hx => hlater _ (h.unread x hx)⟩
      show (s.granted ++ [(fd : Int)]).Perm (s.closed ++ [(fd : Int)] ++ s.d.clients.map ClientConnection.socket)
      rw [List.append_assoc]
      exact (h.descriptors.append_right _).trans (by
        rw [List.append_assoc]
        exact List.perm_append_comm.append_left _)
    · have heq : s.answer ⟨read, some (some fd)⟩ = ⟨{ s.d with clients := s.d.clients ++ [⟨fd, [], s.granted.length⟩] },
          s.granted ++ [(fd : Int)], s.closed, s.reads, s.sent⟩ := by
        unfold answer handleRequest
        simp only [if_neg hfull, List.append_nil]
        rfl
      rw [heq] at hlater ⊢
      -- nothing was read from the new connection
      have hunread : on s.granted.length s.reads = [] := by
        rw [on, List.filter_eq_nil_iff.2 fun x hx => by simpa using Nat.ne_of_lt (h.unread x hx)]
        rfl
      refine ⟨h.limit, h.sent, fun c hc => ?_, h.counted, fun hmax => ?_, ?_, ?_, fun c hc => ?_, ?_, fun c hc => ?_,
        fun x hx => hlater _ (h.unread x hx)⟩
      · rcases List.mem_append.1 hc with hc | hc
        · exact h.buffers c hc
        · rw [List.mem_singleton.1 hc]
          show [] = (received (on s.granted.length s.reads)).2
          rw [hunread]
          rfl
      · have hlimit := h.limit
        simp only [List.length_append, List.length_singleton]
        omega
      · show (s.granted ++ [(fd : Int)]).Perm (s.closed ++ (s.d.clients ++ [_]).map ClientConnection.socket)
        rw [List.map_append, ← List.append_assoc]
        exact h.descriptors.append_right _
      · show ((s.d.clients ++ [_]).map ClientConnection.socket).Nodup
        rw [List.map_append]
        refine List.nodup_append.2 ⟨h.sockets, by simp, fun x hx y hy e => hnew ?_⟩
        have hy : y = (fd : Int) := List.mem_singleton.1 hy
        rw [← hy, ← e]
        exact hx
      · rcases List.mem_append.1 hc with hc | hc
        · exact h.inRange c hc
        · rw [List.mem_singleton.1 hc]
          exact ⟨Int.natCast_nonneg fd, hsize⟩
      · show ((s.d.clients ++ [_]).map ClientConnection.number).Nodup
        rw [List.map_append]
        refine List.nodup_append.2 ⟨h.numbers, by simp, fun x hx y hy e => ?_⟩
        obtain ⟨c, hc, rfl⟩ := List.mem_map.1 hx
        exact Nat.ne_of_lt (h.accepted c hc) (e.trans (List.mem_singleton.1 hy))
      · rcases List.mem_append.1 hc with hc | hc
        · exact hlater _ (h.accepted c hc)
        · rw [List.mem_singleton.1 hc]
          simp

/-- **A round** has a result, and keeps what the daemon keeps. -/
theorem kept_step (s : Served) (found : Found) (h : Kept max s) (hrule : s.Rule found) :
    ∃ s', s.step found = some s' ∧ Kept max s' :=
  ⟨_, step_eq found h.inRange, (h.checked found).answered hrule⟩

theorem kept_start (max : Int) : Kept max (start max) where
  limit := rfl
  sent := fun _ => rfl
  buffers := fun _ hc => absurd hc List.not_mem_nil
  counted := rfl
  bounded := fun hmax => Int.le_of_lt hmax
  descriptors := List.Perm.refl _
  sockets := List.nodup_nil
  inRange := fun _ hc => absurd hc List.not_mem_nil
  numbers := List.nodup_nil
  accepted := fun _ hc => absurd hc List.not_mem_nil
  unread := fun _ hx => absurd hx List.not_mem_nil

/-- **The rounds of a daemon**: whatever its clients do, as long as the descriptors fit an `fd_set`, every round has a
result, each connection's messages are those its own reads make, and every descriptor is closed once or the socket of
one client. -/
theorem doLoop_runs (max : Int) (rounds : List Found) (hl : Legal step Rule (start max) rounds) :
    ∃ s, run step (start max) rounds = some s ∧ Kept max s :=
  run_inv (fun s found h hok => kept_step s found h hok) rounds _ (kept_start max) hl

/-- The messages of a connection are its non-empty lines when its reads are cut well. -/
theorem Kept.lines (h : Kept max s) {n : Nat} (hnul : ∀ l ∈ (frame (on n s.reads).flatten).1, 0 ∉ l)
    (hcut : AllCutWell [] (on n s.reads)) : on n s.sent = (frame (on n s.reads).flatten).1 := by
  rw [h.sent, (received_iff _ hnul).2 hcut]

/-! ## Two clients on one descriptor -/

/-- A client sends half a line and leaves; the next gets its descriptor and sends a line, while a third is turned
away. -/
def twoClients : List Found :=
  [⟨fun _ => none, some (some 5)⟩, ⟨fun _ => some [65], none⟩, ⟨fun _ => some [], some (some 5)⟩,
    ⟨fun _ => some [66, newline], some (some 6)⟩]

theorem doLoop_runs_twoClients : ∃ s, run step (start 1) twoClients = some s ∧ Kept 1 s ∧ s.sent = [(1, [66])] ∧
    s.closed = [5, 6] := by
  have hruns :
      (run step (start 1) twoClients).any (fun s => decide (s.sent = [(1, [66])] ∧ s.closed = [5, 6])) = true := by
    decide +kernel
  have hlegal : Legal step Rule (start 1) twoClients := by decide +kernel
  obtain ⟨s, hr, hkept⟩ := doLoop_runs 1 twoClients hlegal
  rw [hr] at hruns
  exact ⟨s, hr, hkept, of_decide_eq_true hruns⟩

end Served
end InfoLoggerD
end Flp
