import FlpPrototype.Message.RoundTrip
import FlpPrototype.Lib.Run
import Mathlib.Logic.Function.Basic
/-!
# DispatchBrowser — the messages for the online browsers

`InfoLoggerDispatchOnlineBrowser` keeps the sockets of the browsers in a table, `-1` (here `none`) for a free slot.
`customLoop` reads what they send, closes the ones that ended and accepts one new connection; `customMessageProcess`
writes the record of each message to all of them.  Calls have the results the surroundings choose; an access outside an
array and a call on a socket that is not open have no result here.  Each open socket has one slot and was sent the
records of all messages since it was accepted, as long as no array is left (`serves_iff`).
-/
namespace Flp
namespace DispatchBrowser

open Message

def fdSetSize : Nat := 1024
def dispatchBufferSize : Nat := 200
def maxMsgLength : Nat := 32768

/-- A connection: what was written to it, and how many messages had been dispatched when it was accepted. -/
structure Conn where
  sent : Bytes
  since : Nat

/-- A message of one of the protocols there are. -/
abbrev KnownMsg (D : Type) := { m : Msg D // m.protocol ∈ protocols }

/-- The table of clients, the open sockets by number, the connections closed, and the messages that were encoded. -/
structure State (D : Type) where
  clients : List (Option Nat)
  socket : Nat → Option Conn
  closed : List Conn
  dispatched : List (KnownMsg D)

variable {D : Type}

def start (maxClientsTx : Nat) : State D := ⟨List.replicate maxClientsTx none, fun _ => none, [], []⟩

/-! ## The calls -/

/-- `FD_SET`: a bit of an array of `FD_SETSIZE` bits. -/
def fdSet (fd : Nat) (s : State D) : Option (State D) := if fd < fdSetSize then some s else none

def closeSocket (fd : Nat) (s : State D) : Option (State D) := (s.socket fd).map fun c =>
  { s with socket := Function.update s.socket fd none, closed := s.closed ++ [c] }

def writeSocket (fd : Nat) (bytes : Bytes) (s : State D) : Option (State D) := (s.socket fd).map fun c =>
  { s with socket := Function.update s.socket fd (some { c with sent := c.sent ++ bytes }) }

/-- The socket of a slot is closed and the slot freed. -/
def closeClient (i fd : Nat) (s : State D) : Option (State D) := (closeSocket fd s).map fun s =>
  { s with clients := s.clients.set i none }

/-- One turn of a loop over the slots: nothing is done for a free one. -/
def atSlot (f : Nat → Nat → State D → Option (State D)) (s : State D) (i : Nat) : Option (State D) :=
  match s.clients[i]? with
  | none           => none
  | some none      => some s
  | some (some fd) => f i fd s

/-- `for(i=0;i<maxClientsTx;i++)`. -/
def forClients (maxClientsTx : Nat) (f : Nat → Nat → State D → Option (State D)) (s : State D) : Option (State D) :=
  (List.range maxClientsTx).foldlM (atSlot f) s

/-! ## Connections -/

/-- The results in a `customLoop`: of `select` and for which sockets, of the reads (the bytes the client of a slot has
sent, or an error), of `accept` and of the two calls of `fcntl`. -/
structure Looping where
  select : Int
  ready : Nat → Bool
  read : Nat → Option Nat
  accept : Option Nat
  getfl : Bool
  setfl : Bool

/-- A client that is ready is read: the byte behind the input is set to 0. -/
def readClient (r : Looping) (i fd : Nat) (s : State D) : Option (State D) :=
  if !r.ready fd then some s
  else (s.socket fd).bind fun _ =>
    match r.read i with
    | none           => closeClient i fd s
    | some available =>
      let result := min available dispatchBufferSize
      if result = 0 then closeClient i fd s
      else if result < dispatchBufferSize then some s
      else none

/-- The new connection gets the first free slot, or is closed.  `accept` gives a number that is not in use. -/
def acceptClient (listenSock : Nat) (r : Looping) (s : State D) : Option (State D) :=
  match r.accept.filter fun fd => fd ≠ listenSock ∧ s.socket fd = none with
  | none    => some s
  | some fd =>
    let s := { s with socket := Function.update s.socket fd (some ⟨[], s.dispatched.length⟩) }
    match s.clients.findIdx? Option.isNone with
    | none   => closeSocket fd s
    | some i =>
      if !r.getfl then closeSocket fd s
      else if !r.setfl then closeSocket fd s
      else some { s with clients := s.clients.set i (some fd) }

def customLoop (maxClientsTx listenSock : Nat) (r : Looping) (s : State D) : Option (State D) :=
  (fdSet listenSock s).bind fun s =>
  (forClients maxClientsTx (fun _ fd => fdSet fd) s).bind fun s =>
    if 0 < r.select then
      (forClients maxClientsTx (readClient r) s).bind fun s =>
        if r.ready listenSock then acceptClient listenSock r s else some s
    else some s

/-! ## Messages -/

/-- The results for the message and the slot given: of `select`, and how many bytes the socket takes, or an error. -/
structure Writing where
  select : Nat → Nat → Int
  write : Nat → Nat → Option Nat

/-- A record is written to a client, which is closed if it does not take all of it. -/
def sendTo (r : Writing) (k : Nat) (onlineMsg : Bytes) (i fd : Nat) (s : State D) : Option (State D) :=
  (fdSet fd s).bind fun s =>
    if r.select k i ≤ 0 then closeClient i fd s
    else
      match r.write k i with
      | none       => (s.socket fd).bind fun _ => closeClient i fd s
      | some taken =>
        let result := min taken onlineMsg.length
        (writeSocket fd (onlineMsg.take result) s).bind fun s =>
          if result = onlineMsg.length then some s else closeClient i fd s

variable (dt : DoubleText D)

/-- `infoLog_msg_encode(lmsg, onlineMsg, MAX_MSG_LENGTH, -1)`. -/
def encodeMsg (m : KnownMsg D) : Option (Int × Bytes) := infoLogMsgEncode dt m.1 [] maxMsgLength (-1)

/-- The loop over the messages, from message `k` of the list on. -/
def processMessages (maxClientsTx : Nat) (r : Writing) : Nat → List (KnownMsg D) → State D → Option (State D)
  | _, [], s      => some s
  | k, m :: ms, s => (encodeMsg dt m).bind fun (status, onlineMsg) =>
    if status = 0 then
      (forClients maxClientsTx (sendTo r k onlineMsg) { s with dispatched := s.dispatched ++ [m] }).bind
        (processMessages maxClientsTx r (k + 1) ms)
    else processMessages maxClientsTx r (k + 1) ms s

/-- What the thread calls. -/
inductive Step (D : Type) where
  | customLoop (r : Looping)
  | customMessageProcess (lmsg : List (KnownMsg D)) (r : Writing)

def step (maxClientsTx listenSock : Nat) (s : State D) : Step D → Option (State D)
  | .customLoop r                => customLoop maxClientsTx listenSock r s
  | .customMessageProcess lmsg r => processMessages dt maxClientsTx r 0 lmsg s

/-! ## What is asked of the surroundings -/

/-- The sockets in the table have bits in an `fd_set`. -/
def SmallSockets (s : State D) : Prop := ∀ fd, some fd ∈ s.clients → fd < fdSetSize

/-- No access leaves its array: sockets that are put in an `fd_set` have a bit there, and what is read leaves a byte of
the buffer free; and the records have lengths that fit an `int`. -/
def InBounds (listenSock : Nat) (s : State D) : Step D → Prop
  | .customLoop r =>
    listenSock < fdSetSize ∧ SmallSockets s ∧
      (0 < r.select → ∀ i fd available, s.clients[i]? = some (some fd) → r.ready fd = true →
        r.read i = some available → available < dispatchBufferSize)
  | .customMessageProcess lmsg _ =>
    (∀ m ∈ lmsg, ∃ result, encodeMsg dt m = some result) ∧
      ((∃ m ∈ lmsg, ∃ onlineMsg, encodeMsg dt m = some (0, onlineMsg)) → SmallSockets s)

/-- The record of a message, whole. -/
def wholeRecord (m : KnownMsg D) : Bytes :=
  recordText dt m.1.protocol.version (lineValues (-1) none 0 m.1.values) ++ [newline]

/-- What a connection is to be sent: the records of the messages since it was accepted. -/
def owedTo (s : State D) (c : Conn) : Bytes := (s.dispatched.drop c.since).flatMap (wholeRecord dt)

/-- What holds between the calls: the slots have sockets that are open, an open socket has one slot, and was sent the
records of the messages since it was accepted; one that was closed was sent a beginning of that. -/
structure Serves (s : State D) : Prop where
  slots : ∀ fd, some fd ∈ s.clients → ∃ c, s.socket fd = some c
  one : ∀ fd c, s.socket fd = some c → ∃ i : Nat, ∀ j : Nat, s.clients[j]? = some (some fd) ↔ j = i
  sent : ∀ fd c, s.socket fd = some c → c.sent = owedTo dt s c
  closed : ∀ c ∈ s.closed, c.sent <+: owedTo dt s c

/-! ## The table and the sockets -/

/-- The invariant inside the loops: `todo i` is what the client of slot `i` still has to be sent. -/
structure Inv (n : Nat) (todo : Nat → Bytes) (s : State D) : Prop where
  length : s.clients.length = n
  held : ∀ (i fd : Nat), s.clients[i]? = some (some fd) → ∃ c, s.socket fd = some c ∧ c.sent ++ todo i = owedTo dt s c
  once : ∀ (i j fd : Nat), s.clients[i]? = some (some fd) → s.clients[j]? = some (some fd) → i = j
  slot : ∀ fd c, s.socket fd = some c → c.since ≤ s.dispatched.length ∧ ∃ i : Nat, s.clients[i]? = some (some fd)
  closed : ∀ c ∈ s.closed, c.since ≤ s.dispatched.length ∧ c.sent <+: owedTo dt s c

variable {dt} {n : Nat} {todo todo' : Nat → Bytes} {s s' : State D} {i fd : Nat}

theorem inv_start : Inv dt n (fun _ => []) (start n : State D) where
  length := List.length_replicate
  held := fun i fd h => by
    rw [start, List.getElem?_replicate] at h
    split at h <;> cases h
  once := fun i j fd h _ => by
    rw [start, List.getElem?_replicate] at h
    split at h <;> cases h
  slot := nofun
  closed := nofun

/-- What is left to send matters for the slots that are taken only. -/
theorem Inv.congr (hi : Inv dt n todo s) (h : ∀ i fd, s.clients[i]? = some (some fd) → todo' i = todo i) :
    Inv dt n todo' s :=
  { hi with held := fun i fd hfd => by rw [h i fd hfd]; exact hi.held i fd hfd }

theorem Inv.closeClient (hi : Inv dt n todo s) (h : s.clients[i]? = some (some fd)) (todo' : Nat → Bytes)
    (htodo : ∀ j, j ≠ i → todo' j = todo j) :
    ∃ s', closeClient i fd s = some s' ∧ Inv dt n todo' s' ∧ s'.clients = s.clients.set i none ∧
      s'.dispatched = s.dispatched := by
  obtain ⟨c, hc, hsent⟩ := hi.held i fd h
  refine ⟨_, Option.map_eq_some_iff.2 ⟨_, Option.map_eq_some_iff.2 ⟨c, hc, rfl⟩, rfl⟩, ?_, rfl, rfl⟩
  have hlt : i < s.clients.length := (List.getElem?_eq_some_iff.1 h).1
  have hother : ∀ {j fd'}, (s.clients.set i none)[j]? = some (some fd') → j ≠ i ∧ s.clients[j]? = some (some fd') := by
    intro j fd' hj
    by_cases hij : i = j
    · rw [← hij, List.getElem?_set_self hlt] at hj
      cases hj
    · rw [List.getElem?_set_ne hij] at hj
      exact ⟨Ne.symm hij, hj⟩
  have hne : ∀ {j fd'}, j ≠ i → s.clients[j]? = some (some fd') → fd' ≠ fd := fun hji hj he =>
    hji (hi.once _ _ _ (he ▸ hj) h)
  exact {
    length := List.length_set.trans hi.length
    held := fun j fd' hj => by
      obtain ⟨hji, hj⟩ := hother hj
      obtain ⟨c', hc', hsent'⟩ := hi.held j fd' hj
      exact ⟨c', (Function.update_of_ne (hne hji hj) _ _).trans hc', by rw [htodo j hji]; exact hsent'⟩
    once := fun j k fd' hj hk => hi.once j k fd' (hother hj).2 (hother hk).2
    slot := fun fd' c' (hc' : Function.update s.socket fd none fd' = some c') => by
      by_cases hfd : fd' = fd
      · rw [hfd, Function.update_self] at hc'
        cases hc'
      · rw [Function.update_of_ne hfd] at hc'
        obtain ⟨hsince, j, hj⟩ := hi.slot fd' c' hc'
        refine ⟨hsince, j, ?_⟩
        have hij : i ≠ j := by
          rintro rfl
          rw [h] at hj
          exact hfd (Option.some.inj (Option.some.inj hj)).symm
        exact (List.getElem?_set_ne hij).trans hj
    closed := fun c' hc' => by
      rcases List.mem_append.1 hc' with hc' | hc'
      · exact hi.closed c' hc'
      · rw [List.mem_singleton.1 hc']
        exact ⟨(hi.slot fd c hc).1, ⟨todo i, hsent⟩⟩ }

theorem Inv.writeSocket (hi : Inv dt n todo s) (h : s.clients[i]? = some (some fd)) {bytes rest : Bytes}
    (htodo : todo i = bytes ++ rest) :
    ∃ s', writeSocket fd bytes s = some s' ∧ Inv dt n (Function.update todo i rest) s' ∧ s'.clients = s.clients ∧
      s'.dispatched = s.dispatched := by
  obtain ⟨c, hc, hsent⟩ := hi.held i fd h
  refine ⟨_, Option.map_eq_some_iff.2 ⟨c, hc, rfl⟩, ?_, rfl, rfl⟩
  exact {
    length := hi.length
    held := fun j fd' hj => by
      by_cases hji : j = i
      · rw [hji, h] at hj
        obtain rfl := Option.some.inj (Option.some.inj hj)
        refine ⟨_, Function.update_self .., ?_⟩
        rw [hji, Function.update_self, List.append_assoc, ← htodo]
        exact hsent
      · obtain ⟨c', hc', hsent'⟩ := hi.held j fd' hj
        have hfd : fd' ≠ fd := fun he => hji (hi.once _ _ _ (he ▸ hj) h)
        exact ⟨c', (Function.update_of_ne hfd _ _).trans hc', by rw [Function.update_of_ne hji]; exact hsent'⟩
    once := hi.once
    slot := fun fd' c' (hc' : Function.update s.socket fd _ fd' = some c') => by
      by_cases hfd : fd' = fd
      · rw [hfd, Function.update_self] at hc'
        obtain rfl := Option.some.inj hc'
        exact ⟨(hi.slot fd c hc).1, i, hfd ▸ h⟩
      · rw [Function.update_of_ne hfd] at hc'
        exact hi.slot fd' c' hc'
    closed := hi.closed }

/-! ## The loops over the slots -/

/-- **A loop over the slots**, `J is` being what holds when the slots `is` are left: it has a result exactly when each
turn has one. -/
theorem foldlM_atSlot (f : Nat → Nat → State D → Option (State D)) (ok : Nat → Nat → Prop)
    (J : List Nat → State D → Prop)
    (htaken : ∀ {i is s fd}, J (i :: is) s → s.clients[i]? = some (some fd) →
      (ok i fd → ∃ s', f i fd s = some s' ∧ J is s' ∧ ∀ j, j ≠ i → s'.clients[j]? = s.clients[j]?) ∧
      (¬ ok i fd → f i fd s = none))
    (hfree : ∀ {i is s}, J (i :: is) s → s.clients[i]? = some none → J is s)
    (hlt : ∀ {i is s}, J (i :: is) s → i ∉ is ∧ i < s.clients.length) : ∀ (is : List Nat) (s : State D), J is s →
    ((∀ i ∈ is, ∀ fd, s.clients[i]? = some (some fd) → ok i fd) → ∃ s', is.foldlM (atSlot f) s = some s' ∧ J [] s') ∧
      ((∃ s', is.foldlM (atSlot f) s = some s') → ∀ i ∈ is, ∀ fd, s.clients[i]? = some (some fd) → ok i fd)
  | [], s, hJ => ⟨fun _ => ⟨s, rfl, hJ⟩, fun _ _ h => by cases h⟩
  | i :: is, s, hJ => by
    obtain ⟨hnot, hi⟩ := hlt hJ
    have hcons : (i :: is).foldlM (atSlot f) s = (atSlot f s i).bind fun s => is.foldlM (atSlot f) s := rfl
    rw [hcons]
    cases hslot : s.clients[i]? with
    | none => exact absurd hi (Nat.not_lt.2 (List.getElem?_eq_none_iff.1 hslot))
    | some slot =>
      cases slot with
      | none =>
        have hstay : atSlot f s i = some s := by rw [atSlot, hslot]
        rw [hstay, Option.bind_some]
        obtain ⟨hgo, hback⟩ := foldlM_atSlot f ok J htaken hfree hlt is s (hfree hJ hslot)
        refine ⟨fun hok => hgo fun j hj => hok j (List.mem_cons_of_mem i hj), fun hs' j hj fd hfd => ?_⟩
        rcases List.mem_cons.1 hj with rfl | hj
        · rw [hslot] at hfd
          cases hfd
        · exact hback hs' j hj fd hfd
      | some fd =>
        have hturn : atSlot f s i = f i fd s := by rw [atSlot, hslot]
        obtain ⟨hok, hbad⟩ := htaken hJ hslot
        rw [hturn]
        by_cases h : ok i fd
        · obtain ⟨s₁, h₁, hJ₁, hothers⟩ := hok h
          rw [h₁, Option.bind_some]
          obtain ⟨hgo, hback⟩ := foldlM_atSlot f ok J htaken hfree hlt is s₁ hJ₁
          have hsame : ∀ {j}, j ∈ is → s₁.clients[j]? = s.clients[j]? := fun hj =>
            hothers _ fun he => hnot (he ▸ hj)
          refine ⟨fun hall => hgo fun j hj fd' hfd' => ?_, fun hs' j hj fd' hfd' => ?_⟩
          · rw [hsame hj] at hfd'
            exact hall j (List.mem_cons_of_mem i hj) fd' hfd'
          · rcases List.mem_cons.1 hj with rfl | hj
            · rw [hslot] at hfd'
              obtain rfl := Option.some.inj (Option.some.inj hfd')
              exact h
            · exact hback hs' j hj fd' (by rw [hsame hj]; exact hfd')
        · rw [hbad h]
          exact ⟨fun hall => absurd (hall i List.mem_cons_self fd hslot) h, fun ⟨s', hs'⟩ => by cases hs'⟩

/-! ## Connections -/

theorem Inv.readClient (hi : Inv dt n (fun _ => []) s) (h : s.clients[i]? = some (some fd)) (r : Looping) :
    ((r.ready fd = true → ∀ available, r.read i = some available → available < dispatchBufferSize) →
      ∃ s', readClient r i fd s = some s' ∧ Inv dt n (fun _ => []) s' ∧
        ∀ j, j ≠ i → s'.clients[j]? = s.clients[j]?) ∧
    (¬ (r.ready fd = true → ∀ available, r.read i = some available → available < dispatchBufferSize) →
      readClient r i fd s = none) := by
  obtain ⟨c, hc, -⟩ := hi.held i fd h
  have hclose : ∃ s', DispatchBrowser.closeClient i fd s = some s' ∧ Inv dt n (fun _ => []) s' ∧
      ∀ j, j ≠ i → s'.clients[j]? = s.clients[j]? := by
    obtain ⟨s', hs', hi', hclients, -⟩ := hi.closeClient h (fun _ => []) fun _ _ => rfl
    exact ⟨s', hs', hi', fun j hj => by rw [hclients, List.getElem?_set_ne (Ne.symm hj)]⟩
  unfold DispatchBrowser.readClient
  cases hready : r.ready fd with
  | false => exact ⟨fun _ => ⟨s, rfl, hi, fun _ _ => rfl⟩, fun hn => absurd (fun hr => by cases hr) hn⟩
  | true =>
    rw [if_neg (by decide), hc, Option.bind_some]
    cases hread : r.read i with
    | none => exact ⟨fun _ => hclose, fun hn => absurd (fun _ _ hr => by cases hr) hn⟩
    | some available =>
      dsimp only
      by_cases hlt : available < dispatchBufferSize
      · refine ⟨fun _ => ?_, fun hn => absurd (fun _ _ hr => Option.some.inj hr ▸ hlt) hn⟩
        rw [Nat.min_eq_left (Nat.le_of_lt hlt), if_pos hlt]
        split
        · exact hclose
        · exact ⟨s, rfl, hi, fun _ _ => rfl⟩
      · refine ⟨fun hok => absurd (hok rfl available rfl) hlt, fun _ => ?_⟩
        rw [Nat.min_eq_right (Nat.le_of_not_lt hlt), if_neg (by decide), if_neg (Nat.lt_irrefl _)]

/-- A connection that gets no slot is closed at once. -/
theorem Inv.closeNew (hi : Inv dt n (fun _ => []) s) (hfree : s.socket fd = none) :
    ∃ s', closeSocket fd { s with socket := Function.update s.socket fd (some ⟨[], s.dispatched.length⟩) } = some s' ∧
      Inv dt n (fun _ => []) s' := by
  refine ⟨_, Option.map_eq_some_iff.2 ⟨_, Function.update_self .., rfl⟩, ?_⟩
  have hsocket : Function.update (Function.update s.socket fd (some ⟨[], s.dispatched.length⟩)) fd none = s.socket := by
    rw [Function.update_idem, ← hfree, Function.update_eq_self]
  exact { hi with
    held := fun j fd' hj => by
      obtain ⟨c, hc, hsent⟩ := hi.held j fd' hj
      exact ⟨c, (congrFun hsocket fd').trans hc, hsent⟩
    slot := fun fd' c hc => hi.slot fd' c ((congrFun hsocket fd').symm.trans hc)
    closed := fun c hc => by
      rcases List.mem_append.1 hc with hc | hc
      · exact hi.closed c hc
      · rw [List.mem_singleton.1 hc]
        exact ⟨Nat.le_refl _, List.nil_prefix⟩ }

theorem Inv.assign (hi : Inv dt n (fun _ => []) s) (hfree : s.socket fd = none) (hslot : s.clients[i]? = some none) :
    Inv dt n (fun _ => []) { s with
      socket := Function.update s.socket fd (some ⟨[], s.dispatched.length⟩),
      clients := s.clients.set i (some fd) } := by
  have hlt : i < s.clients.length := (List.getElem?_eq_some_iff.1 hslot).1
  have hne : ∀ {j fd' : Nat}, s.clients[j]? = some (some fd') → fd' ≠ fd := by
    rintro j fd' hj rfl
    obtain ⟨c, hc, -⟩ := hi.held j _ hj
    rw [hfree] at hc
    cases hc
  -- a slot has the new socket, or what it had
  have hget : ∀ {j fd' : Nat}, (s.clients.set i (some fd))[j]? = some (some fd') →
      j = i ∧ fd' = fd ∨ j ≠ i ∧ s.clients[j]? = some (some fd') := by
    intro j fd' hj
    by_cases hji : j = i
    · rw [hji, List.getElem?_set_self hlt] at hj
      exact .inl ⟨hji, (Option.some.inj (Option.some.inj hj)).symm⟩
    · rw [List.getElem?_set_ne (Ne.symm hji)] at hj
      exact .inr ⟨hji, hj⟩
  exact {
    length := List.length_set.trans hi.length
    held := fun j fd' hj => by
      rcases hget hj with ⟨-, rfl⟩ | ⟨-, hj⟩
      · refine ⟨_, Function.update_self .., ?_⟩
        simp [owedTo]
      · obtain ⟨c, hc, hsent⟩ := hi.held j fd' hj
        exact ⟨c, (Function.update_of_ne (hne hj) _ _).trans hc, hsent⟩
    once := fun j k fd' hj hk => by
      rcases hget hj with ⟨hji, hfd⟩ | ⟨-, hj'⟩
      · rcases hget hk with ⟨hki, -⟩ | ⟨-, hk'⟩
        · rw [hji, hki]
        · exact absurd hfd (hne hk')
      · rcases hget hk with ⟨-, hfd⟩ | ⟨-, hk'⟩
        · exact absurd hfd (hne hj')
        · exact hi.once j k fd' hj' hk'
    slot := fun fd' c (hc : Function.update s.socket fd _ fd' = some c) => by
      by_cases hfd : fd' = fd
      · rw [hfd, Function.update_self] at hc
        obtain rfl := Option.some.inj hc
        exact ⟨Nat.le_refl _, i, by rw [hfd]; exact List.getElem?_set_self hlt⟩
      · rw [Function.update_of_ne hfd] at hc
        obtain ⟨hsince, j, hj⟩ := hi.slot fd' c hc
        refine ⟨hsince, j, ?_⟩
        have hij : i ≠ j := by
          rintro rfl
          rw [hslot] at hj
          cases hj
        exact (List.getElem?_set_ne hij).trans hj
    closed := hi.closed }

theorem Inv.acceptClient (hi : Inv dt n (fun _ => []) s) (listenSock : Nat) (r : Looping) :
    ∃ s', acceptClient listenSock r s = some s' ∧ Inv dt n (fun _ => []) s' := by
  unfold DispatchBrowser.acceptClient
  cases haccept : r.accept.filter fun fd => fd ≠ listenSock ∧ s.socket fd = none with
  | none => exact ⟨s, rfl, hi⟩
  | some fd =>
    have hfree : s.socket fd = none := by
      have := (Option.filter_eq_some_iff.1 haccept).2
      exact (of_decide_eq_true this).2
    dsimp only
    cases hidx : s.clients.findIdx? Option.isNone with
    | none => exact hi.closeNew hfree
    | some i =>
      obtain ⟨hlt, hnone, -⟩ := List.findIdx?_eq_some_iff_getElem.1 hidx
      have hslot : s.clients[i]? = some none := by
        rw [List.getElem?_eq_getElem hlt, Option.isNone_iff_eq_none.1 hnone]
      dsimp only
      cases r.getfl with
      | false => exact hi.closeNew hfree
      | true =>
        cases r.setfl with
        | false => exact hi.closeNew hfree
        | true => exact ⟨_, rfl, hi.assign hfree hslot⟩

theorem nodup_lt {m : Nat} {is : List Nat} (h : (i :: is).Nodup ∧ ∀ j ∈ i :: is, j < m) :
    i ∉ is ∧ i < m ∧ is.Nodup ∧ ∀ j ∈ is, j < m :=
  ⟨(List.nodup_cons.1 h.1).1, h.2 i List.mem_cons_self, (List.nodup_cons.1 h.1).2,
    fun j hj => h.2 j (List.mem_cons_of_mem i hj)⟩

theorem nodup_range_lt (n : Nat) : (List.range n).Nodup ∧ ∀ j ∈ List.range n, j < n :=
  ⟨List.nodup_range, fun _ hj => List.mem_range.1 hj⟩

theorem smallSockets_iff (hlen : s.clients.length = n) :
    SmallSockets s ↔ ∀ i ∈ List.range n, ∀ fd, s.clients[i]? = some (some fd) → fd < fdSetSize := by
  constructor
  · exact fun h i _ fd hfd => h fd (List.mem_of_getElem? hfd)
  · intro h fd hfd
    obtain ⟨i, hi⟩ := List.mem_iff_getElem?.1 hfd
    exact h i (List.mem_range.2 (hlen ▸ (List.getElem?_eq_some_iff.1 hi).1)) fd hi

theorem forClients_fdSet (hlen : s.clients.length = n) :
    (SmallSockets s → forClients n (fun _ fd => fdSet fd) s = some s) ∧
      ((∃ s', forClients n (fun _ fd => fdSet fd) s = some s') → SmallSockets s) := by
  have hloop := foldlM_atSlot (fun _ fd => fdSet fd) (fun _ fd => fd < fdSetSize)
    (fun is s' => s' = s ∧ is.Nodup ∧ ∀ j ∈ is, j < n)
    (fun {i is s₁ fd} hJ hfd => ⟨fun hok => ⟨s₁, if_pos hok, ⟨hJ.1, (nodup_lt hJ.2).2.2⟩, fun _ _ => rfl⟩,
      fun hbad => if_neg hbad⟩)
    (fun hJ _ => ⟨hJ.1, (nodup_lt hJ.2).2.2⟩)
    (fun hJ => ⟨(nodup_lt hJ.2).1, by rw [hJ.1, hlen]; exact (nodup_lt hJ.2).2.1⟩)
    (List.range n) s ⟨rfl, nodup_range_lt n⟩
  rw [smallSockets_iff hlen]
  refine ⟨fun h => ?_, hloop.2⟩
  obtain ⟨s', hs', rfl, -⟩ := hloop.1 h
  exact hs'

/-- **A `customLoop`** has a result exactly when it stays in bounds, and keeps the invariant. -/
theorem Inv.customLoop (hi : Inv dt n (fun _ => []) s) (listenSock : Nat) (r : Looping) :
    (InBounds dt listenSock s (.customLoop r) →
      ∃ s', customLoop n listenSock r s = some s' ∧ Inv dt n (fun _ => []) s') ∧
    ((∃ s', DispatchBrowser.customLoop n listenSock r s = some s') → InBounds dt listenSock s (.customLoop r)) := by
  obtain ⟨hset, hsmall⟩ := forClients_fdSet hi.length
  have hread := foldlM_atSlot (DispatchBrowser.readClient r)
    (fun i fd => r.ready fd = true → ∀ available, r.read i = some available → available < dispatchBufferSize)
    (fun is s => Inv dt n (fun _ => []) s ∧ is.Nodup ∧ ∀ j ∈ is, j < n)
    (fun {i is s₁ fd} hJ hfd => ⟨fun hok => by
      obtain ⟨s₂, h₂, hi₂, hothers⟩ := (hJ.1.readClient hfd r).1 hok
      exact ⟨s₂, h₂, ⟨hi₂, (nodup_lt hJ.2).2.2⟩, hothers⟩, (hJ.1.readClient hfd r).2⟩)
    (fun hJ _ => ⟨hJ.1, (nodup_lt hJ.2).2.2⟩)
    (fun hJ => ⟨(nodup_lt hJ.2).1, by rw [hJ.1.length]; exact (nodup_lt hJ.2).2.1⟩)
    (List.range n) s ⟨hi, nodup_range_lt n⟩
  have hslots : ∀ {i fd : Nat}, s.clients[i]? = some (some fd) → i ∈ List.range n := fun hfd =>
    List.mem_range.2 (hi.length ▸ (List.getElem?_eq_some_iff.1 hfd).1)
  unfold DispatchBrowser.customLoop fdSet
  unfold InBounds
  by_cases hlisten : listenSock < fdSetSize
  · rw [if_pos hlisten, Option.bind_some]
    by_cases hsockets : SmallSockets s
    · have hset' : forClients n (fun _ fd s => if fd < fdSetSize then some s else none) s = some s := hset hsockets
      rw [hset', Option.bind_some]
      by_cases hselect : 0 < r.select
      · rw [if_pos hselect]
        constructor
        · rintro ⟨-, -, hbytes⟩
          obtain ⟨s₁, h₁, hi₁, -⟩ := hread.1 fun i _ fd hfd hready available ha =>
            hbytes hselect i fd available hfd hready ha
          have h₁' : forClients n (DispatchBrowser.readClient r) s = some s₁ := h₁
          rw [h₁', Option.bind_some]
          split
          · exact hi₁.acceptClient listenSock r
          · exact ⟨s₁, rfl, hi₁⟩
        · rintro ⟨s', hs'⟩
          obtain ⟨s₁, h₁, -⟩ := Option.bind_eq_some_iff.1 hs'
          exact ⟨hlisten, hsockets, fun _ i fd available hfd hready ha =>
            hread.2 ⟨s₁, h₁⟩ i (hslots hfd) fd hfd hready available ha⟩
      · rw [if_neg hselect]
        exact ⟨fun _ => ⟨s, rfl, hi⟩, fun _ => ⟨hlisten, hsockets, fun h => absurd h hselect⟩⟩
    · refine ⟨fun h => absurd h.2.1 hsockets, fun ⟨s', hs'⟩ => ?_⟩
      obtain ⟨s₁, h₁, -⟩ := Option.bind_eq_some_iff.1 hs'
      exact absurd (hsmall ⟨s₁, h₁⟩) hsockets
  · rw [if_neg hlisten]
    exact ⟨fun h => absurd h.1 hlisten, fun ⟨s', hs'⟩ => by cases hs'⟩

/-! ## Messages -/

/-- What is encoded with status 0 is the record of the message, whole. -/
theorem encodeMsg_zero {m : KnownMsg D} {onlineMsg : Bytes} (h : encodeMsg dt m = some (0, onlineMsg)) :
    onlineMsg = wholeRecord dt m := by
  have hversion : m.1.protocol.version.length < intMax := by
    have hall : ∀ p ∈ protocols, p.version.length < intMax := by decide
    exact hall _ m.2
  have hloop : encodeLoop dt m.1 (-1) none (mysprintfInit maxMsgLength) none = some (0, onlineMsg) := h
  rw [encodeLoop_zero dt (by decide) hversion none none nofun (holds_init (by decide)) hloop]
  simp [recordsText, linesOf, wholeRecord]

/-- **A record is sent to a client**: it gets all of it, or is closed. -/
theorem Inv.sendTo (hi : Inv dt n todo s) (h : s.clients[i]? = some (some fd)) (r : Writing) (k : Nat) :
    (fd < fdSetSize → ∃ s', sendTo r k (todo i) i fd s = some s' ∧ Inv dt n (Function.update todo i []) s' ∧
      (s'.clients = s.clients ∨ s'.clients = s.clients.set i none) ∧ s'.dispatched = s.dispatched) ∧
    (¬ fd < fdSetSize → DispatchBrowser.sendTo r k (todo i) i fd s = none) := by
  unfold DispatchBrowser.sendTo fdSet
  refine ⟨fun hsmall => ?_, fun hbig => by rw [if_neg hbig]; rfl⟩
  rw [if_pos hsmall, Option.bind_some]
  obtain ⟨c, hc, -⟩ := hi.held i fd h
  have hclose : ∃ s', DispatchBrowser.closeClient i fd s = some s' ∧ Inv dt n (Function.update todo i []) s' ∧
      (s'.clients = s.clients ∨ s'.clients = s.clients.set i none) ∧ s'.dispatched = s.dispatched := by
    obtain ⟨s', hs', hi', hclients, hdisp⟩ := hi.closeClient h (Function.update todo i []) fun j hj =>
      Function.update_of_ne hj _ _
    exact ⟨s', hs', hi', .inr hclients, hdisp⟩
  by_cases hselect : r.select k i ≤ 0
  · rw [if_pos hselect]
    exact hclose
  · rw [if_neg hselect]
    cases hwrite : r.write k i with
    | none =>
      dsimp only
      rw [hc, Option.bind_some]
      exact hclose
    | some taken =>
      dsimp only
      generalize hresult : min taken (todo i).length = result
      obtain ⟨s₁, h₁, hi₁, hclients₁, hdisp₁⟩ := hi.writeSocket h (List.take_append_drop result (todo i)).symm
      rw [h₁, Option.bind_some]
      by_cases hall : result = (todo i).length
      · rw [if_pos hall]
        rw [hall, List.drop_length] at hi₁
        exact ⟨s₁, rfl, hi₁, .inl hclients₁, hdisp₁⟩
      · rw [if_neg hall]
        obtain ⟨s', hs', hi', hclients, hdisp⟩ := hi₁.closeClient (hclients₁ ▸ h)
          (Function.update todo i []) fun j hj => by
            rw [Function.update_of_ne hj, Function.update_of_ne hj]
        exact ⟨s', hs', hi', .inr (hclients.trans (by rw [hclients₁])), hdisp.trans hdisp₁⟩

theorem Inv.sendAll {onlineMsg : Bytes} (hi : Inv dt n (fun _ => onlineMsg) s) (r : Writing) (k : Nat) :
    (SmallSockets s → ∃ s', forClients n (DispatchBrowser.sendTo r k onlineMsg) s = some s' ∧
      Inv dt n (fun _ => []) s' ∧ ∀ fd, some fd ∈ s'.clients → some fd ∈ s.clients) ∧
    ((∃ s', forClients n (DispatchBrowser.sendTo r k onlineMsg) s = some s') → SmallSockets s) := by
  have hloop := foldlM_atSlot (DispatchBrowser.sendTo r k onlineMsg) (fun _ fd => fd < fdSetSize)
    (fun is s₁ => Inv dt n (fun j => if j ∈ is then onlineMsg else []) s₁ ∧
      (∀ fd, some fd ∈ s₁.clients → some fd ∈ s.clients) ∧ is.Nodup ∧ ∀ j ∈ is, j < n)
    (fun {i is s₁ fd} hJ hfd => by
      obtain ⟨hok, hbad⟩ := hJ.1.sendTo hfd r k
      rw [if_pos List.mem_cons_self] at hok hbad
      refine ⟨fun hsmall => ?_, hbad⟩
      obtain ⟨s₂, h₂, hi₂, hclients, -⟩ := hok hsmall
      refine ⟨s₂, h₂, ⟨hi₂.congr fun j fd' _ => ?_, fun fd' hfd' => hJ.2.1 fd' ?_, (nodup_lt hJ.2.2).2.2⟩,
        fun j hj => ?_⟩
      · by_cases hji : j = i
        · rw [hji, Function.update_self, if_neg (nodup_lt hJ.2.2).1]
        · rw [Function.update_of_ne hji]
          simp [hji]
      · rcases hclients with h | h <;> rw [h] at hfd'
        · exact hfd'
        · exact (List.mem_or_eq_of_mem_set hfd').resolve_right nofun
      · rcases hclients with h | h <;> rw [h]
        exact List.getElem?_set_ne (Ne.symm hj))
    (fun {i is s₁} hJ hfree => ⟨hJ.1.congr fun j fd hj => by
      have hji : j ≠ i := by
        rintro rfl
        rw [hfree] at hj
        cases hj
      simp [hji], hJ.2.1, (nodup_lt hJ.2.2).2.2⟩)
    (fun hJ => ⟨(nodup_lt hJ.2.2).1, by rw [hJ.1.length]; exact (nodup_lt hJ.2.2).2.1⟩)
    (List.range n) s
      ⟨hi.congr fun i fd hfd => if_pos (List.mem_range.2 (hi.length ▸ (List.getElem?_eq_some_iff.1 hfd).1)),
      fun _ h => h, nodup_range_lt n⟩
  rw [smallSockets_iff hi.length]
  refine ⟨fun h => ?_, hloop.2⟩
  obtain ⟨s', hs', hi', hsub, -⟩ := hloop.1 h
  exact ⟨s', hs', hi'.congr fun _ _ _ => (if_neg List.not_mem_nil).symm, hsub⟩

theorem Inv.dispatch (hi : Inv dt n (fun _ => []) s) (m : KnownMsg D) :
    Inv dt n (fun _ => wholeRecord dt m) { s with dispatched := s.dispatched ++ [m] } := by
  have howed : ∀ c : Conn, c.since ≤ s.dispatched.length →
      owedTo dt { s with dispatched := s.dispatched ++ [m] } c = owedTo dt s c ++ wholeRecord dt m := fun c hc => by
    rw [owedTo, List.drop_append_of_le_length hc, List.flatMap_append, List.flatMap_singleton, owedTo]
  have hlen : s.dispatched.length ≤ (s.dispatched ++ [m]).length := by
    rw [List.length_append]
    exact Nat.le_add_right _ _
  exact { hi with
    held := fun i fd hfd => by
      obtain ⟨c, hc, hsent⟩ := hi.held i fd hfd
      rw [List.append_nil] at hsent
      exact ⟨c, hc, by rw [howed c (hi.slot fd c hc).1, hsent]⟩
    slot := fun fd c hc => ⟨Nat.le_trans (hi.slot fd c hc).1 hlen, (hi.slot fd c hc).2⟩
    closed := fun c hc => ⟨Nat.le_trans (hi.closed c hc).1 hlen, by
      rw [howed c (hi.closed c hc).1]
      exact (hi.closed c hc).2.trans (List.prefix_append _ _)⟩ }

/-- **The loop over the messages** has a result exactly when it stays in bounds, and keeps the invariant. -/
theorem Inv.processMessages (listenSock : Nat) (r : Writing) : ∀ (ms : List (KnownMsg D)) (k : Nat) (s : State D),
    Inv dt n (fun _ => []) s →
    (InBounds dt listenSock s (.customMessageProcess ms r) →
      ∃ s', processMessages dt n r k ms s = some s' ∧ Inv dt n (fun _ => []) s') ∧
    ((∃ s', DispatchBrowser.processMessages dt n r k ms s = some s') →
      InBounds dt listenSock s (.customMessageProcess ms r))
  | [], k, s, hi => ⟨fun _ => ⟨s, rfl, hi⟩, fun _ => ⟨nofun, fun ⟨m, hm, _⟩ => by cases hm⟩⟩
  | m :: ms, k, s, hi => by
    unfold DispatchBrowser.processMessages
    cases hencode : encodeMsg dt m with
    | none =>
      refine ⟨fun hin => ?_, fun ⟨s', hs'⟩ => by cases hs'⟩
      obtain ⟨result, hresult⟩ := hin.1 m List.mem_cons_self
      rw [hencode] at hresult
      cases hresult
    | some result =>
      obtain ⟨status, onlineMsg⟩ := result
      rw [Option.bind_some]
      dsimp only
      by_cases hstatus : status = 0
      · subst hstatus
        obtain rfl := encodeMsg_zero hencode
        obtain ⟨hgo, hback⟩ := (hi.dispatch m).sendAll r k
        rw [if_pos rfl]
        constructor
        · intro hin
          obtain ⟨s₁, h₁, hi₁, hsub⟩ := hgo (hin.2 ⟨m, List.mem_cons_self, _, hencode⟩)
          rw [h₁, Option.bind_some]
          refine (Inv.processMessages listenSock r ms (k + 1) s₁ hi₁).1
            ⟨fun m' hm' => hin.1 m' (List.mem_cons_of_mem m hm'), fun _ fd hfd => ?_⟩
          exact hin.2 ⟨m, List.mem_cons_self, _, hencode⟩ fd (hsub fd hfd)
        · rintro ⟨s', hs'⟩
          obtain ⟨s₁, h₁, h₂⟩ := Option.bind_eq_some_iff.1 hs'
          have hsmall := hback ⟨s₁, h₁⟩
          obtain ⟨s₂, hs₂, hi₂, -⟩ := hgo hsmall
          obtain rfl := Option.some.inj (h₁.symm.trans hs₂)
          have hrest := (Inv.processMessages listenSock r ms (k + 1) s₁ hi₂).2 ⟨s', h₂⟩
          refine ⟨fun m' hm' => ?_, fun _ => hsmall⟩
          rcases List.mem_cons.1 hm' with rfl | hm'
          · exact ⟨_, hencode⟩
          · exact hrest.1 m' hm'
      · rw [if_neg hstatus]
        obtain ⟨hgo, hback⟩ := Inv.processMessages listenSock r ms (k + 1) s hi
        constructor
        · intro hin
          exact hgo ⟨fun m' hm' => hin.1 m' (List.mem_cons_of_mem m hm'),
            fun ⟨m', hm', hzero⟩ => hin.2 ⟨m', List.mem_cons_of_mem m hm', hzero⟩⟩
        · intro hs'
          obtain ⟨hall, hsmall⟩ := hback hs'
          refine ⟨fun m' hm' => ?_, fun ⟨m', hm', onlineMsg', hzero⟩ => ?_⟩
          · rcases List.mem_cons.1 hm' with rfl | hm'
            · exact ⟨_, hencode⟩
            · exact hall m' hm'
          · rcases List.mem_cons.1 hm' with rfl | hm'
            · rw [hencode] at hzero
              exact absurd (Prod.mk.inj (Option.some.inj hzero)).1 hstatus
            · exact hsmall ⟨m', hm', onlineMsg', hzero⟩

theorem Inv.serves (hi : Inv dt n (fun _ => []) s) : Serves dt s where
  slots := fun fd hfd => by
    obtain ⟨i, hfd⟩ := List.mem_iff_getElem?.1 hfd
    obtain ⟨c, hc, -⟩ := hi.held i fd hfd
    exact ⟨c, hc⟩
  one := fun fd c hc => by
    obtain ⟨-, i, hfd⟩ := hi.slot fd c hc
    exact ⟨i, fun j => ⟨fun hj => hi.once j i fd hj hfd, fun hj => hj ▸ hfd⟩⟩
  sent := fun fd c hc => by
    obtain ⟨-, i, hfd⟩ := hi.slot fd c hc
    obtain ⟨c', hc', hsent⟩ := hi.held i fd hfd
    obtain rfl := Option.some.inj (hc.symm.trans hc')
    rwa [List.append_nil] at hsent
  closed := fun c hc => (hi.closed c hc).2

variable (dt)

/-- **The browsers are served**: at every point of a run the sockets have their slots, one each, and were sent the whole
records of all messages since they were accepted, exactly when no access of the run leaves its array. -/
theorem serves_iff (maxClientsTx listenSock : Nat) (as : List (Step D)) :
    (∀ bs, bs <+: as → ∃ s, run (step dt maxClientsTx listenSock) (start maxClientsTx) bs = some s ∧ Serves dt s) ↔
      Legal (step dt maxClientsTx listenSock) (InBounds dt listenSock) (start maxClientsTx) as := by
  have hstep : ∀ (s : State D) (a : Step D), Inv dt maxClientsTx (fun _ => []) s →
      (InBounds dt listenSock s a → ∃ s', step dt maxClientsTx listenSock s a = some s' ∧
        Inv dt maxClientsTx (fun _ => []) s') ∧
      ((∃ s', step dt maxClientsTx listenSock s a = some s') → InBounds dt listenSock s a) := by
    intro s a hi
    cases a with
    | customLoop r => exact hi.customLoop listenSock r
    | customMessageProcess lmsg r => exact Inv.processMessages listenSock r lmsg 0 s hi
  exact forall_prefix_iff_legal (fun s hi => hi.serves) (fun s a hi => (hstep s a hi).1)
    (fun s a s' hi hn h => absurd ((hstep s a hi).2 ⟨s', h⟩) hn) as _ inv_start

/-- A browser connects and sends 200 bytes. -/
def longInput : List (Step Nat) :=
  [.customLoop ⟨1, fun _ => true, fun _ => none, some 5, true, true⟩,
    .customLoop ⟨1, fun fd => fd = 5, fun _ => some 200, none, true, true⟩]

/-- The byte behind them is stored past the end of the buffer. -/
theorem longInput_leaves_buffer : ¬ ∀ bs, bs <+: longInput →
    ∃ s, run (step wholeNumbers 10 4) (start 10) bs = some s ∧ Serves wholeNumbers s := by
  intro h
  obtain ⟨s, hs, -⟩ := h longInput List.prefix_rfl
  have hnone : (run (step wholeNumbers 10 4) (start 10) longInput).isNone = true := by decide +kernel
  rw [hs] at hnone
  cases hnone

end DispatchBrowser
end Flp
