import FlpPrototype.Lib.CString
import FlpPrototype.Lib.Decimal
import FlpPrototype.Lib.Run
import Mathlib.Logic.Function.Basic
/-!
# Publish — the publish and stop calls of the low-level front-end

The client prints a call into a string, which DIM hands to the server.  The handler parses it and puts a command into a
queue, which the server's main loop reads and applies to its registry (`AliceLowlevelFrontend.h`,
`ProgramAliceLowlevelFrontendServer.cxx`).  What the calls that return ask for is what was applied and what is in the
queue, in order, as long as the queue has room for them (`takes_effect_iff`).
-/
namespace Flp
namespace Alf

def semicolon : UInt8 := 59
def comma : UInt8 := 44

/-- What the handlers throw. -/
inductive Thrown where
  | badLexicalCast
  | outOfRange (n size : Nat)
  deriving DecidableEq, Repr

/-- `lexical_cast<double>`, and `int64_t(d * 1000.0)` where that is one. -/
structure DoubleCast (D : Type) where
  lexicalCast : Bytes → Option D
  millis : D → Option Int

/-! ## The client -/

/-- A name of a service; and what a double is printed as. -/
abbrev Name := { n : Bytes // semicolon ∉ n }
abbrev PrintedDouble := { t : Bytes // semicolon ∉ t ∧ 0 ∉ t }

inductive Call where
  | publish (dnsName : Name) (frequency : PrintedDouble) (addresses : List UInt64)
  | stop (dnsName : Bytes)
  deriving DecidableEq

/-- The addresses, a comma behind each but the last. -/
def addressText : List UInt64 → Bytes
  | []           => []
  | [a]          => printNat a.toNat
  | a :: b :: as => printNat a.toNat ++ comma :: addressText (b :: as)

def Call.text : Call → Bytes
  | .publish dnsName frequency addresses =>
      dnsName.1 ++ semicolon :: (addressText addresses ++ semicolon :: frequency.1)
  | .stop dnsName                        => dnsName

def toCharBuffer (string : Bytes) : Bytes := string ++ [0]

def successPrefix : Bytes := ascii ['s', 'u', 'c', 'c', 'e', 's', 's', ':']
def failPrefix : Bytes := ascii ['f', 'a', 'i', 'l', 'u', 'r', 'e', ':']

def isFail (string : Bytes) : Bool := failPrefix.isPrefixOf string

/-! ## The server -/

structure ServiceDescription where
  dnsName : Bytes
  addresses : List UInt64
  interval : Int
  deriving DecidableEq, Repr

inductive Command where
  | publishStart (description : ServiceDescription)
  | publishStop (dnsName : Bytes)
  deriving DecidableEq, Repr

/-- The size of the queue: one slot stays free. -/
def queueSize : Nat := 512

/-- `mQueue.write`; a handler whose command is not written logs that and goes on. -/
def write (queue : List Command) (command : Command) : List Command :=
  if queue.length < queueSize - 1 then queue ++ [command] else queue

/-- `lexical_cast<uintptr_t>`: digits, a sign before them or not. -/
def lexicalCastAddress (t : Bytes) : Except Thrown UInt64 :=
  let minus := t.head? = some 45
  let digits := if minus ∨ t.head? = some 43 then t.tail else t
  if digits ≠ [] ∧ digits.all isDigit = true ∧ digitsValue digits < 2 ^ 64 then
    .ok (if minus then 0 - UInt64.ofNat (digitsValue digits) else UInt64.ofNat (digitsValue digits))
  else .error .badLexicalCast

/-- `params.at(n)`. -/
def paramAt (params : List Bytes) (n : Nat) : Except Thrown Bytes :=
  match params[n]? with
  | none   => .error (.outOfRange n params.length)
  | some t => .ok t

section
variable {D : Type} (dc : DoubleCast D)

/-- The description of `publishStartCommand` as far as it is parsed, with the double of its interval. -/
def parseDescription (params : List Bytes) : Except Thrown (List UInt64 × Bytes × D) := do
  let addresses ← (← paramAt params 1).splitOn comma |>.mapM lexicalCastAddress
  let dnsName ← paramAt params 0
  match dc.lexicalCast (← paramAt params 2) with
  | none   => .error .badLexicalCast
  | some d => .ok (addresses, dnsName, d)

/-- The handlers: what they return or throw, and the queue.  An interval that is no `int64_t` has no result. -/
def publishStartCommand (parameter : Bytes) (queue : List Command) : Option (Except Thrown Bytes × List Command) :=
  match parseDescription dc (parameter.splitOn semicolon) with
  | .error e                     => some (.error e, queue)
  | .ok (addresses, dnsName, d) => (dc.millis d).map fun interval =>
      (.ok [], write queue (.publishStart ⟨dnsName, addresses, interval⟩))

def publishStopCommand (parameter : Bytes) (queue : List Command) : Option (Except Thrown Bytes × List Command) :=
  some (.ok [], write queue (.publishStop parameter))

def Call.handler : Call → Bytes → List Command → Option (Except Thrown Bytes × List Command)
  | .publish _ _ _ => publishStartCommand dc
  | .stop _        => publishStopCommand

end

/-- `PublisherRegistry::remove` and `add`. -/
def remove (mServices : Bytes → Option ServiceDescription) (dnsName : Bytes) : Bytes → Option ServiceDescription :=
  Function.update mServices dnsName none

def add (mServices : Bytes → Option ServiceDescription) (d : ServiceDescription) : Bytes → Option ServiceDescription :=
  let mServices := if (mServices d.dnsName).isSome then remove mServices d.dnsName else mServices
  -- an entry that is there stays
  if (mServices d.dnsName).isSome then mServices else Function.update mServices d.dnsName (some d)

/-! ## Runs -/

/-- The queue and the registry; what was applied and which calls returned are recorded beside them. -/
structure State where
  mQueue : List Command
  mServices : Bytes → Option ServiceDescription
  applied : List Command
  returned : List Call

def start : State := ⟨[], fun _ => none, [], []⟩

section
variable {D : Type} (dc : DoubleCast D) (what : Thrown → Bytes)

/-- `StringRpcServer::rpcHandler`: the string up to its NUL is handled, and the reply says how that went. -/
def rpcHandler (c : Call) (buffer : Bytes) (queue : List Command) : Option (Bytes × List Command) :=
  (c.handler dc (cStr buffer) queue).map fun (result, queue) =>
    (toCharBuffer (match result with
      | .ok value => successPrefix ++ value
      | .error e  => failPrefix ++ what e), queue)

/-- A call; the client throws if the reply says that it failed. -/
def rpc (c : Call) (s : State) : Option State :=
  (rpcHandler dc what c (toCharBuffer c.text) s.mQueue).map fun (reply, queue) =>
    { s with mQueue := queue, returned := if isFail (cStr reply) then s.returned else s.returned ++ [c] }

/-- The main loop reads a command, if there is one, and applies it. -/
def readCommand (s : State) : State :=
  match s.mQueue with
  | []               => s
  | command :: queue =>
    { s with
      mQueue := queue, applied := s.applied ++ [command],
      mServices := match command with
        | .publishStart description => add s.mServices description
        | .publishStop dnsName      => remove s.mServices dnsName }

inductive Action where
  | call (c : Call)
  | read
  deriving DecidableEq

def step (s : State) : Action → Option State
  | .call c => rpc dc what c s
  | .read   => some (readCommand s)

/-! ## What the calls ask for -/

/-- What a call asks for, if its interval is one. -/
def Call.command : Call → Option Command
  | .publish dnsName frequency addresses => ((dc.lexicalCast frequency.1).bind dc.millis).map fun interval =>
      .publishStart ⟨dnsName.1, addresses, interval⟩
  | .stop dnsName => some (.publishStop dnsName)

/-- What a command is for: a service of that name, or none. -/
def effect (services : Bytes → Option ServiceDescription) : Command → Bytes → Option ServiceDescription
  | .publishStart d    => Function.update services d.dnsName (some d)
  | .publishStop name => Function.update services name none

/-- The calls that returned, and no others, take effect in order: what they ask for was applied, or is in the queue;
and the services are those of what was applied, so those of all these calls once the queue is empty. -/
structure TakesEffect (s : State) : Prop where
  order : (s.applied ++ s.mQueue).map some = s.returned.map (Call.command dc)
  services : s.mServices = s.applied.foldl effect fun _ => none
  drained : s.mQueue = [] → s.mServices = (s.returned.filterMap (Call.command dc)).foldl effect fun _ => none

/-- The calls the handler accepts. -/
def Accepted : Call → Prop
  | .publish dnsName frequency addresses =>
    0 ∉ dnsName.1 ∧ addresses ≠ [] ∧ ∃ d, dc.lexicalCast frequency.1 = some d
  | .stop _ => True

/-- A call that is accepted finds room in the queue; its interval fits its type, and a NUL does not end its name. -/
def HasRoom (s : State) : Action → Prop
  | .call (.publish dnsName frequency addresses) => Accepted dc (.publish dnsName frequency addresses) →
      s.mQueue.length < queueSize - 1 ∧ ∀ d, dc.lexicalCast frequency.1 = some d →
        ∃ interval, dc.millis d = some interval
  | .call (.stop dnsName) => s.mQueue.length < queueSize - 1 ∧ 0 ∉ dnsName
  | .read                 => True

end

/-! ## Print and parse -/

theorem lexicalCastAddress_printNat (a : UInt64) : lexicalCastAddress (printNat a.toNat) = .ok a := by
  obtain ⟨c, cs, hcons, hdigit⟩ := exists_printNat_cons a.toNat
  have hhead : (printNat a.toNat).head? = some c := by rw [hcons]; rfl
  have hbounds := isDigit_iff.1 hdigit
  have hminus : ¬ (printNat a.toNat).head? = some 45 := by
    rw [hhead]
    rintro ⟨⟩
    exact absurd hbounds.1 (by decide)
  have hplus : ¬ (printNat a.toNat).head? = some 43 := by
    rw [hhead]
    rintro ⟨⟩
    exact absurd hbounds.1 (by decide)
  have hall : (printNat a.toNat).all isDigit = true := List.all_eq_true.2 fun _ hc => isDigit_of_mem_printNat hc
  unfold lexicalCastAddress
  simp only [hminus, hplus, or_self, if_false, digitsValue_printNat, hall, true_and]
  rw [if_pos ⟨printNat_ne_nil _, a.toNat_lt⟩, UInt64.ofNat_toNat]

theorem not_mem_printNat {n : Nat} {c : UInt8} (h : isDigit c = false) : c ∉ printNat n := fun hc => by
  rw [isDigit_of_mem_printNat hc] at h
  cases h

theorem splitOn_addressText : ∀ {as : List UInt64}, as ≠ [] →
    (addressText as).splitOn comma = as.map fun a => printNat a.toNat
  | [], h => absurd rfl h
  | [a], _ => by
    rw [addressText, List.splitOn_eq_singleton (not_mem_printNat (by decide))]
    rfl
  | a :: b :: as, _ => by
    rw [addressText, List.splitOn_append_cons_self_of_not_mem (not_mem_printNat (by decide)),
      splitOn_addressText (List.cons_ne_nil b as)]
    rfl

/-- **The addresses come back in order.** -/
theorem mapM_lexicalCastAddress : ∀ as : List UInt64,
    (as.map fun a => printNat a.toNat).mapM lexicalCastAddress = .ok as
  | []      => rfl
  | a :: as => by
    rw [List.map_cons, List.mapM_cons, lexicalCastAddress_printNat, mapM_lexicalCastAddress as]
    rfl

theorem mem_addressText : ∀ {as : List UInt64} {c : UInt8}, c ∈ addressText as → c = comma ∨ isDigit c = true
  | [], _, h => by cases h
  | [a], _, h => .inr (isDigit_of_mem_printNat h)
  | a :: b :: as, _, h => by
    rw [addressText, List.mem_append, List.mem_cons] at h
    rcases h with h | h | h
    · exact .inr (isDigit_of_mem_printNat h)
    · exact .inl h
    · exact mem_addressText h

theorem not_mem_addressText {as : List UInt64} {c : UInt8} (hcomma : c ≠ comma) (hdigit : isDigit c = false) :
    c ∉ addressText as := fun h => by
  rcases mem_addressText h with h | h
  · exact hcomma h
  · rw [hdigit] at h
    cases h

theorem cStr_append_of_mem {b : Bytes} (h : 0 ∈ b) (rest : Bytes) : cStr (b ++ rest) = cStr b := by
  obtain ⟨l, r, rfl, hl⟩ := List.eq_append_cons_of_mem h
  rw [List.append_assoc, List.cons_append, cStr_append_nul hl, cStr_append_nul hl]

section
variable {D : Type} {dc : DoubleCast D} {what : Thrown → Bytes}

theorem splitOn_text {n : Name} {f : PrintedDouble} {as : List UInt64} (h : 0 ∉ n.1) :
    (cStr (toCharBuffer (Call.publish n f as).text)).splitOn semicolon = [n.1, addressText as, f.1] := by
  have hnul : 0 ∉ (Call.publish n f as).text := by
    simp only [Call.text, List.mem_append, List.mem_cons, not_or]
    exact ⟨h, by decide, not_mem_addressText (by decide) (by decide), by decide, f.2.2⟩
  rw [toCharBuffer, cStr_append_nul hnul, Call.text, List.splitOn_append_cons_self_of_not_mem n.2,
    List.splitOn_append_cons_self_of_not_mem (not_mem_addressText (by decide) (by decide)),
    List.splitOn_eq_singleton f.2.1]

/-- **A publish call that is accepted** is parsed into what was printed. -/
theorem handler_accepted (queue : List Command) {n : Name} {f : PrintedDouble} {as : List UInt64} {d : D} (h : 0 ∉ n.1)
    (has : as ≠ []) (hd : dc.lexicalCast f.1 = some d) :
    (Call.publish n f as).handler dc (cStr (toCharBuffer (Call.publish n f as).text)) queue =
      (dc.millis d).map fun interval => (.ok [], write queue (.publishStart ⟨n.1, as, interval⟩)) := by
  have hparse : parseDescription dc [n.1, addressText as, f.1] = .ok (as, n.1, d) := by
    unfold parseDescription
    simp only [paramAt, List.getElem?_cons_succ, List.getElem?_cons_zero]
    simp only [bind, Except.bind, splitOn_addressText has, mapM_lexicalCastAddress, hd]
  rw [Call.handler, publishStartCommand, splitOn_text h, hparse]

/-- A publish call that is not accepted throws, and leaves the queue alone. -/
theorem handler_refused (queue : List Command) {n : Name} {f : PrintedDouble} {as : List UInt64}
    (h : ¬ Accepted dc (.publish n f as)) :
    ∃ e, (Call.publish n f as).handler dc (cStr (toCharBuffer (Call.publish n f as).text)) queue =
      some (.error e, queue) := by
  have hparse : ∃ e, parseDescription dc
      ((cStr (toCharBuffer (Call.publish n f as).text)).splitOn semicolon) = .error e := by
    by_cases hnul : 0 ∈ n.1
    · -- nothing is left behind the name
      have hname : cStr (toCharBuffer (Call.publish n f as).text) = cStr n.1 := by
        rw [toCharBuffer, Call.text, List.append_assoc, cStr_append_of_mem hnul]
      have hsemi : semicolon ∉ cStr n.1 := fun hm => n.2 ((List.takeWhile_prefix _).subset hm)
      rw [hname, List.splitOn_eq_singleton hsemi]
      exact ⟨_, rfl⟩
    · rw [splitOn_text hnul]
      by_cases has : as = []
      · subst has
        exact ⟨_, rfl⟩
      · cases hd : dc.lexicalCast f.1 with
        | some d => exact absurd ⟨hnul, has, d, hd⟩ h
        | none =>
          refine ⟨.badLexicalCast, ?_⟩
          unfold parseDescription
          simp only [paramAt, List.getElem?_cons_succ, List.getElem?_cons_zero]
          simp only [bind, Except.bind, splitOn_addressText has, mapM_lexicalCastAddress, hd]
  obtain ⟨e, he⟩ := hparse
  exact ⟨e, by rw [Call.handler, publishStartCommand, he]⟩

/-! ## Replies -/

theorem isFail_failure (w : Bytes) : isFail (cStr (toCharBuffer (failPrefix ++ w))) = true := by
  have hcut : cStr (toCharBuffer (failPrefix ++ w)) = failPrefix ++ cStr (w ++ [0]) := by
    rw [toCharBuffer, List.append_assoc]
    rfl
  rw [hcut, isFail, List.isPrefixOf_iff_prefix]
  exact List.prefix_append _ _

theorem isFail_success : isFail (cStr (toCharBuffer (successPrefix ++ []))) = false := by decide

variable {c : Call} {s : State}

/-- **A call that fails changes nothing.** -/
theorem rpc_fails {e : Thrown}
    (h : c.handler dc (cStr (toCharBuffer c.text)) s.mQueue = some (.error e, s.mQueue)) :
    rpc dc what c s = some s := by
  rw [rpc, rpcHandler, h, Option.map_some, Option.map_some]
  simp only [isFail_failure, if_true]

theorem rpc_returns {queue : List Command}
    (h : c.handler dc (cStr (toCharBuffer c.text)) s.mQueue = some (.ok [], queue)) :
    rpc dc what c s = some { s with mQueue := queue, returned := s.returned ++ [c] } := by
  rw [rpc, rpcHandler, h, Option.map_some, Option.map_some]
  simp only [isFail_success]
  rfl

theorem handler_stop (n : Bytes) : (Call.stop n).handler dc (cStr (toCharBuffer (Call.stop n).text)) queue =
    some (.ok [], write queue (.publishStop (cStr n))) := by
  have hname : cStr (toCharBuffer n) = cStr n := by
    by_cases h : 0 ∈ n
    · rw [toCharBuffer, cStr_append_of_mem h]
    · rw [toCharBuffer, cStr_append_nul h, cStr_eq_self h]
  rw [Call.text, hname]
  rfl

/-! ## The run -/

theorem TakesEffect.of_order (horder : (s.applied ++ s.mQueue).map some = s.returned.map (Call.command dc))
    (hservices : s.mServices = s.applied.foldl effect fun _ => none) : TakesEffect dc s := by
  refine ⟨horder, hservices, fun hempty => ?_⟩
  have happlied : s.applied = s.returned.filterMap (Call.command dc) := by
    have h := congrArg (List.filterMap id) horder
    rwa [hempty, List.append_nil, List.filterMap_map, List.filterMap_map, Function.id_comp, Function.id_comp,
      List.filterMap_some] at h
  rw [hservices, happlied]

theorem takesEffect_start : TakesEffect dc start := .of_order rfl rfl

theorem TakesEffect.returns (h : TakesEffect dc s) {command : Command} (hc : c.command dc = some command)
    (hroom : s.mQueue.length < queueSize - 1) :
    TakesEffect dc { s with mQueue := write s.mQueue command, returned := s.returned ++ [c] } := by
  refine .of_order ?_ h.services
  rw [write, if_pos hroom, ← List.append_assoc, List.map_append, h.order, List.map_append, List.map_singleton,
    List.map_singleton, hc]

/-- A call that returns and whose command is not what is queued shows: the calls are not the commands any more. -/
theorem not_takesEffect (h : TakesEffect dc s) {more : List Command} (hmore : more.map some ≠ [c.command dc]) :
    ¬ TakesEffect dc { s with mQueue := s.mQueue ++ more, returned := s.returned ++ [c] } := by
  intro h'
  have horder := h'.order
  dsimp only at horder
  rw [← List.append_assoc, List.map_append, h.order, List.map_append, List.map_singleton] at horder
  exact hmore (List.append_cancel_left horder)

theorem add_eq (m : Bytes → Option ServiceDescription) (d : ServiceDescription) :
    add m d = Function.update m d.dnsName (some d) := by
  unfold add
  by_cases h : (m d.dnsName).isSome = true
  · simp only [if_pos h, remove, Function.update_self, Function.update_idem]
    rfl
  · simp only [if_neg h]

theorem TakesEffect.read (h : TakesEffect dc s) : TakesEffect dc (readCommand s) := by
  unfold readCommand
  cases hqueue : s.mQueue with
  | nil => exact h
  | cons command queue =>
    refine .of_order ?_ ?_
    · have horder := h.order
      rw [hqueue] at horder
      rw [List.append_assoc]
      exact horder
    · rw [List.foldl_append, ← h.services]
      cases command with
      | publishStart description => exact add_eq s.mServices description
      | publishStop dnsName => rfl

/-- **A step that has room** takes effect. -/
theorem TakesEffect.step (h : TakesEffect dc s) {a : Action} (hroom : HasRoom dc s a) :
    ∃ s', step dc what s a = some s' ∧ TakesEffect dc s' := by
  cases a with
  | read => exact ⟨_, rfl, h.read⟩
  | call c =>
    cases c with
    | stop n =>
      have hname : cStr n = n := cStr_eq_self hroom.2
      exact ⟨_, rpc_returns (handler_stop n), h.returns (by rw [hname]; rfl) hroom.1⟩
    | publish n f as =>
      by_cases hacc : Accepted dc (.publish n f as)
      · obtain ⟨hlt, hmillis⟩ := hroom hacc
        obtain ⟨hnul, has, d, hd⟩ := hacc
        obtain ⟨interval, hinterval⟩ := hmillis d hd
        have hhandler := handler_accepted s.mQueue hnul has hd
        rw [hinterval] at hhandler
        exact ⟨_, rpc_returns hhandler, h.returns (by rw [Call.command, hd, Option.bind_some, hinterval]; rfl) hlt⟩
      · obtain ⟨e, he⟩ := handler_refused s.mQueue hacc
        exact ⟨s, rpc_fails he, h⟩

theorem TakesEffect.not_step (h : TakesEffect dc s) {a : Action} (hroom : ¬ HasRoom dc s a) {s' : State}
    (hstep : Alf.step dc what s a = some s') : ¬ TakesEffect dc s' := by
  cases a with
  | read => exact absurd trivial hroom
  | call c =>
    have hfull : ∀ command, ¬ s.mQueue.length < queueSize - 1 → write s.mQueue command = s.mQueue ++ [] := fun _ hn =>
      (if_neg hn).trans (List.append_nil _).symm
    cases c with
    | stop n =>
      have hrpc : rpc dc what (.stop n) s = some s' := hstep
      rw [rpc_returns (handler_stop n)] at hrpc
      obtain rfl := Option.some.inj hrpc
      by_cases hlt : s.mQueue.length < queueSize - 1
      · rw [write, if_pos hlt]
        refine not_takesEffect h fun heq => hroom ⟨hlt, ?_⟩
        -- the name was cut at its NUL
        have hname : cStr n = n := by simpa [Call.command] using heq
        exact hname ▸ zero_not_mem_cStr n
      · rw [hfull _ hlt]
        exact not_takesEffect h (List.cons_ne_nil _ _).symm
    | publish n f as =>
      simp only [HasRoom, Classical.not_imp, not_and_or] at hroom
      obtain ⟨⟨hnul, has, d, hd⟩, hroom⟩ := hroom
      have hhandler := handler_accepted s.mQueue hnul has hd
      have hrpc : rpc dc what (.publish n f as) s = some s' := hstep
      cases hinterval : dc.millis d with
      | none =>
        rw [hinterval] at hhandler
        rw [rpc, rpcHandler, hhandler] at hrpc
        cases hrpc
      | some interval =>
        rw [hinterval] at hhandler
        rw [rpc_returns hhandler] at hrpc
        obtain rfl := Option.some.inj hrpc
        have hlt : ¬ s.mQueue.length < queueSize - 1 := hroom.resolve_right fun hn => hn fun d' hd' => by
          obtain rfl := Option.some.inj (hd.symm.trans hd')
          exact ⟨interval, hinterval⟩
        rw [hfull _ hlt]
        exact not_takesEffect h (List.cons_ne_nil _ _).symm

variable (dc what)

/-- **The calls that return take effect**, each once and in order, and no others do, at every point of a run of calls
and turns of the main loop, exactly when every call that is accepted finds room. -/
theorem takes_effect_iff (as : List Action) :
    (∀ bs, bs <+: as → ∃ s, run (step dc what) start bs = some s ∧ TakesEffect dc s) ↔
      Legal (step dc what) (HasRoom dc) start as :=
  forall_prefix_iff_legal (fun _ h => h) (fun _ _ h hroom => h.step hroom)
    (fun _ _ _ h hroom hstep => h.not_step hroom hstep) as start takesEffect_start

end

/-- Seconds without a fraction, as digits. -/
def wholeSeconds : DoubleCast Nat where
  lexicalCast t := if t ≠ [] ∧ t.all isDigit = true then some (digitsValue t) else none
  millis n := if n * 1000 < 2 ^ 63 then some (n * 1000 : Nat) else none

/-- More stop calls than the queue has room for, before the main loop reads it. -/
def manyStops : List Action := List.replicate queueSize (.call (.stop []))

/-- The last one returns, and is lost. -/
theorem manyStops_loses_call : ¬ ∀ bs, bs <+: manyStops →
    ∃ s, run (step wholeSeconds fun _ => []) start bs = some s ∧ TakesEffect wholeSeconds s := by
  intro h
  obtain ⟨s, hs, heffect⟩ := h manyStops List.prefix_rfl
  have hlengths : (run (step wholeSeconds fun _ => []) start manyStops).map
      (fun s => ((s.applied ++ s.mQueue).length, s.returned.length)) = some (511, 512) := by decide +kernel
  rw [hs, Option.map_some] at hlengths
  have horder := congrArg List.length heffect.order
  rw [List.length_map, List.length_map] at horder
  obtain ⟨hqueued, hreturned⟩ := Prod.mk.inj (Option.some.inj hlengths)
  rw [hqueued, hreturned] at horder
  cases horder

end Alf
end Flp
