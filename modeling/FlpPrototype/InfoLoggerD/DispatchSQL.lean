import FlpPrototype.Message.RoundTrip
import FlpPrototype.Lib.Lines
import FlpPrototype.Lib.Run
/-!
# DispatchSQL — the thread that inserts messages into the database

`InfoLoggerDispatchSQLImpl` opens a connection and prepares its insert query in `customLoop`, and inserts the lines of
each queued list in `customMessageProcess`.  Calls to the MySQL library succeed or fail as the surroundings choose; one
that the library does not allow (a bind or an execute without a live statement, a second close) has no result here.
The thread keeps to what it may call, and its flag to what it has, exactly as long as the failures are of the kinds
the code undoes, and the time of a connect and their number fit an `int` (`uses_live_statement_iff`).
-/
namespace Flp
namespace DispatchSQL

open Message

/-- What `stmt` points to: statements belong to a connection. -/
inductive Stmt where
  | null
  | initialised (connection : Nat)
  | prepared (connection : Nat)
  | closed
  deriving DecidableEq, Repr

/-- The fields of `InfoLoggerDispatchSQLImpl` and of the callback it runs in.  `db` is the number of the connection
that is open, and `connects` how many were opened. -/
structure State where
  db : Option Nat
  connects : Nat
  stmt : Stmt
  dbIsConnected : Bool
  dbLastConnectTry : Int32
  dbConnectTrials : Nat
  insertCount : UInt64
  popping : Bool
  deriving DecidableEq, Repr

/-- The statement is prepared on the open connection. -/
def State.Live (s : State) : Prop := ∃ c, s.db = some c ∧ s.stmt = .prepared c

instance (s : State) : Decidable s.Live :=
  match hdb : s.db with
  | none   => isFalse fun ⟨c, h, _⟩ => by rw [hdb] at h; cases h
  | some c => decidable_of_iff (s.stmt = .prepared c)
      ⟨fun h => ⟨c, hdb, h⟩, fun ⟨c', h, h'⟩ => by rw [hdb] at h; cases h; exact h'⟩

def start : State := ⟨none, 0, .null, false, 0, 0, 0, false⟩

/-! ## The calls -/

/-- `mysql_stmt_close`: once for a statement. -/
def stmtClose (s : State) : Option State :=
  match s.stmt with
  | .initialised _ => some { s with stmt := .closed }
  | .prepared _    => some { s with stmt := .closed }
  | .null          => none
  | .closed        => none

/-- `mysql_close`: once for a connection. -/
def mysqlClose (s : State) : Option State := s.db.map fun _ => { s with db := none }

/-- Both, as the code does when a bind or an execute fails. -/
def disconnect (s : State) : Option State := (stmtClose s).bind mysqlClose

/-- The results of `mysql_real_connect`, `mysql_stmt_init` and `mysql_stmt_prepare`. -/
structure Connecting where
  connect : Bool
  init : Bool
  prepare : Bool
  deriving DecidableEq, Repr

/-- The results of `mysql_stmt_bind_param` and `mysql_stmt_execute`. -/
structure Inserting where
  bind : Bool
  execute : Bool
  deriving DecidableEq, Repr

def sqlRetryConnect : Int := 3

/-- `customLoop`, and what it returns.  All fields of the default protocol have a type that is bound. -/
def customLoop (now : Nat) (r : Connecting) (s : State) : Option (State × Int) :=
  if s.dbIsConnected then some (s, 0)
  else
    (intPlus s.dbLastConnectTry.toInt sqlRetryConnect).bind fun next =>
      if (now : Int) < next then some (s, 0)
      else
        let s := { s with dbLastConnectTry := Int32.ofNat now }
        if !r.connect then (intAdd s.dbConnectTrials 1).map fun trials => ({ s with dbConnectTrials := trials }, 0)
        else
          let c := s.connects
          let s := { s with db := some c, connects := c + 1, dbIsConnected := true, dbConnectTrials := 0 }
          if !r.init then some ({ s with stmt := .null }, -1)
          else if !r.prepare then some ({ s with stmt := .initialised c }, -1)
          else some ({ s with stmt := .prepared c }, 0)

/-- The byte that parts the lines of a message. -/
def formFeed : UInt8 := 12

/-- The lines of a message, as the loop over `msg` and `nl` goes through them. -/
def textLines : Option CString → List Bytes
  | none   => []
  | some s => lines formFeed s.1

/-- The loop over the lines of a message, from insertion `k` on: the number of the next one, the state, and whether
the loop over the messages goes on. -/
def insertLines (r : Nat → Inserting) : Nat → List Bytes → State → Option (Nat × State × Bool)
  | k, [], s      => some (k, s, true)
  | k, _ :: ls, s =>
    if ¬ s.Live then none
    else if !(r k).bind then (disconnect s).map fun s => (k + 1, s, false)
    else if !(r k).execute then (disconnect s).map fun s => (k + 1, { s with dbIsConnected := false }, true)
    else insertLines r (k + 1) ls { s with insertCount := s.insertCount + 1 }

variable {D : Type}

/-- The loop over the messages, from insertion `k` on, and what `customMessageProcess` returns. -/
def insertMessages (r : Nat → Inserting) : Nat → List (Msg D) → State → Option (State × Int)
  | _, [], s      => some (s, 0)
  | k, m :: ms, s => (insertLines r k (textLines (messageText m)) s).bind fun (k, s, goesOn) =>
      if goesOn then insertMessages r k ms s else some (s, -1)

def customMessageProcess (lmsg : List (Msg D)) (r : Nat → Inserting) (s : State) : Option (State × Int) :=
  insertMessages r 0 lmsg s

/-- What the thread does: `customLoop` begins a callback, and each list popped from the queue is processed. -/
inductive Step (D : Type) where
  | customLoop (now : Nat) (r : Connecting)
  | customMessageProcess (lmsg : List (Msg D)) (r : Nat → Inserting)

/-- A step of `threadCallback`.  The callback ends behind a `customLoop` that fails: no list is popped before the
next one. -/
def step (s : State) : Step D → Option State
  | .customLoop now r              => (customLoop now r s).map fun (s, err) => { s with popping := err == 0 }
  | .customMessageProcess lmsg r =>
    if s.popping then (customMessageProcess lmsg r s).map Prod.fst else some s

/-! ## What is asked of the failures -/

/-- The flag tells whether there is a live statement. -/
def Flagged (s : State) : Prop := s.dbIsConnected = true ↔ s.Live

def lineCounts (lmsg : List (Msg D)) : List Nat := lmsg.map fun m => (textLines (messageText m)).length

theorem lineCounts_cons (m : Msg D) (ms : List (Msg D)) :
    lineCounts (m :: ms) = (textLines (messageText m)).length :: lineCounts ms := rfl

/-- How many lines stand before the last message that has any. -/
def linesBeforeLast : List Nat → Nat
  | []      => 0
  | n :: ns => if ns.sum = 0 then 0 else n + linesBeforeLast ns

/-- As long as no execute fails every bind succeeds, and the first execute that fails is one of the last message that
has lines. -/
def FailsLast (r : Nat → Inserting) (counts : List Nat) : Prop :=
  ∀ k < counts.sum, (∀ j < k, (r j).execute = true) →
    (r k).bind = true ∧ (linesBeforeLast counts ≤ k ∨ (r k).execute = true)

/-- Without a connection, a `customLoop` overflows nothing, and one that is opened gets its statement. -/
structure Opens (now : Nat) (r : Connecting) (s : State) : Prop where
  next : s.dbLastConnectTry.toInt + sqlRetryConnect ≤ intMax
  trials : s.dbLastConnectTry.toInt + sqlRetryConnect ≤ now → r.connect = false → s.dbConnectTrials < intMax
  stmt : s.dbLastConnectTry.toInt + sqlRetryConnect ≤ now → r.connect = true → r.init = true ∧ r.prepare = true

/-- The failures the code undoes: of a connect, and of an execute with no line of another message behind it.  Without
a connection there is nothing to insert. -/
def Undone (s : State) : Step D → Prop
  | .customLoop now r              => s.dbIsConnected = false → Opens now r s
  | .customMessageProcess lmsg r =>
    s.popping = true → if s.dbIsConnected then FailsLast r (lineCounts lmsg) else (lineCounts lmsg).sum = 0

/-! ## The loops -/

theorem disconnect_of_live {s : State} (h : s.Live) : disconnect s = some { s with stmt := .closed, db := none } := by
  obtain ⟨c, hdb, hstmt⟩ := h
  unfold disconnect stmtClose
  rw [hstmt, Option.bind_some, mysqlClose, hdb]
  rfl

theorem not_live_of_closed {s : State} (h : s.db = none) : ¬ s.Live := by
  rintro ⟨c, hdb, -⟩
  rw [h] at hdb
  cases hdb

/-- **The lines of a message**, with a live statement: all are inserted, or the first failure is of a bind, or of an
execute. -/
theorem insertLines_cases (r : Nat → Inserting) : ∀ (ls : List Bytes) (k : Nat) (s : State), s.Live →
    (∃ s₁, insertLines r k ls s = some (k + ls.length, s₁, true) ∧ s₁.Live ∧ s₁.dbIsConnected = s.dbIsConnected ∧
      ∀ i < ls.length, (r (k + i)).bind = true ∧ (r (k + i)).execute = true) ∨
    (∃ i < ls.length, (∀ j < i, (r (k + j)).execute = true) ∧ (r (k + i)).bind = false ∧
      ∃ k' s₁, insertLines r k ls s = some (k', s₁, false) ∧ ¬ s₁.Live ∧ s₁.dbIsConnected = s.dbIsConnected) ∨
    (∃ i < ls.length, (∀ j ≤ i, (r (k + j)).bind = true) ∧ (r (k + i)).execute = false ∧
      ∃ k' s₁, insertLines r k ls s = some (k', s₁, true) ∧ ¬ s₁.Live ∧ s₁.dbIsConnected = false)
  | [], k, s, hl => .inl ⟨s, rfl, hl, rfl, fun i hi => absurd hi (Nat.not_lt_zero i)⟩
  | l :: ls, k, s, hl => by
    have shift : ∀ j, k + 1 + j = k + (j + 1) := fun j => by omega
    rw [insertLines, if_neg (not_not.2 hl), disconnect_of_live hl]
    cases hb : (r k).bind with
    | false =>
      refine .inr (.inl ⟨0, Nat.succ_pos _, fun j hj => absurd hj (Nat.not_lt_zero j), hb, _, _, rfl, ?_, rfl⟩)
      exact not_live_of_closed rfl
    | true =>
      rw [if_neg (by decide)]
      cases he : (r k).execute with
      | false =>
        refine .inr (.inr ⟨0, Nat.succ_pos _, fun j hj => ?_, he, _, _, rfl, not_live_of_closed rfl, rfl⟩)
        obtain rfl := Nat.le_zero.1 hj
        exact hb
      | true =>
        rw [if_neg (by decide)]
        have hl' : State.Live { s with insertCount := s.insertCount + 1 } := hl
        rcases insertLines_cases r ls (k + 1) _ hl' with ⟨s₁, h, hl₁, hflag, hall⟩ | ⟨i, hi, hpre, hbind, k', s₁, h⟩ |
          ⟨i, hi, hpre, hexec, k', s₁, h⟩
        · refine .inl ⟨s₁, ?_, hl₁, hflag, fun i hi => ?_⟩
          · rw [h, List.length_cons, shift]
          · cases i with
            | zero => exact ⟨hb, he⟩
            | succ i => rw [← shift]; exact hall i (Nat.lt_of_succ_lt_succ hi)
        · refine .inr (.inl ⟨i + 1, Nat.succ_lt_succ hi, fun j hj => ?_, by rw [← shift]; exact hbind, k', s₁, h⟩)
          cases j with
          | zero => exact he
          | succ j => rw [← shift]; exact hpre j (Nat.lt_of_succ_lt_succ hj)
        · refine .inr (.inr ⟨i + 1, Nat.succ_lt_succ hi, fun j hj => ?_, by rw [← shift]; exact hexec, k', s₁, h⟩)
          cases j with
          | zero => exact hb
          | succ j => rw [← shift]; exact hpre j (Nat.le_of_succ_le_succ hj)

theorem insertMessages_of_not_live (r : Nat → Inserting) {s : State} (h : ¬ s.Live) : ∀ (ms : List (Msg D)) (k : Nat),
    insertMessages r k ms s = if (lineCounts ms).sum = 0 then some (s, 0) else none
  | [], k => rfl
  | m :: ms, k => by
    rw [insertMessages, lineCounts_cons, List.sum_cons]
    cases htext : textLines (messageText m) with
    | nil =>
      rw [insertLines, Option.bind_some, List.length_nil, Nat.zero_add]
      exact insertMessages_of_not_live r h ms k
    | cons l ls =>
      rw [insertLines, if_pos h, List.length_cons, if_neg (by omega)]
      rfl

/-- The first message is inserted: the failures are those of the others. -/
theorem failsLast_cons {r : Nat → Inserting} {n : Nat} {ns : List Nat}
    (h : ∀ i < n, (r i).bind = true ∧ (r i).execute = true) :
    FailsLast r (n :: ns) ↔ FailsLast (fun j => r (n + j)) ns := by
  unfold FailsLast
  rw [List.sum_cons, linesBeforeLast]
  constructor
  · intro hf k hk hpre
    obtain ⟨hbind, hlast⟩ := hf (n + k) (by omega) fun j hj => by
      by_cases hjn : j < n
      · exact (h j hjn).2
      · obtain ⟨i, rfl⟩ := Nat.exists_eq_add_of_le (Nat.le_of_not_lt hjn)
        exact hpre i (Nat.lt_of_add_lt_add_left hj)
    refine ⟨hbind, hlast.imp_left fun hle => ?_⟩
    rw [if_neg (by omega)] at hle
    omega
  · intro hf k hk hpre
    by_cases hkn : k < n
    · exact ⟨(h k hkn).1, .inr (h k hkn).2⟩
    · obtain ⟨j, rfl⟩ := Nat.exists_eq_add_of_le (Nat.le_of_not_lt hkn)
      obtain ⟨hbind, hlast⟩ := hf j (by omega) fun i hi => hpre (n + i) (by omega)
      refine ⟨hbind, hlast.imp_left fun hle => ?_⟩
      split <;> omega

/-- An execute of the first message fails: no other message may have lines. -/
theorem failsLast_execute {r : Nat → Inserting} {n i : Nat} {ns : List Nat} (hi : i < n)
    (hbind : ∀ j ≤ i, (r j).bind = true) (hexec : (r i).execute = false) : FailsLast r (n :: ns) ↔ ns.sum = 0 := by
  unfold FailsLast
  rw [List.sum_cons, linesBeforeLast]
  constructor
  · intro hf
    by_contra hne
    -- the first execute that fails
    have hex : ∃ j, (r j).execute = false := ⟨i, hexec⟩
    have hle : Nat.find hex ≤ i := Nat.find_min' hex hexec
    obtain ⟨-, hlast⟩ := hf (Nat.find hex) (by omega) fun j hj => by
      simpa using Nat.find_min hex hj
    rw [if_neg hne] at hlast
    rcases hlast with hlast | hlast
    · omega
    · rw [Nat.find_spec hex] at hlast
      cases hlast
  · intro h0 k hk hpre
    have hki : k ≤ i := by
      by_contra hlt
      have := hpre i (Nat.lt_of_not_le hlt)
      rw [hexec] at this
      cases this
    rw [if_pos h0]
    exact ⟨hbind k hki, .inl (Nat.zero_le k)⟩

/-- **The loop over the messages**, with a live statement and the flag set. -/
theorem insertMessages_live (r : Nat → Inserting) : ∀ (ms : List (Msg D)) (k : Nat) (s : State), s.Live →
    s.dbIsConnected = true →
    ((∃ s' ret, insertMessages r k ms s = some (s', ret) ∧ Flagged s') ↔ FailsLast (fun j => r (k + j)) (lineCounts ms))
  | [], k, s, hl, hflag => by
    refine ⟨fun _ j hj => absurd hj (Nat.not_lt_zero j), fun _ => ⟨s, 0, rfl, fun _ => hl, fun _ => hflag⟩⟩
  | m :: ms, k, s, hl, hflag => by
    rw [insertMessages, lineCounts_cons]
    rcases insertLines_cases r (textLines (messageText m)) k s hl with ⟨s₁, h, hl₁, hflag₁, hall⟩ |
      ⟨i, hi, hpre, hbind, k', s₁, h, hl₁, hflag₁⟩ | ⟨i, hi, hbind, hexec, k', s₁, h, hl₁, hflag₁⟩
    · rw [h, Option.bind_some, failsLast_cons hall]
      simp only [← Nat.add_assoc]
      exact insertMessages_live r ms _ s₁ hl₁ (hflag₁.trans hflag)
    · rw [h, Option.bind_some]
      constructor
      · rintro ⟨s', ret, hs', hf⟩
        obtain ⟨rfl, -⟩ := Prod.mk.inj (Option.some.inj hs')
        exact absurd (hf.1 (hflag₁.trans hflag)) hl₁
      · intro hf
        have := (hf i (by rw [List.sum_cons]; omega) hpre).1
        rw [hbind] at this
        cases this
    · rw [h, Option.bind_some, failsLast_execute hi hbind hexec]
      dsimp only
      rw [if_pos rfl, insertMessages_of_not_live r hl₁]
      constructor
      · rintro ⟨s', ret, hs', -⟩
        by_contra hne
        rw [if_neg hne] at hs'
        cases hs'
      · intro h0
        refine ⟨s₁, 0, if_pos h0, fun hf => ?_, fun hf => absurd hf hl₁⟩
        rw [hflag₁] at hf
        cases hf

/-! ## The thread -/

/-- A `customLoop` has a result and keeps the flag right exactly when it overflows nothing, and a connection that opens
gets its statement. -/
theorem customLoop_iff (now : Nat) (r : Connecting) {s : State} (hs : Flagged s) :
    (∃ s' err, customLoop now r s = some (s', err) ∧ Flagged s') ↔ (s.dbIsConnected = false → Opens now r s) := by
  have flagged : ∀ {s' : State}, s'.dbIsConnected = true → (Flagged s' ↔ s'.Live) := fun h =>
    ⟨fun hf => hf.1 h, fun hl => ⟨fun _ => hl, fun _ => h⟩⟩
  unfold customLoop
  by_cases hflag : s.dbIsConnected = true
  · rw [if_pos hflag, hflag]
    exact ⟨fun _ hc => absurd hc (by decide), fun _ => ⟨s, 0, rfl, hs⟩⟩
  have hoff : s.dbIsConnected = false := Bool.eq_false_iff.2 hflag
  rw [if_neg hflag]
  by_cases hnext : s.dbLastConnectTry.toInt + sqlRetryConnect ≤ intMax
  · have hlow := s.dbLastConnectTry.le_toInt
    rw [intPlus_of_le (by unfold sqlRetryConnect; omega) hnext, Option.bind_some]
    by_cases hnow : (now : Int) < s.dbLastConnectTry.toInt + sqlRetryConnect
    · rw [if_pos hnow]
      exact ⟨fun _ _ => ⟨hnext, fun hle => absurd hnow (Int.not_lt.2 hle), fun hle => absurd hnow (Int.not_lt.2 hle)⟩,
        fun _ => ⟨s, 0, rfl, hs⟩⟩
    rw [if_neg hnow]
    have hle : s.dbLastConnectTry.toInt + sqlRetryConnect ≤ now := Int.not_lt.1 hnow
    obtain ⟨connect, init, prepare⟩ := r
    cases connect with
    | false =>
      -- the connect fails, and is counted
      by_cases htrials : s.dbConnectTrials < intMax
      · have hadd : intAdd s.dbConnectTrials 1 = some (s.dbConnectTrials + 1) := intAdd_of_le htrials
        simp only [hadd]
        exact ⟨fun _ _ => ⟨hnext, fun _ _ => htrials, fun _ hc => absurd hc Bool.false_ne_true⟩,
          fun _ => ⟨_, _, rfl, hs⟩⟩
      · refine ⟨?_, fun h => absurd ((h hoff).trials hle rfl) htrials⟩
        rintro ⟨s', err, hs', -⟩
        obtain ⟨trials, hadd, -⟩ := Option.map_eq_some_iff.1 hs'
        exact absurd (Nat.lt_of_succ_le (intAdd_eq_some hadd).2) htrials
    | true =>
      cases init with
      | false =>
        refine ⟨?_, fun h => absurd ((h hoff).stmt hle rfl).1 Bool.false_ne_true⟩
        rintro ⟨s', err, hs', hf⟩
        cases hs'
        obtain ⟨c, -, hstmt⟩ := (flagged rfl).1 hf
        cases hstmt
      | true =>
        cases prepare with
        | false =>
          refine ⟨?_, fun h => absurd ((h hoff).stmt hle rfl).2 (by decide)⟩
          rintro ⟨s', err, hs', hf⟩
          cases hs'
          obtain ⟨c, -, hstmt⟩ := (flagged rfl).1 hf
          cases hstmt
        | true =>
          exact ⟨fun _ _ => ⟨hnext, fun _ hc => absurd hc.symm Bool.false_ne_true, fun _ _ => ⟨rfl, rfl⟩⟩,
            fun _ => ⟨_, _, rfl, (flagged rfl).2 ⟨s.connects, rfl, rfl⟩⟩⟩
  · refine ⟨?_, fun h => absurd (h hoff).next hnext⟩
    rintro ⟨s', err, hs', -⟩
    rw [intPlus_overflow (Int.not_le.1 hnext)] at hs'
    cases hs'

/-- A list is processed with the flag right behind it exactly when its failures are undone. -/
theorem customMessageProcess_iff (lmsg : List (Msg D)) (r : Nat → Inserting) {s : State} (hs : Flagged s) :
    (∃ s' ret, customMessageProcess lmsg r s = some (s', ret) ∧ Flagged s') ↔
      if s.dbIsConnected then FailsLast r (lineCounts lmsg) else (lineCounts lmsg).sum = 0 := by
  unfold customMessageProcess
  by_cases hflag : s.dbIsConnected = true
  · have hr : r = fun j => r (0 + j) := funext fun j => by rw [Nat.zero_add]
    rw [if_pos hflag, insertMessages_live r lmsg 0 s (hs.1 hflag) hflag, ← hr]
  · rw [if_neg hflag, insertMessages_of_not_live r fun hl => hflag (hs.2 hl)]
    constructor
    · rintro ⟨s', ret, hs', -⟩
      by_contra hne
      rw [if_neg hne] at hs'
      cases hs'
    · intro h0
      exact ⟨s, 0, if_pos h0, hs⟩

/-- A step has a result with the flag right exactly when its failures are undone. -/
theorem undone_iff (s : State) (a : Step D) (hs : Flagged s) :
    Undone s a ↔ ∃ s', step s a = some s' ∧ Flagged s' := by
  cases a with
  | customLoop now r =>
    rw [Undone, ← customLoop_iff now r hs]
    constructor
    · rintro ⟨s', err, hs', h⟩
      exact ⟨{ s' with popping := err == 0 }, by rw [step, hs']; rfl, h⟩
    · rintro ⟨s', hs', h⟩
      obtain ⟨⟨s₁, err⟩, h₁, rfl⟩ := Option.map_eq_some_iff.1 hs'
      exact ⟨s₁, err, h₁, h⟩
  | customMessageProcess lmsg r =>
    rw [Undone, step, ← customMessageProcess_iff lmsg r hs]
    by_cases hpop : s.popping = true
    · rw [if_pos hpop]
      constructor
      · intro h
        obtain ⟨s', ret, hs', hf⟩ := h hpop
        exact ⟨s', by rw [hs']; rfl, hf⟩
      · rintro ⟨s', hs', hf⟩ -
        obtain ⟨⟨s₁, ret⟩, h₁, rfl⟩ := Option.map_eq_some_iff.1 hs'
        exact ⟨s₁, ret, h₁, hf⟩
    · rw [if_neg hpop]
      exact ⟨fun _ => ⟨s, rfl, hs⟩, fun _ h => absurd h hpop⟩

/-- **The thread uses only a live statement, closes nothing twice, and its flag tells whether there is one**, at every
point of a run, exactly when each failure of the run is one the code undoes. -/
theorem uses_live_statement_iff (as : List (Step D)) :
    (∀ bs, bs <+: as → ∃ s, run step start bs = some s ∧ (s.dbIsConnected = true ↔ s.Live)) ↔
      Legal step Undone start as :=
  forall_prefix_iff_legal (fun _ h => h) (fun s a hs => (undone_iff s a hs).1)
    (fun s a s' hs hn h hs' => hn ((undone_iff s a hs).2 ⟨s', h, hs'⟩)) as start ⟨nofun, nofun⟩

/-- The database is down when the thread starts, and a message comes. -/
def downAtStart : List (Step Nat) :=
  [.customLoop 1000 ⟨false, true, true⟩,
    .customMessageProcess [textMsg (CString.at (ascii ['h', 'i']))] fun _ => ⟨true, true⟩]

/-- Its line is bound to a statement that was never made. -/
theorem downAtStart_binds_null :
    ¬ ∀ bs, bs <+: downAtStart → ∃ s, run step start bs = some s ∧ (s.dbIsConnected = true ↔ s.Live) := by
  intro h
  obtain ⟨s, hs, -⟩ := h downAtStart List.prefix_rfl
  have hnone : run step start downAtStart = none := by decide +kernel
  rw [hnone] at hs
  cases hs

end DispatchSQL
end Flp
