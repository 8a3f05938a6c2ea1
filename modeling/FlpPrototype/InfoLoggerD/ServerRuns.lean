import FlpPrototype.InfoLoggerD.ServerLoop
import FlpPrototype.Lib.Places
/-!
# ServerRuns — every list reaches its dispatchers once, or is accounted for

Over every run of the server and the threads of its dispatchers, with no step without a result (`doLoop_accounts`): each
file that was decoded is kept by one database dispatcher or is lost, in which case each of them was asked three times
and was full each time; a dispatcher for the database processes the lists kept for it, all in order and none twice; a
base dispatcher is given every list, and processes in order all but those for which its queue was full.
-/
namespace Flp
namespace InfoLoggerServer
namespace Server

variable {α : Type} {size nBase n : Nat} {messages : α → Nat} {s s' : Server α} {m : α} {k : Nat}

/-! ## The invariant -/

/-- The lists a database dispatcher took. -/
def keptBy (s : Server α) (k : Nat) : List α := s.outcomes.filterMap (Outcome.keptBy k)

/-- The lists a base dispatcher was given, and those it took. -/
def givenTo (s : Server α) (k : Nat) : List α := s.offers.filterMap (Offer.givenTo k)
def takenBy (s : Server α) (k : Nat) : List α := s.offers.filterMap (Offer.takenBy k)

/-- **A list that was lost**: each of the dispatchers was asked three times, and full. -/
def Full (size n : Nat) (full : List (Nat × Nat)) : Prop :=
  (∀ p ∈ full, size ≤ p.2) ∧ full.length = n * 3 ∧ ∀ k < n, (full.map Prod.fst).count k = 3

/-- What does not depend on where the loop is, `current` being the list at hand. -/
structure Rest (size n : Nat) (messages : α → Nat) (current : List α) (s : Server α) : Prop where
  length : s.dispatchEnginesDB.length = n
  ix : 0 < n → s.dbRoundRobinIx < n
  decoded : s.decoded = s.outcomes.filterMap Outcome.list ++ current
  kept : ∀ m k, .kept m k ∈ s.outcomes → k < n
  lost : ∀ m full, .lost m full ∈ s.outcomes → Full size n full
  count : s.msgCount = UInt64.ofNat ((s.outcomes.filterMap Outcome.list).map messages).sum

/-- Dispatchers: the calls under way, and the lists they took. -/
def Engines (size : Nat) (call : Nat → Option (α × Pushing)) (took : Nat → List α) (engines : List (Dispatch α)) :
    Prop :=
  ∀ (k : Nat) d, engines[k]? = some d → Dispatch.Ok size (call k) (took k) d

/-- The answers of the base dispatchers, each of which was given these lists by now: it took a list, or was full. -/
structure Offers (size : Nat) (given : Nat → List α) (s : Server α) : Prop where
  given : ∀ k < s.dispatchEngines.length, s.givenTo k = given k
  full : ∀ o ∈ s.offers, ∀ held, o.full = some held → size ≤ held

/-- No call is under way. -/
def quiet (_ : Nat) : Option (α × Pushing) := none

/-- A call is under way on one dispatcher. -/
def busy (k : Nat) (m : α) (call : Pushing) (j : Nat) : Option (α × Pushing) := if j = k then some (m, call) else none

/-- The tries so far, in turn. -/
structure Tried (size n : Nat) (s : Server α) : Prop where
  full : ∀ p ∈ s.full, size ≤ p.2
  turns : ∃ r, s.full.map Prod.fst = turns n r s.full.length ∧ (r + s.full.length) % n = s.dbRoundRobinIx

/-- **The server**, with the calls under way. -/
structure Core (size n : Nat) (messages : α → Nat) (current : List α) (call callDB : Nat → Option (α × Pushing))
    (given : Nat → List α) (s : Server α) : Prop where
  rest : Rest size n messages current s
  base : Engines size call s.takenBy s.dispatchEngines
  offers : Offers size given s
  db : Engines size callDB s.keptBy s.dispatchEnginesDB

/-- The lists given to the base dispatchers when `k` has its turn. -/
def givenAt (s : Server α) (k j : Nat) : List α := if j < k then s.decoded else s.decoded.dropLast

def At (size n : Nat) (messages : α → Nat) (s : Server α) : Phase α → Prop
  | .idle           => Core size n messages [] quiet quiet (fun _ => s.decoded) s ∧ s.full = []
  | .done           => Core size n messages [] quiet quiet (fun _ => s.decoded) s ∧ s.full = []
  | .base m k call  =>
      Core size n messages [m] (busy k m call) quiet (s.givenAt k) s ∧ s.full = [] ∧ k < s.dispatchEngines.length
  | .db m nTry call =>
      Core size n messages [m] quiet (busy s.dbRoundRobinIx m call) (fun _ => s.decoded) s ∧ Tried size n s ∧
      nTry = s.full.length + 1 ∧ nTry ≤ n * 3

def Inv (size n : Nat) (messages : α → Nat) (s : Server α) : Prop := At size n messages s s.phase

/-! ## One dispatcher -/

theorem each_set {engines : List (Dispatch α)} {P Q : Nat → Dispatch α → Prop} {d : Dispatch α}
    (h : ∀ (j : Nat) d, engines[j]? = some d → P j d) (hk : Q k d) (hother : ∀ j d, j ≠ k → P j d → Q j d) :
    ∀ (j : Nat) x, (engines.set k d)[j]? = some x → Q j x := by
  intro j x hx
  rcases getElem?_set_cases hx with ⟨rfl, rfl⟩ | ⟨hne, hx⟩
  · exact hk
  · exact hother j x hne (h j x hx)

theorem busy_self (k : Nat) (m : α) (call : Pushing) : busy k m call k = some (m, call) := if_pos rfl

theorem busy_other {j : Nat} (h : j ≠ k) (m : α) (call : Pushing) : busy k m call j = none := if_neg h

/-- A call on a dispatcher begins, goes on or ends. -/
theorem Engines.set {engines : List (Dispatch α)} {call call' : Nat → Option (α × Pushing)} {took took' : Nat → List α}
    {d : Dispatch α} (h : Engines size call took engines) (hk : Dispatch.Ok size (call' k) (took' k) d)
    (hcall : ∀ j, j ≠ k → call' j = call j) (htook : ∀ j, j ≠ k → took' j = took j) :
    Engines size call' took' (engines.set k d) :=
  each_set h hk fun j x hj hx => by
    rw [hcall j hj, htook j hj]
    exact hx

/-! ## Tries -/

theorem nextIx_eq (hlength : s.dispatchEnginesDB.length = n) (hlt : s.dbRoundRobinIx < n) :
    s.nextIx = (s.dbRoundRobinIx + 1) % n := by
  unfold nextIx
  rw [hlength]
  by_cases hge : s.dbRoundRobinIx + 1 ≥ n
  · rw [if_pos hge, show s.dbRoundRobinIx + 1 = n by omega, Nat.mod_self]
  · rw [if_neg hge, Nat.mod_eq_of_lt (by omega)]

/-- The first try is due. -/
theorem Tried.first (hfull : s.full = []) (hix : 0 < n → s.dbRoundRobinIx < n) : Tried size n s where
  full := by
    rw [hfull]
    exact fun p hp => absurd hp List.not_mem_nil
  turns := by
    refine ⟨s.dbRoundRobinIx, by rw [hfull]; rfl, ?_⟩
    rw [hfull]
    rcases Nat.eq_zero_or_pos n with rfl | hpos
    · exact Nat.mod_zero _
    · exact Nat.mod_eq_of_lt (hix hpos)

/-- All tries were made. -/
theorem Tried.lost (h : Tried size n s) (hlength : s.full.length = n * 3) : Full size n s.full := by
  obtain ⟨r, hturns, -⟩ := h.turns
  refine ⟨h.full, hlength, fun k hk => ?_⟩
  rw [hturns, hlength]
  exact count_turns hk r 3

theorem filterMap_concat {β : Type} (f : β → Option α) (l : List β) (b : β) :
    (l ++ [b]).filterMap f = l.filterMap f ++ (f b).toList := by
  rw [List.filterMap_append]
  cases h : f b <;> simp [h]

theorem keptBy_append (s : Server α) (o : Outcome α) (k : Nat) :
    (s.outcomes ++ [o]).filterMap (Outcome.keptBy k) = s.keptBy k ++ (o.keptBy k).toList := filterMap_concat ..

/-- **A file is dealt with.** -/
theorem Rest.finish {o : Outcome α} (h : Rest size n messages [m] s) (ho : o.list = some m)
    (hkept : ∀ m' k, o = .kept m' k → k < n) (hlost : ∀ m' full, o = .lost m' full → Full size n full) :
    Rest size n messages [] (s.finish messages m o) where
  length := h.length
  ix := h.ix
  decoded := by
    show s.decoded = (s.outcomes ++ [o]).filterMap Outcome.list ++ []
    rw [List.filterMap_append, h.decoded, List.append_nil]
    simp [ho]
  kept := fun m' k hmem =>
    (List.mem_append.1 hmem).elim (h.kept m' k) fun hmem => hkept m' k (List.mem_singleton.1 hmem).symm
  lost := fun m' full hmem => (List.mem_append.1 hmem).elim (h.lost m' full) fun hmem =>
    hlost m' full (List.mem_singleton.1 hmem).symm
  count := by
    show s.msgCount + UInt64.ofNat (messages m) =
      UInt64.ofNat (((s.outcomes ++ [o]).filterMap Outcome.list).map messages).sum
    rw [List.filterMap_append, List.map_append, List.sum_append, UInt64.ofNat_add, ← h.count]
    simp [ho]

/-- **A try begins**, or the list is lost. -/
theorem begin_try (h : Rest size n messages [m] s) (hbase : Engines size quiet s.takenBy s.dispatchEngines)
    (hoffers : Offers size (fun _ => s.decoded) s) (hdb : Engines size quiet s.keptBy s.dispatchEnginesDB)
    (htried : Tried size n s) (hle : s.full.length ≤ n * 3) :
    ∃ s', s.beginTry size messages m (s.full.length + 1) = some s' ∧ Inv size n messages s' := by
  unfold beginTry
  rw [h.length]
  by_cases htry : s.full.length + 1 ≤ n * 3
  · rw [if_pos htry]
    have hlt : s.dbRoundRobinIx < s.dispatchEnginesDB.length := by
      rw [h.length]
      exact h.ix (by omega)
    obtain ⟨d, hd⟩ : ∃ d, s.dispatchEnginesDB[s.dbRoundRobinIx]? = some d := ⟨_, List.getElem?_eq_getElem hlt⟩
    obtain ⟨d', hcall, hok, -⟩ := (hdb _ d hd).begin m
    refine ⟨_, by rw [hd, Option.bind_some, hcall]; rfl, ?_⟩
    refine ⟨⟨⟨?_, h.ix, h.decoded, h.kept, h.lost, h.count⟩, hbase, ⟨hoffers.given, hoffers.full⟩, ?_⟩,
      ⟨htried.full, htried.turns⟩, rfl, htry⟩
    · exact (List.length_set ..).trans h.length
    · refine hdb.set ?_ (fun j hj => busy_other hj m .isFull) fun _ _ => rfl
      rw [busy_self]
      exact hok
  · rw [if_neg htry]
    have hfull := htried.lost (by omega)
    refine ⟨_, rfl, ⟨h.finish rfl (fun _ _ e => by cases e) (fun m' full e => ?_), hbase,
      ⟨hoffers.given, hoffers.full⟩, fun j d hd => ?_⟩, rfl⟩
    · cases e
      exact hfull
    · have hsame : (s.finish messages m (.lost m s.full)).keptBy j = s.keptBy j := by
        unfold finish
        exact (keptBy_append s _ j).trans (List.append_nil _)
      rw [hsame]
      exact hdb j d hd

/-- **A list goes to the next base dispatcher**, or to the database. -/
theorem begin_base (h : Rest size n messages [m] s) (hbase : Engines size quiet s.takenBy s.dispatchEngines)
    (hoffers : Offers size (s.givenAt k) s) (hdb : Engines size quiet s.keptBy s.dispatchEnginesDB)
    (hfull : s.full = []) :
    ∃ s', s.beginBase size messages m k = some s' ∧ Inv size n messages s' := by
  unfold beginBase
  cases hk : s.dispatchEngines[k]? with
  | some d =>
    obtain ⟨d', hcall, hok', -⟩ := (hbase k d hk).begin m
    refine ⟨_, by simp only [hcall]; rfl, ?_⟩
    refine ⟨⟨⟨h.length, h.ix, h.decoded, h.kept, h.lost, h.count⟩, ?_, ⟨?_, hoffers.full⟩, hdb⟩, hfull, ?_⟩
    · refine hbase.set ?_ (fun j hj => busy_other hj m .isFull) fun _ _ => rfl
      rw [busy_self]
      exact hok'
    · intro j hj
      exact hoffers.given j (by rwa [List.length_set] at hj)
    · rw [List.length_set]
      exact (List.getElem?_eq_some_iff.1 hk).1
  | none =>
    have hoffers' : Offers size (fun _ => s.decoded) s := by
      refine ⟨fun j hj => ?_, hoffers.full⟩
      rw [hoffers.given j hj, givenAt, if_pos (Nat.lt_of_lt_of_le hj (List.getElem?_eq_none_iff.1 hk))]
    have htry := begin_try h hbase hoffers' hdb (.first hfull h.ix) (by rw [hfull]; exact Nat.zero_le _)
    rw [hfull] at htry
    exact htry

/-! ## Steps -/

theorem Rest.dropLast (h : Rest size n messages [m] s) : s.decoded.dropLast ++ [m] = s.decoded := by
  rw [h.decoded, List.dropLast_concat]

theorem givenAt_succ {j : Nat} (hj : j ≠ k) (s : Server α) : s.givenAt (k + 1) j = s.givenAt k j :=
  if_congr (by omega) rfl rfl

theorem givenAt_self (s : Server α) (k : Nat) : s.givenAt k k = s.decoded.dropLast := if_neg (Nat.lt_irrefl k)

theorem givenAt_behind (s : Server α) (k : Nat) : s.givenAt (k + 1) k = s.decoded := if_pos (Nat.lt_succ_self k)

theorem push_base {call : Pushing} (hphase : s.phase = .base m k call) : s.push size messages =
    s.dispatchEngines[k]?.bind fun d => (d.pushMessage size m call).bind fun r =>
      match r.2 with
      | .goesOn call => some { s with dispatchEngines := s.dispatchEngines.set k r.1, phase := .base m k call }
      | .returns ok  => Server.beginBase size messages { s with
          dispatchEngines := s.dispatchEngines.set k r.1
          offers := s.offers ++ [⟨k, m, if ok then none else some r.1.held⟩] } m (k + 1) := by
  cases s
  cases hphase
  rfl

theorem push_db {nTry : Nat} {call : Pushing} (hphase : s.phase = .db m nTry call) : s.push size messages =
    s.dispatchEnginesDB[s.dbRoundRobinIx]?.bind fun d => (d.pushMessage size m call).bind fun r =>
      let s := { s with dispatchEnginesDB := s.dispatchEnginesDB.set s.dbRoundRobinIx r.1 }
      match r.2 with
      | .goesOn call    => some { s with phase := .db m nTry call }
      | .returns true   => some ({ s with dbRoundRobinIx := s.nextIx }.finish messages m (.kept m s.dbRoundRobinIx))
      | .returns false  =>
        { s with dbRoundRobinIx := s.nextIx, full := s.full ++ [(s.dbRoundRobinIx, r.1.held)] }.beginTry size messages m
          (nTry + 1) := by
  cases s
  cases hphase
  rfl

/-- What an answer adds to the lists a base dispatcher was given, and to those it took. -/
theorem givenTo_answer (s : Server α) (o : Offer α) (j : Nat) :
    (s.offers ++ [o]).filterMap (Offer.givenTo j) = s.givenTo j ++ (o.givenTo j).toList := filterMap_concat ..

theorem takenBy_answer (s : Server α) (o : Offer α) (j : Nat) :
    (s.offers ++ [o]).filterMap (Offer.takenBy j) = s.takenBy j ++ (o.takenBy j).toList := filterMap_concat ..

theorem givenTo_other {o : Offer α} {j : Nat} (h : j ≠ o.engine) : o.givenTo j = none := if_neg (Ne.symm h)

theorem takenBy_other {o : Offer α} {j : Nat} (h : j ≠ o.engine) : o.takenBy j = none := by
  unfold Offer.takenBy
  split
  · exact givenTo_other h
  · rfl

/-- **A base dispatcher answers**: the next one's turn, or the database's. -/
theorem inv_base_returns {call : Pushing} {d' : Dispatch α} {o : Offer α} (hrest : Rest size n messages [o.msgList] s)
    (hbase : Engines size (busy o.engine o.msgList call) s.takenBy s.dispatchEngines)
    (hoffers : Offers size (s.givenAt o.engine) s) (hdb : Engines size quiet s.keptBy s.dispatchEnginesDB)
    (hnone : s.full = []) (hok : Dispatch.Ok size none (s.takenBy o.engine ++ (o.takenBy o.engine).toList) d')
    (hfull : ∀ held, o.full = some held → size ≤ held) :
    ∃ s', Server.beginBase size messages { s with
        dispatchEngines := s.dispatchEngines.set o.engine d',
        offers := s.offers ++ [o] } o.msgList (o.engine + 1) = some s' ∧
      Inv size n messages s' := by
  refine begin_base ⟨hrest.length, hrest.ix, hrest.decoded, hrest.kept, hrest.lost, hrest.count⟩ ?_ ⟨?_, ?_⟩ hdb hnone
  · refine hbase.set ?_ (fun j hj => (busy_other hj o.msgList call).symm) fun j hj => ?_
    · show Dispatch.Ok size none ((s.offers ++ [o]).filterMap (Offer.takenBy o.engine)) d'
      rw [takenBy_answer]
      exact hok
    · show (s.offers ++ [o]).filterMap (Offer.takenBy j) = s.takenBy j
      rw [takenBy_answer, takenBy_other hj]
      exact List.append_nil _
  · intro j hj
    have hgiven := hoffers.given j (by rwa [List.length_set] at hj)
    show (s.offers ++ [o]).filterMap (Offer.givenTo j) = s.givenAt (o.engine + 1) j
    rw [givenTo_answer, hgiven]
    by_cases hjk : j = o.engine
    · subst hjk
      rw [givenAt_self, givenAt_behind, Offer.givenTo, if_pos rfl]
      exact hrest.dropLast
    · rw [givenTo_other hjk, givenAt_succ hjk]
      exact List.append_nil _
  · intro o' ho held hheld
    rcases List.mem_append.1 ho with ho | ho
    · exact hoffers.full o' ho held hheld
    · rw [List.mem_singleton.1 ho] at hheld
      exact hfull held hheld

/-- An access of `pushMessage` of a base dispatcher. -/
theorem inv_push_base {call : Pushing} (hsize : size < intMax) (hphase : s.phase = .base m k call)
    (h : Inv size n messages s) :
    ∃ s', s.push size messages = some s' ∧ Inv size n messages s' := by
  unfold Inv at h
  rw [hphase] at h
  obtain ⟨⟨hrest, hbase, hoffers, hdb⟩, hfull, hlt⟩ := h
  obtain ⟨d, hd⟩ : ∃ d, s.dispatchEngines[k]? = some d := ⟨_, List.getElem?_eq_getElem hlt⟩
  have hok := hbase k d hd
  rw [busy_self] at hok
  obtain ⟨d', r, hpush, -, hcases⟩ := hok.pushMessage hsize
  rw [push_base hphase, hd, Option.bind_some, hpush, Option.bind_some]
  rcases hcases with ⟨call', rfl, hok'⟩ | ⟨rfl, hok'⟩ | ⟨rfl, hok', hheld⟩
  · refine ⟨_, rfl, ⟨⟨hrest.length, hrest.ix, hrest.decoded, hrest.kept, hrest.lost, hrest.count⟩, ?_,
      ⟨fun j hj => ?_, hoffers.full⟩, hdb⟩, hfull, ?_⟩
    · refine hbase.set (by rw [busy_self]; exact hok') (fun j hj => ?_) fun _ _ => rfl
      rw [busy_other hj, busy_other hj]
    · exact hoffers.given j (by rwa [List.length_set] at hj)
    · rw [List.length_set]
      exact hlt
  · have htook : Offer.takenBy k (⟨k, m, none⟩ : Offer α) = some m := if_pos rfl
    exact inv_base_returns (o := ⟨k, m, none⟩) hrest hbase hoffers hdb hfull (by rw [htook]; exact hok')
      (fun _ hnone => by cases hnone)
  · refine inv_base_returns (o := ⟨k, m, some d'.held⟩) hrest hbase hoffers hdb hfull ?_ fun held hsome => ?_
    · show Dispatch.Ok size none (s.takenBy k ++ []) d'
      rw [List.append_nil]
      exact hok'
    · rw [← Option.some.inj hsome]
      exact hheld

/-- An access of `pushMessage` of a database dispatcher. -/
theorem inv_push_db {nTry : Nat} {call : Pushing} (hsize : size < intMax) (hphase : s.phase = .db m nTry call)
    (h : Inv size n messages s) : ∃ s', s.push size messages = some s' ∧ Inv size n messages s' := by
  unfold Inv at h
  rw [hphase] at h
  obtain ⟨⟨hrest, hbase, hoffers, hdb⟩, htried, rfl, hle⟩ := h
  have hpos : 0 < n := by omega
  have hlt : s.dbRoundRobinIx < s.dispatchEnginesDB.length := by
    rw [hrest.length]
    exact hrest.ix hpos
  obtain ⟨d, hd⟩ : ∃ d, s.dispatchEnginesDB[s.dbRoundRobinIx]? = some d := ⟨_, List.getElem?_eq_getElem hlt⟩
  have hok := hdb _ d hd
  rw [busy_self] at hok
  obtain ⟨d', r, hpush, -, hcases⟩ := hok.pushMessage hsize
  have hlength : (s.dispatchEnginesDB.set s.dbRoundRobinIx d').length = n := (List.length_set ..).trans hrest.length
  have hnext : Server.nextIx { s with dispatchEnginesDB := s.dispatchEnginesDB.set s.dbRoundRobinIx d' } =
      (s.dbRoundRobinIx + 1) % n := nextIx_eq hlength (hrest.ix hpos)
  have hrest' : Rest size n messages [m] { s with
      dispatchEnginesDB := s.dispatchEnginesDB.set s.dbRoundRobinIx d',
      dbRoundRobinIx := (s.dbRoundRobinIx + 1) % n } :=
    ⟨hlength, fun hpos => Nat.mod_lt _ hpos, hrest.decoded, hrest.kept, hrest.lost, hrest.count⟩
  rw [push_db hphase, hd, Option.bind_some, hpush, Option.bind_some]
  simp only [hnext]
  rcases hcases with ⟨call', rfl, hok'⟩ | ⟨rfl, hok'⟩ | ⟨rfl, hok', hheld⟩
  · refine ⟨_, rfl, ⟨⟨hlength, hrest.ix, hrest.decoded, hrest.kept, hrest.lost, hrest.count⟩, hbase,
      ⟨hoffers.given, hoffers.full⟩, ?_⟩,
      ⟨htried.full, htried.turns⟩, rfl, hle⟩
    refine hdb.set (by rw [busy_self]; exact hok') (fun j hj => ?_) fun _ _ => rfl
    rw [busy_other hj, busy_other hj]
  · refine ⟨_, rfl, ⟨hrest'.finish rfl (fun m' k e => ?_) (fun _ _ e => by cases e), hbase,
      ⟨hoffers.given, hoffers.full⟩, ?_⟩, by rfl⟩
    · cases e
      exact hrest.ix hpos
    · have hkept : ∀ j, Server.keptBy (Server.finish { s with
          dispatchEnginesDB := s.dispatchEnginesDB.set s.dbRoundRobinIx d',
          dbRoundRobinIx := (s.dbRoundRobinIx + 1) % n }
          messages m (.kept m s.dbRoundRobinIx)) j = s.keptBy j ++
            (if s.dbRoundRobinIx = j then some m else none).toList :=
        fun j => keptBy_append s (.kept m s.dbRoundRobinIx) j
      refine hdb.set ?_ (fun j hj => (busy_other hj m call).symm) fun j hj => ?_
      · rw [hkept, if_pos rfl]
        exact hok'
      · rw [hkept, if_neg (Ne.symm hj)]
        exact List.append_nil _
  · have htry := begin_try (s := { s with
        dispatchEnginesDB := s.dispatchEnginesDB.set s.dbRoundRobinIx d', dbRoundRobinIx := (s.dbRoundRobinIx + 1) % n
        full := s.full ++ [(s.dbRoundRobinIx, d'.held)] })
      ⟨hrest'.length, hrest'.ix, hrest'.decoded, hrest'.kept, hrest'.lost, hrest'.count⟩ hbase
      ⟨hoffers.given, hoffers.full⟩ ?_ ⟨fun p hp => ?_, ?_⟩ ?_
    · rw [List.length_append, List.length_singleton] at htry
      exact htry
    · exact hdb.set hok' (fun j hj => (busy_other hj m call).symm) fun _ _ => rfl
    · rcases List.mem_append.1 hp with hp | hp
      · exact htried.full p hp
      · rw [List.mem_singleton.1 hp]
        exact hheld
    · obtain ⟨r, hturns, hix⟩ := htried.turns
      refine ⟨r, ?_, ?_⟩
      · rw [List.map_append, List.length_append, List.length_singleton, turns_succ, hturns, hix]
        rfl
      · rw [List.length_append, List.length_singleton, ← Nat.add_assoc, ← Nat.mod_add_mod, hix]
    · rw [List.length_append, List.length_singleton]
      exact hle

/-- What holds wherever the loop is. -/
theorem Inv.core (h : Inv size n messages s) :
    ∃ current call callDB given, Core size n messages current call callDB given s ∧
    current.length ≤ 1 ∧ ∀ k, ∃ ahead, s.decoded = given k ++ ahead ∧ ahead.length ≤ 1 := by
  have hall : ∀ k : Nat, ∃ ahead, s.decoded = (fun _ : Nat => s.decoded) k ++ ahead ∧ ahead.length ≤ 1 :=
    fun _ => ⟨[], (List.append_nil _).symm, Nat.zero_le 1⟩
  unfold Inv at h
  cases hp : s.phase with
  | idle =>
    rw [hp] at h
    exact ⟨_, _, _, _, h.1, Nat.zero_le 1, hall⟩
  | done =>
    rw [hp] at h
    exact ⟨_, _, _, _, h.1, Nat.zero_le 1, hall⟩
  | base m k call =>
    rw [hp] at h
    refine ⟨_, _, _, _, h.1, Nat.le_refl 1, fun j => ?_⟩
    unfold givenAt
    split
    · exact hall j
    · exact ⟨[m], h.1.rest.dropLast.symm, Nat.le_refl 1⟩
  | db m nTry call =>
    rw [hp] at h
    exact ⟨_, _, _, _, h.1, Nat.le_refl 1, hall⟩

/-- A step of a dispatcher's thread. -/
theorem each_thread {engines : List (Dispatch α)} {a : Threading} (hsize : size < intMax)
    (hmay : engines[k]?.any (·.mayDo a) = true)
    (hok : ∀ d, engines[k]? = some d → ∃ call pushed, Dispatch.Ok size call pushed d) :
    ∃ d d', engines[k]? = some d ∧ d.thread size a = some d' ∧
      ∀ {call pushed}, Dispatch.Ok size call pushed d → Dispatch.Ok size call pushed d' := by
  obtain ⟨d, hd, hmay⟩ := (Option.any_eq_true _ _).1 hmay
  obtain ⟨call, pushed, h⟩ := hok d hd
  obtain ⟨d', hs, -, -⟩ := h.thread hsize hmay
  refine ⟨d, d', hd, hs, fun h => ?_⟩
  obtain ⟨d'', hs', h', -⟩ := h.thread hsize hmay
  obtain rfl := Option.some.inj (hs.symm.trans hs')
  exact h'

theorem inv_thread_base {a : Threading} (hsize : size < intMax) (h : Inv size n messages s)
    (hmay : s.dispatchEngines[k]?.any (·.mayDo a) = true) :
    ∃ s', s.step size messages (.base k a) = some s' ∧ Inv size n messages s' := by
  obtain ⟨_, _, _, _, hcore, -, -⟩ := h.core
  obtain ⟨d, d', hd, hs, hkeeps⟩ := each_thread hsize hmay fun d hd => ⟨_, _, hcore.base k d hd⟩
  have hnew : ∀ {current : List α} {call callDB : Nat → Option (α × Pushing)} {given : Nat → List α},
      Core size n messages current call callDB given s →
      Core size n messages current call callDB given { s with dispatchEngines := s.dispatchEngines.set k d' } :=
        fun hc =>
    ⟨⟨hc.rest.length, hc.rest.ix, hc.rest.decoded, hc.rest.kept, hc.rest.lost, hc.rest.count⟩,
      hc.base.set (hkeeps (hc.base k d hd)) (fun _ _ => rfl) fun _ _ => rfl,
      ⟨fun j hj => hc.offers.given j (by rwa [List.length_set] at hj), hc.offers.full⟩, hc.db⟩
  have hat :
      ∀ p, At size n messages s p → At size n messages { s with dispatchEngines := s.dispatchEngines.set k d' } p := by
    intro p h
    cases p with
    | idle | done => exact ⟨hnew h.1, h.2⟩
    | base => exact ⟨hnew h.1, h.2.1, by rw [List.length_set]; exact h.2.2⟩
    | db => exact ⟨hnew h.1, ⟨h.2.1.full, h.2.1.turns⟩, h.2.2⟩
  exact ⟨_, by simp only [step, hd, Option.bind_some, hs, Option.map_some], hat s.phase h⟩

theorem inv_thread_db {a : Threading} (hsize : size < intMax) (h : Inv size n messages s)
    (hmay : s.dispatchEnginesDB[k]?.any (·.mayDo a) = true) :
    ∃ s', s.step size messages (.db k a) = some s' ∧ Inv size n messages s' := by
  obtain ⟨_, _, _, _, hcore, -, -⟩ := h.core
  obtain ⟨d, d', hd, hs, hkeeps⟩ := each_thread hsize hmay fun d hd => ⟨_, _, hcore.db k d hd⟩
  have hnew : ∀ {current : List α} {call callDB : Nat → Option (α × Pushing)} {given : Nat → List α},
      Core size n messages current call callDB given s →
      Core size n messages current call callDB given { s with dispatchEnginesDB := s.dispatchEnginesDB.set k d' } :=
        fun hc =>
    ⟨⟨(List.length_set ..).trans hc.rest.length, hc.rest.ix, hc.rest.decoded, hc.rest.kept, hc.rest.lost,
      hc.rest.count⟩, hc.base,
        ⟨hc.offers.given, hc.offers.full⟩, hc.db.set (hkeeps (hc.db k d hd)) (fun _ _ => rfl) fun _ _ => rfl⟩
  have hat : ∀ p, At size n messages s p →
      At size n messages { s with dispatchEnginesDB := s.dispatchEnginesDB.set k d' } p := by
    intro p h
    cases p with
    | idle | done | base => exact ⟨hnew h.1, h.2⟩
    | db => exact ⟨hnew h.1, ⟨h.2.1.full, h.2.1.turns⟩, h.2.2⟩
  exact ⟨_, by simp only [step, hd, Option.bind_some, hs, Option.map_some], hat s.phase h⟩

theorem mayDo_getFile {msgList : Option α} (hmay : s.mayDo (.getFile msgList) = true) : s.phase = .idle := by
  cases hp : s.phase <;> simp only [mayDo, hp] at hmay <;> first | rfl | cases hmay

theorem mayDo_ackFile (hmay : s.mayDo .ackFile = true) : s.phase = .done := by
  cases hp : s.phase <;> simp only [mayDo, hp] at hmay <;> first | rfl | cases hmay

/-- **Every step** of the server or of a dispatcher has a result and keeps the accounts. -/
theorem inv_step (hsize : size < intMax) (s : Server α) (a : Action α) (h : Inv size n messages s)
    (hmay : s.mayDo a = true) :
    ∃ s', s.step size messages a = some s' ∧ Inv size n messages s' := by
  cases a with
  | getFile msgList =>
    unfold Inv at h
    rw [mayDo_getFile hmay] at h
    obtain ⟨⟨hrest, hbase, hoffers, hdb⟩, hfull⟩ := h
    cases msgList with
    | none =>
      refine ⟨_, rfl,
        ⟨⟨hrest.length, hrest.ix, ?_, ?_, ?_, ?_⟩, hbase, ⟨hoffers.given, hoffers.full⟩, fun j d hd => ?_⟩, hfull⟩
      · show s.decoded = (s.outcomes ++ [Outcome.undecoded]).filterMap Outcome.list ++ []
        rw [List.filterMap_append, hrest.decoded]
        exact congrArg (· ++ ([] : List α)) (List.append_nil _).symm
      · exact fun m k hmem =>
          (List.mem_append.1 hmem).elim (hrest.kept m k) fun hmem => by cases List.mem_singleton.1 hmem
      · exact fun m f hmem =>
          (List.mem_append.1 hmem).elim (hrest.lost m f) fun hmem => by cases List.mem_singleton.1 hmem
      · show s.msgCount = UInt64.ofNat (((s.outcomes ++ [Outcome.undecoded]).filterMap Outcome.list).map messages).sum
        rw [List.filterMap_append, hrest.count]
        exact congrArg (fun l => UInt64.ofNat (l.map messages).sum) (List.append_nil _).symm
      · have hsame := keptBy_append s (.undecoded : Outcome α) j
        rw [show (Outcome.undecoded : Outcome α).keptBy j = none from rfl, Option.toList_none, List.append_nil] at hsame
        show Dispatch.Ok size none ((s.outcomes ++ [Outcome.undecoded]).filterMap (Outcome.keptBy j)) d
        rw [hsame]
        exact hdb j d hd
    | some m =>
      refine begin_base ⟨hrest.length, hrest.ix, ?_, hrest.kept, hrest.lost, hrest.count⟩ hbase
        ⟨fun j hj => ?_, hoffers.full⟩ hdb hfull
      · show s.decoded ++ [m] = s.outcomes.filterMap Outcome.list ++ [m]
        rw [hrest.decoded, List.append_nil]
      · rw [givenAt, if_neg (Nat.not_lt_zero j), List.dropLast_concat]
        exact hoffers.given j hj
  | push =>
    cases hp : s.phase with
    | base m k call => exact inv_push_base hsize hp h
    | db m nTry call => exact inv_push_db hsize hp h
    | idle | done =>
      simp only [mayDo, hp] at hmay
      cases hmay
  | ackFile =>
    unfold Inv at h
    rw [mayDo_ackFile hmay] at h
    obtain ⟨⟨hrest, hbase, hoffers, hdb⟩, hfull⟩ := h
    exact ⟨_, rfl, ⟨⟨hrest.length, hrest.ix, hrest.decoded, hrest.kept, hrest.lost, hrest.count⟩, hbase,
      ⟨hoffers.given, hoffers.full⟩, hdb⟩, hfull⟩
  | base k a => exact inv_thread_base hsize h hmay
  | db k a => exact inv_thread_db hsize h hmay

theorem inv_start (hsize : size < intMax) (nBase n : Nat) (messages : α → Nat) :
    ∃ s, start size nBase n = some s ∧ Inv size n messages s := by
  obtain ⟨d, hd, hok⟩ := Dispatch.ok_create (α := α) hsize
  have hall : ∀ (m k : Nat) x, (List.replicate m d)[k]? = some x → x = d := fun m k x hx =>
    List.eq_of_mem_replicate (List.mem_of_getElem? hx)
  refine ⟨_, by rw [start, hd, Option.map_some], ?_⟩
  refine ⟨⟨⟨List.length_replicate, id, rfl, ?_, ?_, rfl⟩, fun k x hx => ?_, ⟨fun _ _ => rfl, ?_⟩, fun k x hx => ?_⟩,
    rfl⟩
  · exact fun m k hmem => absurd hmem List.not_mem_nil
  · exact fun m full hmem => absurd hmem List.not_mem_nil
  · rw [hall _ k x hx]
    exact hok
  · exact fun o hmem => absurd hmem List.not_mem_nil
  · rw [hall _ k x hx]
    exact hok

/-! ## The files, in order -/

/-- The list at hand. -/
def current (s : Server α) : List α :=
  match s.phase with
  | .base m _ _ => [m]
  | .db m _ _   => [m]
  | _           => []

/-- What the files were decoded to. -/
def history (s : Server α) : List (Option α) := s.outcomes.map Outcome.list ++ s.current.map some

/-- The file a step takes. -/
def files : Action α → List (Option α)
  | .getFile msgList => [msgList]
  | _                => []

/-- The server has gone on, and has files more. -/
structure Later (s s' : Server α) (files : List (Option α)) : Prop where
  history : s'.history = s.outcomes.map Outcome.list ++ files
  outcomes : s.outcomes <+: s'.outcomes

theorem later_try {nTry : Nat} (hs : s.beginTry size messages m nTry = some s') : Later s s' [some m] := by
  unfold beginTry at hs
  split at hs
  · obtain ⟨d, -, hs⟩ := Option.bind_eq_some_iff.1 hs
    obtain ⟨d', -, rfl⟩ := Option.map_eq_some_iff.1 hs
    exact ⟨rfl, List.prefix_refl _⟩
  · obtain rfl := Option.some.inj hs
    refine ⟨?_, List.prefix_append _ _⟩
    show (s.outcomes ++ [Outcome.lost m s.full]).map Outcome.list ++ [] = _
    rw [List.map_append, List.append_nil]
    rfl

theorem later_base (hs : s.beginBase size messages m k = some s') : Later s s' [some m] := by
  unfold beginBase at hs
  split at hs
  · obtain ⟨d', -, rfl⟩ := Option.map_eq_some_iff.1 hs
    exact ⟨rfl, List.prefix_refl _⟩
  · exact later_try hs

theorem later_push (hs : s.push size messages = some s') : Later s s' (s.current.map some) := by
  cases hp : s.phase with
  | base m k call =>
    rw [push_base hp] at hs
    obtain ⟨d, -, hs⟩ := Option.bind_eq_some_iff.1 hs
    obtain ⟨⟨d', r⟩, -, hs⟩ := Option.bind_eq_some_iff.1 hs
    have hcurrent : s.current = [m] := by rw [current, hp]
    rw [hcurrent]
    cases r with
    | goesOn call =>
      obtain rfl := Option.some.inj hs
      exact ⟨rfl, List.prefix_refl _⟩
    | returns ok =>
      have h := later_base hs
      exact ⟨h.history, h.outcomes⟩
  | db m nTry call =>
    rw [push_db hp] at hs
    obtain ⟨d, -, hs⟩ := Option.bind_eq_some_iff.1 hs
    obtain ⟨⟨d', r⟩, -, hs⟩ := Option.bind_eq_some_iff.1 hs
    have hcurrent : s.current = [m] := by rw [current, hp]
    rw [hcurrent]
    rcases r with call | (_ | _)
    · obtain rfl := Option.some.inj hs
      exact ⟨rfl, List.prefix_refl _⟩
    · have h := later_try hs
      exact ⟨h.history, h.outcomes⟩
    · obtain rfl := Option.some.inj hs
      refine ⟨?_, List.prefix_append _ _⟩
      show (s.outcomes ++ [Outcome.kept m s.dbRoundRobinIx]).map Outcome.list ++ [] = _
      rw [List.map_append, List.append_nil]
      rfl
  | idle | done =>
    rw [push, hp] at hs
    cases hs

/-- **A step adds the file it takes**, if it takes one. -/
theorem later_step {a : Action α} (hmay : s.mayDo a = true) (hs : s.step size messages a = some s') :
    Later s s' (s.current.map some ++ files a) := by
  cases a with
  | getFile msgList =>
    have hcurrent : s.current = [] := by rw [current, mayDo_getFile hmay]
    rw [hcurrent]
    cases msgList with
    | none =>
      obtain rfl := Option.some.inj hs
      refine ⟨?_, List.prefix_append _ _⟩
      show (s.outcomes ++ [Outcome.undecoded]).map Outcome.list ++ [] = _
      rw [List.map_append, List.append_nil]
      rfl
    | some m =>
      have h := later_base hs
      exact ⟨h.history, h.outcomes⟩
  | push =>
    have h := later_push hs
    exact ⟨h.history.trans (congrArg _ (List.append_nil _).symm), h.outcomes⟩
  | ackFile =>
    have hcurrent : s.current = [] := by rw [current, mayDo_ackFile hmay]
    obtain rfl := Option.some.inj hs
    rw [hcurrent]
    exact ⟨rfl, List.prefix_refl _⟩
  | base k a | db k a =>
    obtain ⟨d, -, hs⟩ := Option.bind_eq_some_iff.1 hs
    obtain ⟨d', -, rfl⟩ := Option.map_eq_some_iff.1 hs
    exact ⟨congrArg (s.outcomes.map Outcome.list ++ ·) (List.append_nil _).symm, List.prefix_refl _⟩

/-! ## The accounts -/

/-- **A dispatcher has the lists it took** in its queue, in hand, or processed, in order. -/
structure Processes (took : List α) (d : Dispatch α) : Prop where
  pushed : d.input.pushed = took.map some
  popped : d.input.popped = d.processed.map some ++ d.callback.inHand
  inOrder : d.input.popped <+: d.input.pushed

/-- **What became of the lists.** -/
structure Accounts (size n : Nat) (messages : α → Nat) (s : Server α) : Prop where
  /-- All that was decoded was dealt with, but for the list at hand. -/
  decoded : ∃ current, s.decoded = s.outcomes.filterMap Outcome.list ++ current ∧ current.length ≤ 1
  kept : ∀ m k, .kept m k ∈ s.outcomes → k < n
  lost : ∀ m full, .lost m full ∈ s.outcomes → Full size n full
  count : s.msgCount = UInt64.ofNat ((s.outcomes.filterMap Outcome.list).map messages).sum
  /-- A base dispatcher was given every list, but for the one at hand, and took those for which its queue was not
  full. -/
  given : ∀ k < s.dispatchEngines.length, ∃ ahead, s.decoded = s.givenTo k ++ ahead ∧ ahead.length ≤ 1
  full : ∀ o ∈ s.offers, ∀ held, o.full = some held → size ≤ held
  base : ∀ (k : Nat) d, s.dispatchEngines[k]? = some d → Processes (s.takenBy k) d
  db : ∀ (k : Nat) d, s.dispatchEnginesDB[k]? = some d → Processes (s.keptBy k) d

theorem processes_of_ok {call : Option (α × Pushing)} {took : List α} {d : Dispatch α}
    (h : Dispatch.Ok size call took d) :
    Processes took d := by
  refine ⟨h.pushed, h.popped, ?_⟩
  rw [h.queue.popped]
  exact List.take_prefix _ _

theorem Inv.accounts (h : Inv size n messages s) : Accounts size n messages s := by
  obtain ⟨current, call, callDB, given, hcore, hcurrent, hgiven⟩ := h.core
  refine ⟨⟨current, hcore.rest.decoded, hcurrent⟩, hcore.rest.kept, hcore.rest.lost, hcore.rest.count, fun k hk => ?_,
    hcore.offers.full, fun k d hd => processes_of_ok (hcore.base k d hd),
      fun k d hd => processes_of_ok (hcore.db k d hd)⟩
  rw [hcore.offers.given k hk]
  exact hgiven k

/-- **The server accounts for every list**, whatever the order in which it and the threads of its dispatchers go on, and
no step of theirs is without a result. -/
theorem doLoop_accounts (hsize : size < intMax) (nBase n : Nat) (messages : α → Nat) :
    ∃ s₀, start size nBase n = some s₀ ∧
    ∀ as, Legal (step size messages) (fun s a => s.mayDo a = true) s₀ as →
      ∃ s, run (step size messages) s₀ as = some s ∧ Accounts size n messages s := by
  obtain ⟨s₀, hs, hi⟩ := inv_start hsize nBase n messages
  refine ⟨s₀, hs, fun as hl => ?_⟩
  obtain ⟨s, hr, h⟩ := run_inv (inv_step hsize) as s₀ hi hl
  exact ⟨s, hr, h.accounts⟩

/-- There is room for one list: the first one is kept, the second is lost, as nobody takes the first in time. -/
def twoLists : List (Action Nat) :=
  .getFile (some 7) :: List.replicate 14 .push ++ [.ackFile, .getFile (some 8)] ++ List.replicate 16 .push ++
  .db 0 (.customLoop true) :: List.replicate 10 (.db 0 .access) ++ [.db 0 .process, .ackFile]

theorem doLoop_accounts_twoLists : ∃ s₀ s : Server Nat, start 1 1 1 = some s₀ ∧
    run (step 1 fun _ => 1) s₀ twoLists = some s ∧ s.outcomes = [.kept 7 0, .lost 8 [(0, 1), (0, 1), (0, 1)]] ∧
    Accounts 1 1 (fun _ => 1) s := by
  have hsize : 1 < intMax := by decide
  obtain ⟨s₀, hs, hall⟩ := doLoop_accounts hsize 1 1 fun _ : Nat => 1
  have hrun : ((start 1 1 1 : Option (Server Nat)).bind fun s₀ => run (step 1 fun _ => 1) s₀ twoLists).any
      (fun s => decide (s.outcomes = [.kept 7 0, .lost 8 [(0, 1), (0, 1), (0, 1)]])) = true := by decide +kernel
  have hlegal : (start 1 1 1 : Option (Server Nat)).all
      (fun s₀ => decide (Legal (step 1 fun _ => 1) (fun s a => s.mayDo a = true) s₀ twoLists)) =
        true := by decide +kernel
  rw [hs] at hrun hlegal
  obtain ⟨s, hr, haccounts⟩ := hall twoLists (of_decide_eq_true hlegal)
  rw [Option.bind_some, hr] at hrun
  exact ⟨s₀, s, hs, hr, of_decide_eq_true hrun, haccounts⟩

end Server
end InfoLoggerServer
end Flp
