import FlpPrototype.Lib.CString
import FlpPrototype.QualityControl.ObjectsQueue
/-!
# Statement — the grouped insert of a task

`storeForTask` builds a query with a group of values for each object of the task and then assigns the values, a group of
four parameters at a time, in a loop that does not advance its index: every object is assigned to the first group, where
the last one stays (`assignAll_parameters`).  So the statement carries all objects only of a single one
(`carriesAll_iff`).
-/
namespace Flp
namespace QualityControl

/-- An object as it is stored.  The object has no run and no fill: 0 stands for both. -/
structure MonitorObject where
  getName : Bytes
  /-- What `WriteObjectAny` puts into an empty message. -/
  message : Bytes
  deriving DecidableEq, Repr

inductive Parameter where
  | string (s : Bytes)
  | binary (b : Bytes)
  | int (n : Int)
  deriving DecidableEq, Repr

/-- A prepared statement is a table of parameters, none of them set yet. -/
structure Statement where
  query : String
  parameters : List (Option Parameter)
  deriving DecidableEq, Repr

namespace Statement

def set (st : Statement) (i : Nat) (p : Parameter) : Statement :=
  { st with parameters := st.parameters.set i (some p) }

/-- `SetString` takes a C string. -/
def setString (st : Statement) (i : Nat) (s : Bytes) : Statement := st.set i (.string (cStr s))
def setBinary (st : Statement) (i : Nat) (b : Bytes) : Statement := st.set i (.binary b)
def setInt (st : Statement) (i : Nat) (n : Int) : Statement := st.set i (.int n)

end Statement

/-! ## Storing for a task -/

def valueGroup : String := "(?,?,octet_length(data),?,?)"

/-- The value groups of `n` objects. -/
def values : Nat → String
  | 0     => ""
  | n + 1 => values n ++ (if n ≠ 0 then "," else "") ++ valueGroup

def query (taskName : String) (n : Nat) : String :=
  "REPlACE INTO `data_" ++ taskName ++ "` (object_name, data, size, run, fill) values " ++ values n

/-- The parameters of a text are its question marks; those of a task's name are inside the quotes. -/
def placeholders (s : String) : Nat := s.toList.count '?'

def prepare (taskName : String) (n : Nat) : Statement :=
  ⟨query taskName n, List.replicate (placeholders (values n)) none⟩

/-- The body of the loop over the objects. -/
def assign (i : Nat) (st : Statement) (mo : MonitorObject) : Statement :=
  (((st.setString (i + 0) mo.getName).setBinary (i + 1) mo.message).setInt (i + 2) 0).setInt (i + 3) 0

/-- The loop, with its index. -/
def assignAll (i : Nat) (st : Statement) (objects : List MonitorObject) : Statement := objects.foldl (assign i) st

/-- The statement that `storeForTask` processes, if it gets there. -/
def storeForTask.statement (r : Statements) (taskName : String) (objects : List MonitorObject) : Option Statement :=
  if objects = [] then none
  else if !r.prepared then none
  else some (assignAll 0 (prepare taskName objects.length) objects)

/-! ## What a statement is to carry -/

/-- The parameters of an object: its name, its bytes, its run and its fill. -/
def row (mo : MonitorObject) : List (Option Parameter) :=
  [some (.string mo.getName), some (.binary mo.message), some (.int 0), some (.int 0)]

/-- The rows that a table of parameters inserts, the four of a group each. -/
def rows : List (Option Parameter) → List (List (Option Parameter))
  | a :: b :: c :: d :: rest => [a, b, c, d] :: rows rest
  | _                        => []

/-- The parameters of group `k` hold the values of object `k`, which so has a row of its own. -/
structure CarriesAll (st : Statement) (objects : List MonitorObject) : Prop where
  parameters : ∀ k (hk : k < objects.length),
    st.parameters[4 * k]? = some (some (.string objects[k].getName)) ∧
    st.parameters[4 * k + 1]? = some (some (.binary objects[k].message)) ∧
    st.parameters[4 * k + 2]? = some (some (.int 0)) ∧
    st.parameters[4 * k + 3]? = some (some (.int 0))
  rows : rows st.parameters = objects.map row

/-! ## What the loop leaves -/

variable {st : Statement} {mo : MonitorObject} {objects : List MonitorObject}

/-- The parameters an object is assigned, its name being taken as a C string. -/
def assigned (mo : MonitorObject) : List (Option Parameter) :=
  [some (.string (cStr mo.getName)), some (.binary mo.message), some (.int 0), some (.int 0)]

theorem placeholders_append (s t : String) : placeholders (s ++ t) = placeholders s + placeholders t := by
  simp [placeholders]

/-- **There are four parameters for each object.** -/
theorem placeholders_values : ∀ n, placeholders (values n) = 4 * n
  | 0     => rfl
  | n + 1 => by
    have hcomma : placeholders (if n ≠ 0 then "," else "") = 0 := by split <;> decide
    have hgroup : placeholders valueGroup = 4 := by decide
    rw [values, placeholders_append, placeholders_append, hcomma, hgroup, placeholders_values n]
    omega

theorem assign_parameters {a b c d : Option Parameter} {rest : List (Option Parameter)}
    (h : st.parameters = a :: b :: c :: d :: rest) : (assign 0 st mo).parameters = assigned mo ++ rest := by
  simp [assign, assigned, Statement.setString, Statement.setBinary, Statement.setInt, Statement.set, h]

/-- **The last object stays**, and the groups of the others are never set. -/
theorem assignAll_parameters {rest : List (Option Parameter)} : ∀ (objects : List MonitorObject) {st : Statement}
    {a b c d : Option Parameter}, st.parameters = a :: b :: c :: d :: rest →
    (assignAll 0 st (objects ++ [mo])).parameters = assigned mo ++ rest
  | [], _, _, _, _, _, h => assign_parameters h
  | _ :: objects, _, _, _, _, _, h => assignAll_parameters objects (assign_parameters h)

theorem statement_parameters (objects : List MonitorObject) (mo : MonitorObject) (taskName : String) :
    (assignAll 0 (prepare taskName (objects ++ [mo]).length) (objects ++ [mo])).parameters =
      assigned mo ++ List.replicate (4 * objects.length) none := by
  apply assignAll_parameters
  simp only [prepare, placeholders_values, List.length_append, List.length_singleton]
  rfl

theorem assigned_eq_row : assigned mo = row mo ↔ 0 ∉ mo.getName := by
  constructor
  · intro h hzero
    have hname : cStr mo.getName = mo.getName := by simpa [assigned, row] using h
    exact zero_not_mem_cStr mo.getName (by rwa [hname])
  · intro h
    rw [assigned, row, cStr_eq_self h]

theorem statement_eq_some {r : Statements} {taskName : String}
    (h : storeForTask.statement r taskName objects = some st) :
    objects ≠ [] ∧ st = assignAll 0 (prepare taskName objects.length) objects := by
  unfold storeForTask.statement at h
  split at h
  · cases h
  · rename_i hne
    split at h
    · cases h
    · exact ⟨hne, (Option.some.inj h).symm⟩

/-- A single object has its row if its name is a C string. -/
theorem carriesAll_single (h : st.parameters = assigned mo) : CarriesAll st [mo] ↔ 0 ∉ mo.getName := by
  rw [← assigned_eq_row]
  constructor
  · rintro ⟨-, hrows⟩
    rw [h] at hrows
    simpa [rows, assigned] using hrows
  · intro hrow
    rw [hrow] at h
    constructor
    · intro k hk
      obtain rfl : k = 0 := by simpa using hk
      simp [h, row]
    · rw [h]
      rfl

/-- **The statement carries every object exactly if there is one**, with a name that is a C string. -/
theorem carriesAll_iff {r : Statements} {taskName : String}
    (h : storeForTask.statement r taskName objects = some st) :
    CarriesAll st objects ↔ objects.length = 1 ∧ ∀ mo ∈ objects, 0 ∉ mo.getName := by
  obtain ⟨hne, rfl⟩ := statement_eq_some h
  obtain rfl | ⟨objects, mo, hlast⟩ := objects.eq_nil_or_concat
  · exact absurd rfl hne
  · rw [List.concat_eq_append] at hlast
    subst hlast
    have hst := statement_parameters objects mo taskName
    cases objects with
    | nil => simpa using carriesAll_single hst
    | cons first objects =>
      refine iff_of_false (fun hcarries => ?_) fun hone => by simp at hone
      -- the first parameter of the second group is not set
      obtain ⟨hname, -⟩ := hcarries.parameters 1 (by simp)
      rw [hst] at hname
      simp [assigned, Nat.mul_add, List.replicate_succ] at hname

def occupancy : MonitorObject := ⟨ascii ['o', 'c', 'c'], [1, 2, 3]⟩

def noise : MonitorObject := ⟨ascii ['n', 'o', 'i', 's', 'e'], [4]⟩

theorem carriesAll_iff_occupancy :
    CarriesAll (assignAll 0 (prepare "daqTask" 1) [occupancy]) [occupancy] ↔
      [occupancy].length = 1 ∧ ∀ mo ∈ [occupancy], 0 ∉ mo.getName :=
  carriesAll_iff (show storeForTask.statement ⟨none, false, none⟩ "daqTask" [occupancy] = some _ from rfl)

/-- Of two objects only the second one is in the statement, in the group of the first. -/
theorem twoObjects_not_carried :
    ∃ st, storeForTask.statement ⟨none, false, none⟩ "daqTask" [occupancy, noise] = some st ∧
      st.parameters = row noise ++ List.replicate 4 none ∧ ¬ CarriesAll st [occupancy, noise] := by
  refine ⟨_, rfl, by decide, fun hcarries => ?_⟩
  obtain ⟨hname, -⟩ := hcarries.parameters 1 (by decide)
  exact absurd hname (by decide)

end QualityControl
end Flp
