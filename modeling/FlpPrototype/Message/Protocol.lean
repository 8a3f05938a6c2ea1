import FlpPrototype.Lib.CString
import FlpPrototype.Lib.CInt
import FlpPrototype.Lib.Decimal
/-!
# Protocol — the message protocols and their values

A protocol is a version and its fields in order (`infoLoggerMessage.c`); a message has one value for each field, of
the field's type, and a value may be undefined.  Doubles are what C prints for them and reads back (`DoubleText`): the
code looks at nothing else but their sign.
-/
namespace Flp
namespace Message

inductive FieldType where
  | string | int | double
  deriving DecidableEq, Repr

structure FieldDef where
  type : FieldType
  name : String
  deriving DecidableEq, Repr

structure Protocol where
  version : Bytes
  fields : List FieldDef
  deriving DecidableEq, Repr

/-- Protocol 1.4, 08/2016: the first of the table, so the default one. -/
def protocol14 : Protocol where
  version := ascii ['1', '.', '4']
  fields := [⟨.string, "severity"⟩, ⟨.int, "level"⟩, ⟨.double, "timestamp"⟩, ⟨.string, "hostname"⟩,
    ⟨.string, "rolename"⟩, ⟨.int, "pid"⟩, ⟨.string, "username"⟩, ⟨.string, "system"⟩, ⟨.string, "facility"⟩,
    ⟨.string, "detector"⟩, ⟨.string, "partition"⟩, ⟨.int, "run"⟩, ⟨.int, "errcode"⟩, ⟨.int, "errline"⟩,
    ⟨.string, "errsource"⟩, ⟨.string, "message"⟩]

/-- Protocol 1.3, 08/2010. -/
def protocol13 : Protocol where
  version := ascii ['1', '.', '3']
  fields := [⟨.string, "severity"⟩, ⟨.int, "level"⟩, ⟨.double, "timestamp"⟩, ⟨.string, "hostname"⟩,
    ⟨.string, "rolename"⟩, ⟨.int, "pid"⟩, ⟨.string, "username"⟩, ⟨.string, "system"⟩, ⟨.string, "facility"⟩,
    ⟨.string, "detector"⟩, ⟨.string, "partition"⟩, ⟨.string, "dest"⟩, ⟨.int, "run"⟩, ⟨.int, "errcode"⟩,
    ⟨.int, "errline"⟩, ⟨.string, "errsource"⟩, ⟨.string, "message"⟩]

/-- Protocol 1.2, 04/2005. -/
def protocol12 : Protocol where
  version := ascii ['1', '.', '2']
  fields := [⟨.string, "severity"⟩, ⟨.double, "timestamp"⟩, ⟨.string, "hostname"⟩, ⟨.string, "rolename"⟩,
    ⟨.int, "pid"⟩, ⟨.string, "username"⟩, ⟨.string, "system"⟩, ⟨.string, "facility"⟩, ⟨.string, "dest"⟩,
    ⟨.int, "run"⟩, ⟨.string, "message"⟩]

def protocols : List Protocol := [protocol14, protocol13, protocol12]

/-- The bytes that separate: a record begins with `*`, a field with `#`, and a newline ends the record. -/
def star : UInt8 := 42
def hash : UInt8 := 35

/-- No separator and no terminator. -/
def Plain (c : UInt8) : Prop := c ≠ 0 ∧ c ≠ star ∧ c ≠ hash ∧ c ≠ newline

/-- How C prints a double (`%lf`), reads one, and compares it with zero. -/
structure DoubleText (D : Type) where
  print : D → Bytes
  scan : Bytes → Option D
  positive : D → Bool
  plain : ∀ d, ∀ c ∈ print d, Plain c
  print_ne_nil : ∀ d, print d ≠ []

/-- A string value with the `length` kept beside it. -/
structure StringValue where
  vString : CString
  length : Nat
  deriving DecidableEq

/-- The value of a field, or undefined. -/
inductive FieldValue (D : Type) where
  | string (v : Option StringValue)
  | int (v : Option Int32)
  | double (v : Option D)
  deriving DecidableEq

variable {D : Type}

def FieldValue.type : FieldValue D → FieldType
  | .string _ => .string
  | .int _    => .int
  | .double _ => .double

def FieldValue.undefined : FieldType → FieldValue D
  | .string => .string none
  | .int    => .int none
  | .double => .double none

@[simp] theorem FieldValue.type_undefined (t : FieldType) : (FieldValue.undefined t : FieldValue D).type = t := by
  cases t <;> rfl

/-- A message: the values have the types of the protocol's fields. -/
structure Msg (D : Type) where
  protocol : Protocol
  values : List (FieldValue D)
  typed : values.map FieldValue.type = protocol.fields.map FieldDef.type

theorem Msg.ext_values {m m' : Msg D} (hp : m.protocol = m'.protocol) (hv : m.values = m'.values) : m = m' := by
  cases m; cases m'
  simp only at hp hv
  subst hp hv
  rfl

/-! ## Conversion to the default protocol -/

/-- `convertIndex`, as `infoLog_proto_init` fills it: the field of the default protocol of the same type and name. -/
def convertIndex (f : FieldDef) : Option Nat :=
  protocol14.fields.findIdx? (fun g => decide (g.type = f.type ∧ g.name = f.name))

/-- One turn of the copying loop of `infoLog_msg_convert`. -/
def convertStep (newvalues : List (FieldValue D)) (fv : FieldDef × FieldValue D) : List (FieldValue D) :=
  match convertIndex fv.1 with
  | some k => newvalues.set k fv.2
  | none   => newvalues

def convertValues (fields : List FieldDef) (values : List (FieldValue D)) : List (FieldValue D) :=
  (fields.zip values).foldl convertStep (protocol14.fields.map (fun f => .undefined f.type))

theorem convertStep_typed {newvalues : List (FieldValue D)} {fv : FieldDef × FieldValue D}
    (h : newvalues.map FieldValue.type = protocol14.fields.map FieldDef.type) (hfv : fv.2.type = fv.1.type) :
    (convertStep newvalues fv).map FieldValue.type = protocol14.fields.map FieldDef.type := by
  unfold convertStep
  cases hk : convertIndex fv.1 with
  | none => exact h
  | some k =>
    obtain ⟨hlt, hp, -⟩ := List.findIdx?_eq_some_iff_getElem.1 hk
    have ht := (of_decide_eq_true hp).1
    simp only [List.map_set, h, hfv, ← ht]
    exact List.ext_getElem (by simp) (fun i h₁ h₂ => by
      by_cases hi : k = i
      · subst hi; simp
      · simp [List.getElem_set_ne hi])

theorem convertValues_typed {fields : List FieldDef} {values : List (FieldValue D)}
    (h : values.map FieldValue.type = fields.map FieldDef.type) :
    (convertValues fields values).map FieldValue.type = protocol14.fields.map FieldDef.type := by
  have loop : ∀ (fields : List FieldDef) (values new : List (FieldValue D)),
      values.map FieldValue.type = fields.map FieldDef.type →
      new.map FieldValue.type = protocol14.fields.map FieldDef.type →
      ((fields.zip values).foldl convertStep new).map FieldValue.type = protocol14.fields.map FieldDef.type := by
    intro fields
    induction fields with
    | nil => exact fun _ _ _ hn => by simpa using hn
    | cons f fs ih =>
      intro values new hv hn
      cases values with
      | nil => cases hv
      | cons v vs =>
        obtain ⟨h1, h2⟩ := List.cons.inj hv
        exact ih vs _ h2 (convertStep_typed hn h1)
  exact loop fields values _ h (by simp)

/-- `infoLog_msg_convert`: the line of the failure, or the message in the default protocol. -/
def infoLogMsgConvert (isInit : Bool) (msg : Msg D) : Except Nat (Msg D) :=
  if msg.protocol = protocol14 then .ok msg
  else if isInit then
    .ok ⟨protocol14, convertValues msg.protocol.fields msg.values, convertValues_typed msg.typed⟩
  else .error 370

theorem infoLogMsgConvert_default (isInit : Bool) {msg : Msg D} (h : msg.protocol = protocol14) :
    infoLogMsgConvert isInit msg = .ok msg := if_pos h

end Message
end Flp
