import FlpPrototype.Message.Record
/-!
# Decode — `infoLog_decode`

The blobs of a file are decoded one by one, each into a message of the default protocol.  A blob's bytes are cut in
place: a NUL is put over each `#`, and one behind the blob, where its allocation has a byte to spare.
-/
namespace Flp
namespace Message

variable {D : Type} (dt : DoubleText D)

/-- The value of a field: the string at its beginning, and the length counted. -/
def decodeField (start : CString) (length : Nat) : FieldType → FieldValue D
  | .string => .string (if length = 0 then none else some ⟨start, length⟩)
  | .int    => .int (if start.1 = [] then none else
      match scanInt start.1 with
      | none        => none
      | some (n, _) => if 0 < (intOf n).toInt then some (intOf n) else none)
  | .double => .double (if start.1 = [] then none else
      match dt.scan start.1 with
      | none   => none
      | some d => if dt.positive d then some d else none)

/-- The fields: each but the last goes up to a `#`, the last to the end. -/
def decodeFields : List FieldDef → Bytes → Option (List (FieldValue D))
  | [], _             => some []
  | [f], rest         => some [decodeField dt (CString.at rest) (cStr rest).length f.type]
  | f :: g :: fs, rest =>
    match strchr rest hash with
    | none   => none
    | some n => (decodeFields (g :: fs) (rest.drop (n + 1))).map
        (fun vs => decodeField dt (CString.at (rest.take n)) n f.type :: vs)

@[simp] theorem decodeField_type (start : CString) (length : Nat) (t : FieldType) :
    (decodeField dt start length t).type = t := by cases t <;> rfl

theorem decodeFields_typed : ∀ {fs : List FieldDef} {rest : Bytes} {vs : List (FieldValue D)},
    decodeFields dt fs rest = some vs → vs.map FieldValue.type = fs.map FieldDef.type
  | [], _, _, h => by rw [← Option.some.inj h]; rfl
  | [f], _, _, h => by rw [← Option.some.inj h]; simp
  | f :: g :: fs, rest, vs, h => by
    unfold decodeFields at h
    cases hn : strchr rest hash with
    | none => rw [hn] at h; cases h
    | some n =>
      rw [hn] at h
      obtain ⟨vs', hvs', rfl⟩ := Option.map_eq_some_iff.1 h
      rw [List.map_cons, decodeField_type, decodeFields_typed hvs']
      rfl

/-- One blob: the marker, the version, the fields of its protocol, and the conversion. -/
def decodeBlob (isInit : Bool) (value : Bytes) : Option (Msg D) :=
  match value with
  | []        => none
  | c :: rest =>
    if c ≠ star ∨ rest = [] then none
    else
      match strchr rest hash with
      | none   => none
      | some n =>
        match protocols.find? (fun p => decide (cStr (rest.take n) = p.version)) with
        | none   => none
        | some p =>
          match h : decodeFields dt p.fields (rest.drop (n + 1)) with
          | none        => none
          | some values => (infoLogMsgConvert isInit ⟨p, values, decodeFields_typed dt h⟩).toOption

/-- `infoLog_decode`: the messages of the blobs, or nothing when one of them is bad.  No blob clears the error of
another, so it does not matter whether the loop goes on behind it. -/
def infoLogDecode (isInit : Bool) : List Bytes → Option (List (Msg D))
  | []      => some []
  | b :: bs =>
    match decodeBlob dt isInit b with
    | none   => none
    | some m => (infoLogDecode isInit bs).map (fun ms => m :: ms)

/-! ## Texts without separators -/

theorem replaceSpecial_plain {c : UInt8} (h : c ≠ 0) : Plain (replaceSpecial c) := by
  unfold replaceSpecial
  split
  · exact ⟨by decide, by decide, by decide, by decide⟩
  · rename_i hs
    simp only [not_or] at hs
    exact ⟨h, hs.1, hs.2.1, hs.2.2⟩

theorem isDigit_plain {c : UInt8} (h : isDigit c = true) : Plain c := by
  obtain ⟨h48, -⟩ := isDigit_iff.1 h
  have ne : ∀ d : UInt8, d.toNat < 48 → c ≠ d := fun d hd e => by rw [e] at h48; omega
  exact ⟨ne 0 (by decide), ne star (by decide), ne hash (by decide), ne newline (by decide)⟩

theorem valueText_plain (v : FieldValue D) : ∀ c ∈ valueText dt v, Plain c := by
  intro c hc
  cases v with
  | string v => cases v with
    | none => cases hc
    | some v =>
      obtain ⟨d, hd, rfl⟩ := List.mem_map.1 hc
      exact replaceSpecial_plain (CString.ne_zero hd)
  | int v => cases v with
    | none => cases hc
    | some n =>
      rcases mem_printInt hc with rfl | hd
      · exact ⟨by decide, by decide, by decide, by decide⟩
      · exact isDigit_plain hd
  | double v => cases v with
    | none => cases hc
    | some d => exact dt.plain d c hc

/-- The text of a value as a string. -/
def valueString (v : FieldValue D) : CString := ⟨valueText dt v, fun h => (valueText_plain dt v 0 h).1 rfl⟩

theorem hash_not_mem_valueText (v : FieldValue D) : hash ∉ valueText dt v :=
  fun h => (valueText_plain dt v _ h).2.2.1 rfl

theorem newline_not_mem_recordText {version : Bytes} (hv : newline ∉ version) (vs : List (FieldValue D)) :
    newline ∉ recordText dt version vs := by
  intro h
  rcases List.mem_append.1 h with h | h
  · rcases List.mem_cons.1 h with h | h
    · exact absurd h (by decide)
    · exact hv h
  · obtain ⟨v, -, hv⟩ := List.mem_flatMap.1 h
    rcases List.mem_cons.1 hv with hv | hv
    · exact absurd hv (by decide)
    · exact (valueText_plain dt v _ hv).2.2.2 rfl

/-! ## What a record is read back as -/

/-- A string with the special characters replaced. -/
def replaceAll (s : CString) : CString :=
  ⟨s.1.map replaceSpecial, fun h => by
    obtain ⟨c, hc, e⟩ := List.mem_map.1 h
    exact (replaceSpecial_plain (CString.ne_zero hc)).1 e⟩

/-- A value as it comes back: special characters replaced, empty strings and numbers that are not positive undefined,
a double as its text is read. -/
def reread : FieldValue D → FieldValue D
  | .string (some v) => .string (if v.vString.1 = [] then none else some ⟨replaceAll v.vString, v.vString.1.length⟩)
  | .int (some n)    => .int (if 0 < n.toInt then some n else none)
  | .double (some d) => .double (match dt.scan (dt.print d) with
      | none   => none
      | some d => if dt.positive d then some d else none)
  | .string none     => .string none
  | .int none        => .int none
  | .double none     => .double none

theorem reread_type (v : FieldValue D) : (reread dt v).type = v.type := by
  rcases v with (_ | _) | (_ | _) | (_ | _) <;> rfl

/-- The text of a value is decoded to what the value comes back as. -/
theorem decodeField_valueText (v : FieldValue D) :
    decodeField dt (valueString dt v) (valueText dt v).length v.type = reread dt v := by
  cases v with
  | string v => cases v with
    | none => rfl
    | some v =>
      simp only [FieldValue.type, decodeField, valueText, List.length_map, reread, List.length_eq_zero_iff]
      rfl
  | int v => cases v with
    | none => rfl
    | some n =>
      have hscan : scanInt (printInt n.toInt) = some (n.toInt, []) := by
        simpa using scanInt_printInt n.toInt (show ∀ c ∈ ([] : Bytes), isSpace c = true by simp) noDigit_nil
      simp only [FieldValue.type, decodeField, valueString, valueText, if_neg (printInt_ne_nil _), hscan, intOf_toInt,
        reread]
  | double v => cases v with
    | none => rfl
    | some d => simp only [FieldValue.type, decodeField, valueString, valueText, dt.print_ne_nil d, if_false, reread]

theorem decodeFields_texts : ∀ {fs : List FieldDef} {v : FieldValue D} {vs : List (FieldValue D)},
    (v :: vs).map FieldValue.type = fs.map FieldDef.type →
    decodeFields dt fs (valueText dt v ++ vs.flatMap (fun v => hash :: valueText dt v) ++ [0]) =
      some ((v :: vs).map (reread dt))
  | [], v, vs, h => by cases h
  | [f], v, [], h => by
    have ht : v.type = f.type := (List.cons.inj h).1
    have hc : cStr (valueText dt v ++ [0]) = valueText dt v := cStr_append_nul (valueString dt v).2 []
    have hs : CString.at (valueText dt v ++ [0]) = valueString dt v := Subtype.ext hc
    simp only [List.flatMap_nil, List.append_nil, decodeFields, hs, hc, ← ht, decodeField_valueText, List.map_cons,
      List.map_nil]
  | [f], v, w :: vs, h => by cases (List.cons.inj h).2
  | f :: g :: fs, v, [], h => by cases (List.cons.inj h).2
  | f :: g :: fs, v, w :: vs, h => by
    obtain ⟨ht, hrest⟩ := List.cons.inj h
    have hshape : valueText dt v ++ (w :: vs).flatMap (fun v => hash :: valueText dt v) ++ [0] =
        valueText dt v ++ hash :: (valueText dt w ++ vs.flatMap (fun v => hash :: valueText dt v) ++ [0]) := by
      simp [List.flatMap_cons, List.append_assoc]
    have hcut := strchr_append (hash_not_mem_valueText dt v)
      (valueText dt w ++ vs.flatMap (fun v => hash :: valueText dt v) ++ [0])
    have hs : CString.at (valueText dt v) = valueString dt v := Subtype.ext (cStr_eq_self (valueString dt v).2)
    rw [hshape, decodeFields]
    simp only [hcut, List.take_left, List.drop_length_add_append, List.drop_succ_cons, List.drop_zero, hs,
      decodeFields_texts hrest, ← ht, decodeField_valueText, Option.map_some, List.map_cons]

end Message
end Flp
