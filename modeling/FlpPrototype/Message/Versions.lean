import FlpPrototype.Message.RoundTrip
import Mathlib.Data.List.Nodup
/-!
# Versions — records of the older protocols

A record is decoded by the fields of its own protocol and then converted to the default one, by tables that
`infoLog_proto_init` fills.  With the tables filled a record of any protocol keeps the fields both protocols have
(`decode_converted`).  `infoLoggerServer` never fills them, so it decodes the records of the default protocol only
(`server_decodes_iff`).
-/
namespace Flp
namespace Message

variable {D : Type} (dt : DoubleText D)

/-! ## Conversion -/

/-- The value a list of fields and values has for a field, or another value. -/
def pick : List (FieldDef × FieldValue D) → FieldDef → FieldValue D → FieldValue D
  | [], _, other              => other
  | (f, v) :: fvs, g, other => if f = g then v else pick fvs g other

theorem pick_of_not_mem : ∀ {fvs : List (FieldDef × FieldValue D)} {g : FieldDef}, g ∉ fvs.map Prod.fst →
    ∀ other, pick fvs g other = other
  | [], _, _, _ => rfl
  | (f, v) :: fvs, g, h, other => by
    rw [List.map_cons, List.mem_cons, not_or] at h
    rw [pick, if_neg fun e => h.1 e.symm, pick_of_not_mem h.2 other]

theorem protocol14_nodup : protocol14.fields.Nodup := by decide

/-- The index of a field is where that field stands in the default protocol. -/
theorem convertIndex_eq_some {f : FieldDef} {k : Nat} : convertIndex f = some k ↔ protocol14.fields[k]? = some f := by
  have same : ∀ g : FieldDef, g.type = f.type ∧ g.name = f.name ↔ g = f := fun g =>
    ⟨fun ⟨htype, hname⟩ => by cases g; cases f; cases htype; cases hname; rfl, fun h => by rw [h]; exact ⟨rfl, rfl⟩⟩
  unfold convertIndex
  rw [List.findIdx?_eq_some_iff_getElem]
  constructor
  · rintro ⟨hlt, hk, -⟩
    rw [List.getElem?_eq_getElem hlt, (same _).1 (of_decide_eq_true hk)]
  · intro hk
    obtain ⟨hlt, hf⟩ := List.getElem?_eq_some_iff.1 hk
    refine ⟨hlt, decide_eq_true ((same _).2 hf), fun j hj hjf => ?_⟩
    have heq := (same _).1 (of_decide_eq_true hjf)
    exact absurd ((List.Nodup.getElem_inj_iff protocol14_nodup).1 (heq.trans hf.symm)) (Nat.ne_of_lt hj)

/-- A turn of the loop sets the field it converts. -/
theorem getElem?_convertStep (new : List (FieldValue D)) (f : FieldDef) (v : FieldValue D)
    (hlen : new.length = protocol14.fields.length) {k : Nat} {g : FieldDef} (hg : protocol14.fields[k]? = some g) :
    (convertStep new (f, v))[k]? = if f = g then some v else new[k]? := by
  obtain ⟨hlt, hgk⟩ := List.getElem?_eq_some_iff.1 hg
  unfold convertStep
  cases hi : convertIndex f with
  | none =>
    have hne : f ≠ g := by
      rintro rfl
      rw [convertIndex_eq_some.2 hg] at hi
      cases hi
    rw [if_neg hne]
  | some i =>
    have hif := convertIndex_eq_some.1 hi
    by_cases h : f = g
    · have hik : i = k := by
        obtain ⟨hilt, hifk⟩ := List.getElem?_eq_some_iff.1 hif
        exact (List.Nodup.getElem_inj_iff protocol14_nodup).1 (by rw [hifk, hgk, h])
      rw [if_pos h, hik]
      exact List.getElem?_set_self (by rw [hlen]; exact hlt)
    · have hne : i ≠ k := by
        rintro rfl
        exact h (Option.some.inj (hif.symm.trans hg))
      rw [if_neg h]
      exact List.getElem?_set_ne hne

/-- **The loop**: a field of the default protocol gets the value of the same field, if there is one. -/
theorem getElem?_convertLoop {k : Nat} {g : FieldDef} (hg : protocol14.fields[k]? = some g) :
    ∀ (fvs : List (FieldDef × FieldValue D)) (new : List (FieldValue D)) (old : FieldValue D),
      (fvs.map Prod.fst).Nodup → new.length = protocol14.fields.length → new[k]? = some old →
      (fvs.foldl convertStep new)[k]? = some (pick fvs g old)
  | [], _, _, _, _, hold => hold
  | (f, v) :: fvs, new, old, hnodup, hlen, hold => by
    obtain ⟨hf, hnodup⟩ := List.nodup_cons.1 hnodup
    have hstep := getElem?_convertStep new f v hlen hg
    have hlen' : (convertStep new (f, v)).length = protocol14.fields.length := by
      unfold convertStep
      split
      · rw [List.length_set, hlen]
      · exact hlen
    rw [List.foldl_cons, pick]
    by_cases h : f = g
    · rw [if_pos h] at hstep ⊢
      rw [getElem?_convertLoop hg fvs _ v hnodup hlen' hstep, pick_of_not_mem (h ▸ hf)]
    · rw [if_neg h] at hstep ⊢
      exact getElem?_convertLoop hg fvs _ old hnodup hlen' (hstep.trans hold)

/-! ## Records of any protocol -/

/-- The texts of a record's fields have no separator in them. -/
structure Texts (p : Protocol) (texts : List CString) : Prop where
  length : texts.length = p.fields.length
  separators : ∀ t ∈ texts, hash ∉ t.1

/-- A record: the version, then the fields in order. -/
def textRecord (p : Protocol) (texts : List CString) : Bytes :=
  star :: p.version ++ texts.flatMap (fun t => hash :: t.1)

/-- The values of the texts, each by the type of its field. -/
def textValues (p : Protocol) (texts : List CString) : List (FieldDef × FieldValue D) :=
  (p.fields.zip texts).map fun ft => (ft.1, decodeField dt ft.2 ft.2.1.length ft.1.type)

theorem decodeFields_text : ∀ {fs : List FieldDef} {t : CString} {ts : List CString} {tail : Bytes},
    (t :: ts).length = fs.length → (∀ x ∈ t :: ts, hash ∉ x.1) → cStr tail = [] →
    decodeFields dt fs (t.1 ++ ts.flatMap (fun t => hash :: t.1) ++ tail) =
      some ((fs.zip (t :: ts)).map fun ft => decodeField dt ft.2 ft.2.1.length ft.1.type)
  | [], _, _, _, hlen, _, _ => by cases hlen
  | [f], t, [], tail, _, _, htail => by
    have hnul : tail = [] ∨ ∃ tail', tail = 0 :: tail' := by
      cases tail with
      | nil => exact .inl rfl
      | cons c tail =>
        by_cases hc : c = 0
        · exact .inr ⟨tail, by rw [hc]⟩
        · rw [cStr, List.takeWhile_cons_of_pos (by simpa using hc)] at htail
          cases htail
    have hstr : cStr (t.1 ++ tail) = t.1 := by
      rcases hnul with rfl | ⟨tail, rfl⟩
      · rw [List.append_nil, cStr_eq_self t.2]
      · exact cStr_append_nul t.2 tail
    have hat : CString.at (t.1 ++ tail) = t := Subtype.ext hstr
    simp only [List.flatMap_nil, List.append_nil, decodeFields, hat, hstr, List.zip_cons_cons, List.zip_nil_right,
      List.map_cons, List.map_nil]
  | [f], t, u :: ts, _, hlen, _, _ => by
    simp at hlen
  | f :: g :: fs, t, [], _, hlen, _, _ => by
    simp at hlen
  | f :: g :: fs, t, u :: ts, tail, hlen, hsep, htail => by
    have hshape : t.1 ++ (u :: ts).flatMap (fun t => hash :: t.1) ++ tail =
        t.1 ++ hash :: (u.1 ++ ts.flatMap (fun t => hash :: t.1) ++ tail) := by
      simp [List.flatMap_cons, List.append_assoc]
    have hcut := strchr_append (hsep t List.mem_cons_self) (u.1 ++ ts.flatMap (fun t => hash :: t.1) ++ tail)
    have hrest := @decodeFields_text (g :: fs) u ts tail (by simpa using hlen)
      (fun v hv => hsep v (List.mem_cons_of_mem _ hv)) htail
    rw [hshape, decodeFields]
    simp only [hcut, List.take_left, List.drop_length_add_append, List.drop_succ_cons, List.drop_zero, hrest,
      Option.map_some, CString.at_coe, List.zip_cons_cons, List.map_cons]

theorem textValues_typed {p : Protocol} {texts : List CString} (h : Texts p texts) :
    ((textValues dt p texts).map Prod.snd).map FieldValue.type = p.fields.map FieldDef.type := by
  rw [textValues, List.map_map, List.map_map]
  have htype : ∀ ft : FieldDef × CString, (decodeField dt ft.2 ft.2.1.length ft.1.type).type = ft.1.type := fun ft =>
    decodeField_type dt _ _ _
  simp only [Function.comp_def, htype]
  rw [show (fun ft : FieldDef × CString => ft.1.type) = FieldDef.type ∘ Prod.fst from rfl, ← List.map_map,
    List.map_fst_zip (Nat.le_of_eq h.length.symm)]

/-- What a record says, by its own protocol. -/
def recordMsg (p : Protocol) (texts : List CString) (h : Texts p texts) : Msg D :=
  ⟨p, (textValues dt p texts).map Prod.snd, textValues_typed dt h⟩

/-- The versions tell the protocols apart. -/
theorem find?_version {p : Protocol} (hp : p ∈ protocols) :
    hash ∉ p.version ∧ p.fields ≠ [] ∧ protocols.find? (fun q => decide (cStr p.version = q.version)) = some p := by
  revert p
  decide

theorem decodeBlob_text (isInit : Bool) {p : Protocol} {texts : List CString} {tail : Bytes} (hp : p ∈ protocols)
    (h : Texts p texts) (htail : cStr tail = []) :
    decodeBlob dt isInit (textRecord p texts ++ tail) =
      (infoLogMsgConvert isInit (recordMsg dt p texts h)).toOption := by
  obtain ⟨hversion, hfields, hfind⟩ := find?_version hp
  cases texts with
  | nil => exact absurd (List.length_eq_zero_iff.1 h.length.symm) hfields
  | cons t ts =>
    have hshape : textRecord p (t :: ts) ++ tail =
        star :: (p.version ++ hash :: (t.1 ++ ts.flatMap (fun t => hash :: t.1) ++ tail)) := by
      simp [textRecord, List.flatMap_cons, List.append_assoc]
    have hcut := strchr_append hversion (t.1 ++ ts.flatMap (fun t => hash :: t.1) ++ tail)
    have hdecode : decodeFields dt p.fields ((p.version ++
        hash :: (t.1 ++ ts.flatMap (fun t => hash :: t.1) ++ tail)).drop (p.version.length + 1)) =
          some ((textValues dt p (t :: ts)).map Prod.snd) := by
      rw [List.drop_length_add_append, List.drop_succ_cons, List.drop_zero, textValues, List.map_map]
      exact decodeFields_text dt h.length h.separators htail
    rw [hshape]
    simp only [decodeBlob, hcut, List.take_left, hfind]
    rw [if_neg (by simp)]
    split
    · rename_i hnone
      rw [hdecode] at hnone
      cases hnone
    · rename_i values hvalues
      rw [hdecode] at hvalues
      obtain rfl := Option.some.inj hvalues
      rfl

/-! ## What a record comes to -/

/-- **A record is decoded**: to a message of the default protocol, in which a field both protocols have is read from the
record's text and every other one is undefined. -/
def Decoded (isInit : Bool) (p : Protocol) (texts : List CString) (tail : Bytes) : Prop :=
  ∃ m : Msg D, infoLogDecode dt isInit [textRecord p texts ++ tail] = some [m] ∧ m.protocol = protocol14 ∧
    ∀ (k : Nat) g, protocol14.fields[k]? = some g →
      (∀ (j : Nat) t, p.fields[j]? = some g → texts[j]? = some t →
        m.values[k]? = some (decodeField dt t t.1.length g.type)) ∧
      (g ∉ p.fields → m.values[k]? = some (.undefined g.type))

variable {p : Protocol} {texts : List CString} {tail : Bytes}

theorem pick_of_mem : ∀ {fvs : List (FieldDef × FieldValue D)} {g : FieldDef} {v : FieldValue D},
    (fvs.map Prod.fst).Nodup → (g, v) ∈ fvs → ∀ other, pick fvs g other = v
  | (f, w) :: fvs, g, v, hnodup, hmem, other => by
    obtain ⟨hf, hnodup⟩ := List.nodup_cons.1 hnodup
    rcases List.mem_cons.1 hmem with heq | hmem
    · obtain ⟨rfl, rfl⟩ := Prod.mk.inj heq
      rw [pick, if_pos rfl]
    · have hne : f ≠ g := by
        rintro rfl
        exact hf (List.mem_map.2 ⟨_, hmem, rfl⟩)
      rw [pick, if_neg hne, pick_of_mem hnodup hmem other]

theorem protocols_nodup (hp : p ∈ protocols) : p.fields.Nodup := by
  revert p
  decide

theorem infoLogDecode_one {isInit : Bool} {b : Bytes} {m : Msg D} (h : decodeBlob dt isInit b = some m) :
    infoLogDecode dt isInit [b] = some [m] := by
  simp only [infoLogDecode, h, Option.map_some]

theorem mem_textValues {j : Nat} {g : FieldDef} {t : CString} (hg : p.fields[j]? = some g) (ht : texts[j]? = some t) :
    (g, decodeField dt t t.1.length g.type) ∈ textValues dt p texts := by
  refine List.mem_map.2 ⟨(g, t), List.mem_of_getElem? (?_ : (p.fields.zip texts)[j]? = some (g, t)), rfl⟩
  rw [List.getElem?_zip_eq_some]
  exact ⟨hg, ht⟩

theorem textValues_fields (h : Texts p texts) : (textValues dt p texts).map Prod.fst = p.fields := by
  rw [textValues, List.map_map]
  exact List.map_fst_zip (Nat.le_of_eq h.length.symm)

theorem decoded_default (isInit : Bool) (h : Texts protocol14 texts) (htail : cStr tail = []) :
    Decoded dt isInit protocol14 texts tail := by
  have hblob := decodeBlob_text dt isInit List.mem_cons_self h htail
  rw [infoLogMsgConvert_default isInit rfl] at hblob
  refine ⟨recordMsg dt protocol14 texts h, infoLogDecode_one dt hblob, rfl,
    fun k g hg => ⟨fun j t hj ht => ?_, fun hno => ?_⟩⟩
  · have hjk : j = k := by
      obtain ⟨hjlt, hjg⟩ := List.getElem?_eq_some_iff.1 hj
      obtain ⟨hklt, hkg⟩ := List.getElem?_eq_some_iff.1 hg
      exact (List.Nodup.getElem_inj_iff protocol14_nodup).1 (hjg.trans hkg.symm)
    subst hjk
    have hzip : (protocol14.fields.zip texts)[j]? = some (g, t) := List.getElem?_zip_eq_some.2 ⟨hj, ht⟩
    simp only [recordMsg, textValues, List.getElem?_map, hzip, Option.map_some]
  · exact absurd (List.mem_of_getElem? hg) hno

/-- **With the tables filled** the records of every protocol are decoded. -/
theorem decode_converted (hp : p ∈ protocols) (h : Texts p texts) (htail : cStr tail = []) :
    Decoded dt true p texts tail := by
  by_cases hdefault : p = protocol14
  · subst hdefault
    exact decoded_default dt true h htail
  · have hblob := decodeBlob_text dt true hp h htail
    rw [infoLogMsgConvert, if_neg (show ¬(recordMsg dt p texts h).protocol = protocol14 from hdefault),
      if_pos rfl] at hblob
    refine ⟨_, infoLogDecode_one dt hblob, rfl, fun k g hg => ?_⟩
    -- the converted values are those picked
    have hvalues : (convertValues p.fields ((textValues dt p texts).map Prod.snd))[k]? =
        some (pick (textValues dt p texts) g (.undefined g.type)) := by
      have hzip : p.fields.zip ((textValues dt p texts).map Prod.snd) = textValues dt p texts :=
        (List.zip_of_prod (textValues_fields dt h) rfl).symm
      rw [convertValues, hzip]
      refine getElem?_convertLoop hg _ _ _ ?_ (List.length_map _) ?_
      · rw [textValues_fields dt h]
        exact protocols_nodup hp
      · rw [List.getElem?_map, hg, Option.map_some]
    have hnodup : ((textValues dt p texts).map Prod.fst).Nodup := by
      rw [textValues_fields dt h]
      exact protocols_nodup hp
    refine ⟨fun j t hj ht => ?_, fun hno => ?_⟩
    · rw [← pick_of_mem hnodup (mem_textValues dt hj ht) (.undefined g.type)]
      exact hvalues
    · rw [← textValues_fields dt h] at hno
      rw [← pick_of_not_mem hno (.undefined g.type)]
      exact hvalues

/-! ## The server -/

/-- Whether `infoLoggerServer` has called `infoLog_proto_init` when it decodes: nothing in it does. -/
def serverIsInit : Bool := false

/-- **The server decodes the records of the default protocol**, and of no other. -/
theorem server_decodes_iff (hp : p ∈ protocols) (h : Texts p texts) (htail : cStr tail = []) :
    Decoded dt serverIsInit p texts tail ↔ p = protocol14 := by
  constructor
  · rintro ⟨m, hm, -⟩
    by_contra hdefault
    have hblob := decodeBlob_text dt false hp h htail
    rw [infoLogMsgConvert, if_neg (show ¬(recordMsg dt p texts h).protocol = protocol14 from hdefault),
      if_neg (by decide)]
      at hblob
    rw [serverIsInit, infoLogDecode, hblob] at hm
    cases hm
  · rintro rfl
    exact decoded_default dt serverIsInit h htail

/-- A record of protocol 1.3 with no text in its fields but the last, and a NUL behind it. -/
def olderTexts : List CString := List.replicate 16 (CString.at []) ++ [CString.at (ascii ['h', 'i'])]

theorem server_decodes_iff_older : protocol13 ∈ protocols ∧ Texts protocol13 olderTexts ∧ cStr [0] = [] ∧
    (Decoded wholeNumbers serverIsInit protocol13 olderTexts [0] ↔ protocol13 = protocol14) := by
  have hp : protocol13 ∈ protocols := List.mem_cons_of_mem _ List.mem_cons_self
  have htexts : Texts protocol13 olderTexts := ⟨by decide, by decide⟩
  exact ⟨hp, htexts, by decide, server_decodes_iff wholeNumbers hp htexts (by decide)⟩

/-- **A record of protocol 1.3 is refused.** -/
theorem older_record_refused : Texts protocol13 olderTexts ∧
    infoLogDecode wholeNumbers serverIsInit [textRecord protocol13 olderTexts ++ [0]] = none ∧
    ¬Decoded wholeNumbers serverIsInit protocol13 olderTexts [0] := by
  have hnone : infoLogDecode wholeNumbers serverIsInit [textRecord protocol13 olderTexts ++ [0]] = none := by
    decide +kernel
  refine ⟨⟨by decide, by decide⟩, hnone, ?_⟩
  rintro ⟨m, hm, -⟩
  rw [hnone] at hm
  cases hm

end Message
end Flp
