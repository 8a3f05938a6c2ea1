import FlpPrototype.Message.Versions
import FlpPrototype.Message.WellFormed
/-!
# Log — what `InfoLogger` sends for a message

`pushMessage` puts a text into a copy of the default message, encodes it into a buffer of its own and sends what the
buffer shows, whatever the encoder returned.  Where the names of host and user leave room for the mark of a text cut
off, the encoder never fails: what is sent are whole records (`logV_records`), each a line that decodes to one message.
-/
namespace Flp
namespace Message

variable {D : Type} (dt : DoubleText D)

/-! ## The encoder does not fail -/

variable {N : Nat} {s s' : Mysprintf} {t : Bytes} {split : Int} {sol : Option CString} {msg : Msg D} {good : Option Nat}

/-- A string field says where it began. -/
theorem encodeField_string {i : Nat} {v : StringValue} {ix : Option Nat}
    (hm : encodeField dt split sol i s (.string (some v)) = some (ix, s')) : ix = some s.strLength := by
  simp only [encodeField] at hm
  split at hm
  · exact (Prod.mk.inj (Option.some.inj hm)).1.symm
  · obtain ⟨s₁, -, hm⟩ := Option.map_eq_some_iff.1 hm
    exact (Prod.mk.inj hm).1.symm

/-- **The last field is reached** when the fields before it fit. -/
theorem encodeFields_last (hN : N ≤ intMax) (hsol : ∀ str ∈ sol, str.1.length ≤ intMax) {v : StringValue} :
    ∀ (pre : List (FieldValue D)) (i : Nat) (ix : Option Nat) (s : Mysprintf) (t : Bytes)
      (r : Nat × Option Nat × Mysprintf), Holds N s t → ShortStrings pre →
      encodeFields dt split sol i ix s (pre ++ [.string (some v)]) = some r →
      (t ++ fieldTexts dt split (lineOf sol) i pre ++ [hash]).length < N →
      i + pre.length ≤ r.1 ∧ r.2.1 = some (t ++ fieldTexts dt split (lineOf sol) i pre ++ [hash]).length
  | [], i, ix, s, t, r, h, _, hm, hroom => by
    obtain ⟨s₁, ix₂, s₂, h₁, h₂, hr⟩ := encodeFields_cons dt hm
    have hend : t ++ fieldTexts dt split (lineOf sol) i ([] : List (FieldValue D)) ++ [hash] = t ++ [hash] :=
      congrArg (· ++ [hash]) (List.append_nil t)
    rw [hend] at hroom ⊢
    have h₁ := (mysprintf_holds hN h h₁).resolve_right fun hc => absurd hc.1.tooLong (by omega)
    have hix := encodeField_string dt h₂
    rw [h₁.len] at hix
    rcases hr with ⟨-, rfl⟩ | ⟨-, hr⟩
    · exact ⟨Nat.le_refl _, hix⟩
    · obtain rfl := Option.some.inj hr
      exact ⟨Nat.le_succ _, hix⟩
  | w :: pre, i, ix, s, t, r, h, hvs, hm, hroom => by
    have hshort := shortLines_of_le hsol
    have hw : ShortStrings [w] := fun x hx => hvs x (by rw [List.mem_singleton.1 hx]; exact List.mem_cons_self)
    obtain ⟨s₁, ix₂, s₂, h₁, h₂, hr⟩ := encodeFields_cons dt hm
    have htexts : t ++ fieldTexts dt split (lineOf sol) i (w :: pre) =
        t ++ [hash] ++ valueText dt (lineAt split (lineOf sol) i w) ++
          fieldTexts dt split (lineOf sol) (i + 1) pre := by
      rw [fieldTexts_cons]
      simp only [List.append_assoc]
    rw [htexts] at hroom ⊢
    have hlength := hroom
    rw [List.length_append, List.length_append, List.length_append] at hlength
    have h₁ := (mysprintf_holds hN h h₁).resolve_right fun hc => absurd hc.1.tooLong (by omega)
    have hok : s₂.isError = false := Bool.eq_false_iff.2 fun herr => by
      have htooLong := ((encodeField_behind dt hN hsol h₁ hw h₂).failed herr).1
      omega
    have hr := (hr.resolve_left fun hr => by rw [hok] at hr; cases hr.1).2
    have h₂ := (encodeField_holds dt hN hshort h₁ h₂).resolve_right (by rw [hok]; exact Bool.false_ne_true)
    obtain ⟨hlast, hix⟩ := encodeFields_last hN hsol pre (i + 1) ix₂ s₂ _ r h₂
      (fun x hx => hvs x (List.mem_cons_of_mem _ hx)) hr hroom
    exact ⟨by rw [List.length_cons]; omega, hix⟩

/-! ## Messages whose last field is the text -/

/-- The field that is split is the last, and it is a string. -/
structure TextLast (msg : Msg D) (split : Int) (pre : List (FieldValue D)) : Prop where
  values : ∃ v, msg.values = pre ++ [.string (some v)]
  split : (pre.length : Int) = split

/-- What comes before the text in each record. -/
def headText (msg : Msg D) (pre : List (FieldValue D)) : Bytes :=
  star :: msg.protocol.version ++ pre.flatMap (fun v => hash :: valueText dt v) ++ [hash]

/-- The text of a line. -/
def lineText (line : Option CString) : Bytes := (line.map fun l => l.1.map replaceSpecial).getD []

/-- The record of a text. -/
def headed (head text : Bytes) : Bytes := head ++ text ++ [newline]

theorem lineValues_append (line : Option CString) : ∀ (i : Nat) (vs ws : List (FieldValue D)),
    lineValues split line i (vs ++ ws) = lineValues split line i vs ++ lineValues split line (i + vs.length) ws
  | _, [], _      => rfl
  | i, v :: vs, ws => by
    rw [List.cons_append, lineValues, lineValues, lineValues_append line (i + 1) vs ws, List.length_cons,
      List.cons_append, Nat.add_right_comm, Nat.add_assoc]

theorem lineValues_before (line : Option CString) :
    ∀ {i : Nat} {vs : List (FieldValue D)}, (i + vs.length : Int) ≤ split →
    lineValues split line i vs = vs
  | _, [], _     => rfl
  | i, v :: vs, h => by
    rw [List.length_cons] at h
    have hv : lineAt split line i v = v := by
      cases v with
      | string v => cases v with
        | none => rfl
        | some v => exact if_neg (by omega)
      | int v => rfl
      | double v => rfl
    rw [lineValues, hv, lineValues_before line (by omega)]

variable {pre : List (FieldValue D)}

theorem TextLast.fieldTexts (h : TextLast msg split pre) (line : Option CString) :
    star :: msg.protocol.version ++ fieldTexts dt split line 0 pre ++ [hash] = headText dt msg pre := by
  rw [Message.fieldTexts, lineValues_before line (by rw [← h.split]; omega)]
  rfl

theorem TextLast.lineValues (h : TextLast msg split pre) (line : Option CString) :
    lineValues split line 0 msg.values = pre ++ [.string (line.map fun l => ⟨l, l.1.length⟩)] := by
  obtain ⟨v, hvalues⟩ := h.values
  rw [hvalues, lineValues_append, lineValues_before line (by rw [← h.split]; omega), Nat.zero_add, Message.lineValues,
    lineAt, if_pos h.split, Message.lineValues]

/-- **A record** is the head and the text of its line. -/
theorem TextLast.recordText (h : TextLast msg split pre) (line : Option CString) :
    recordText dt msg.protocol.version (Message.lineValues split line 0 msg.values) = headText dt msg pre ++
      lineText line := by
  have hline : valueText dt (.string (line.map fun l => ⟨l, l.1.length⟩)) = lineText line := by
    cases line <;> rfl
  rw [h.lineValues, Message.recordText, List.flatMap_append, List.flatMap_singleton, hline, headText]
  simp [List.append_assoc]

/-- There is room for the head and the mark of a text cut off. -/
structure Roomy (N : Nat) (msg : Msg D) (split : Int) (pre : List (FieldValue D)) : Prop where
  last : TextLast msg split pre
  size : N + 8 ≤ intMax
  version : msg.protocol.version.length ≤ 6
  strings : ShortStrings msg.values
  head : (headText dt msg pre).length + 8 ≤ N

/-- The loop over the lines has come to a line, the records of some texts being in the buffer. -/
structure Came (N : Nat) (msg : Msg D) (pre : List (FieldValue D)) (texts : List Bytes) (good : Option Nat)
    (s : Mysprintf) :
    Prop where
  reached : Reached N msg.protocol (texts.map (headed (headText dt msg pre))) good s
  room : ∀ g ∈ good, g + 8 ≤ N
  plain : ∀ text ∈ texts, ∀ c ∈ text, Plain c

/-- What shows of the lines after a result: all of them, or the first and one cut off. -/
structure Shown (lines : List Bytes) (code : Int) (texts : List Bytes) : Prop where
  plain : ∀ text ∈ texts, ∀ c ∈ text, Plain c
  texts : code = 0 ∧ texts = lines ∨
    code = -1 ∧ ∃ complete text, texts = complete ++ [text ++ truncateText] ∧ complete <+: lines

variable {texts : List Bytes}

/-- The mark of a text cut off has a place: in the last field, or over the end of the last good record. -/
theorem ixTruncateMsg_placed (hsol : ∀ str ∈ sol, str.1.length ≤ intMax) (hroomy : Roomy dt N msg split pre)
    (h : Came dt N msg pre texts good s) {s₁ : Mysprintf} {r : Nat × Option Nat × Mysprintf}
    (h₁ : mysprintf s (star :: msg.protocol.version) = some s₁)
    (h₂ : encodeFields dt split sol 0 none s₁ msg.values = some r) :
    0 ≤ ixTruncateMsg msg.protocol.fields.length N r.1 r.2.1 good ∧
      (ixTruncateMsg msg.protocol.fields.length N r.1 r.2.1 good).toNat + sizeofTruncateMsg ≤ N := by
  have hsizeof : sizeofTruncateMsg = 8 := rfl
  have hN := hroomy.size
  rcases h.reached.good with ⟨rfl, hnil⟩ | ⟨rfl, hne, -⟩
  · have hhead := hroomy.head
    have hvs := hroomy.strings
    have hlength := msg_values_length msg
    obtain ⟨v, hvalues⟩ := hroomy.last.values
    rw [← hroomy.last.fieldTexts dt (lineOf sol)] at hhead
    have hfields := hhead
    rw [hvalues] at h₂ hvs
    rw [hvalues, List.length_append, List.length_singleton] at hlength
    rw [List.length_append, List.length_append] at hfields
    have hinit := h.reached.holds
    rw [hnil, List.flatten_nil] at hinit
    have h₁ := (mysprintf_holds (by omega) hinit h₁).resolve_right fun hc => absurd hc.1.tooLong (by
      rw [List.nil_append]
      omega)
    obtain ⟨hreached, hix⟩ := encodeFields_last dt (by omega) hsol pre 0 none s₁ _ r h₁
      (fun x hx => hvs x (List.mem_append_left _ hx)) h₂ (by rw [List.nil_append]; omega)
    rw [List.nil_append] at hix
    unfold ixTruncateMsg
    rw [hix]
    simp only
    rw [if_pos (by omega)]
    omega
  · have hroom := h.room _ rfl
    have hpos := ixTruncateMsg_nonneg msg.protocol.fields.length N r.1 r.2.1 (flatten_pos h.reached.records hne)
    refine ⟨hpos, ?_⟩
    rcases ixTruncateMsg_cases hpos with ⟨p, -, -, hfit, heq⟩ | ⟨g, hg, heq⟩
    · rw [heq]
      omega
    · obtain rfl := Option.some.inj hg
      rw [heq]
      omega

/-- **A turn of the loop over the lines** does not fail. -/
theorem encodeRecord_placed (hsol : ∀ str ∈ sol, str.1.length ≤ intMax) (hroomy : Roomy dt N msg split pre)
    (h : Came dt N msg pre texts good s) {e : Nat} {truncated : Bool}
    (hm : encodeRecord dt msg split sol good s = some (s', e, truncated)) : truncated = true ∨ e = 0 := by
  have hN := hroomy.size
  obtain ⟨s₁, r, s₃, h₁, h₂, h₃, -⟩ := encodeRecord_some dt hm
  have hsize := (mysprintf_fits (encodeFields_fits dt _ _ _ _ _ (mysprintf_fits h.reached.holds.allFits h₁) h₂) h₃).size
  obtain ⟨hpos, hroom⟩ := ixTruncateMsg_placed dt hsol hroomy h h₁ h₂
  rw [encodeRecord_printed dt h₁ h₂ h₃, hsize] at hm
  split at hm
  · have hmax : intMax < 2 ^ 31 := by decide
    rw [if_neg] at hm
    · obtain ⟨s₄, -, hm⟩ := Option.map_eq_some_iff.1 hm
      exact .inl (Prod.mk.inj (Prod.mk.inj hm).2).2.symm
    · rintro (hneg | hlong)
      · omega
      · rw [toSigned_of_lt (by omega)] at hlong
        omega
  · exact .inr (Prod.mk.inj (Prod.mk.inj (Option.some.inj hm)).2).1.symm

theorem lineText_plain (line : Option CString) : ∀ c ∈ lineText line, Plain c := by
  intro c hc
  cases line with
  | none => cases hc
  | some l =>
    obtain ⟨x, hx, rfl⟩ := List.mem_map.1 hc
    exact replaceSpecial_plain fun h => l.2 (h ▸ hx)

theorem plain_append {text : Bytes} (hplain : ∀ text ∈ texts, ∀ c ∈ text, Plain c) (htext : ∀ c ∈ text, Plain c) :
    ∀ text' ∈ texts ++ [text], ∀ c ∈ text', Plain c := fun text' h => by
  rcases List.mem_append.1 h with h | h
  · exact hplain text' h
  · rw [List.mem_singleton.1 h]
    exact htext

theorem shown_cutOff {lines complete : List Bytes} {text : Bytes} (hplain : ∀ text' ∈ complete, ∀ c ∈ text', Plain c)
    (htext : ∀ c ∈ text, Plain c) (hfirst : complete <+: lines) :
    Shown lines (-1) (complete ++ [text ++ truncateText]) := by
  refine ⟨plain_append hplain fun c hc => ?_, .inr ⟨rfl, complete, text, rfl, hfirst⟩⟩
  rcases List.mem_append.1 hc with hc | hc
  · exact htext c hc
  · exact truncateText_plain c hc

/-- A record cut off has the head of the others. -/
theorem Came.cutOff (hsol : ∀ str ∈ sol, str.1.length ≤ intMax) (hroomy : Roomy dt N msg split pre)
    (h : Came dt N msg pre texts good s) {e : Nat} (hm : encodeRecord dt msg split sol good s = some (s', e, true))
    (rest : List Bytes) :
    ∃ sent, s'.buffer = sent.flatMap (headed (headText dt msg pre)) ∧ Shown (texts ++ rest) (-1) sent := by
  have hN := hroomy.size
  have hversion := hroomy.version
  have hmax : intMax = 2 ^ 31 - 1 := by decide
  obtain ⟨v, hvalues⟩ := hroomy.last.values
  rcases encodeRecord_truncated dt (by omega) hsol (by omega) hroomy.strings (by rw [hvalues]; simp) h.reached.holds
    h.reached.lastGood hm with ⟨pre', v', text, hvalues', htext, hbuffer⟩ | ⟨hgood, hbuffer⟩
  · -- in the last field of the record under way
    obtain ⟨rfl, -⟩ := List.append_inj' (hvalues.symm.trans hvalues') rfl
    refine ⟨texts ++ [text ++ truncateText], ?_, shown_cutOff h.plain htext (List.prefix_append _ _)⟩
    rw [hbuffer, hroomy.last.fieldTexts dt, ← List.flatMap_def, List.flatMap_append, List.flatMap_singleton, headed,
      truncateMsg_eq]
    simp only [List.append_assoc]
  · -- over the end of the last complete one
    cases texts using List.reverseRecOn with
    | nil =>
      rcases h.reached.good with ⟨hnone, -⟩ | ⟨-, hne, -⟩
      · rw [hgood] at hnone
        cases hnone
      · exact absurd rfl hne
    | append_singleton complete last =>
      refine ⟨complete ++ [last ++ truncateText], ?_,
        shown_cutOff (fun text ht => h.plain text (List.mem_append_left _ ht))
        (h.plain last (List.mem_append_right _ (List.mem_singleton_self last))) ?_⟩
      · rw [hbuffer, ← List.flatMap_def, List.flatMap_append, List.flatMap_singleton, headed, ← List.append_assoc,
          List.length_append, List.length_singleton, Nat.add_sub_cancel, List.take_left, List.flatMap_append,
          List.flatMap_singleton, headed, truncateMsg_eq]
        simp only [List.append_assoc]
      · rw [List.append_assoc]
        exact List.prefix_append _ _

/-- **A turn of the loop** puts one more record behind the others, or it is the last and a record is cut off. -/
theorem Came.turn (hsol : ∀ str ∈ sol, str.1.length ≤ intMax) (hroomy : Roomy dt N msg split pre)
    (h : Came dt N msg pre texts good s) (hfields : FieldsDefined dt N split sol 0
      ((texts.map (headed (headText dt msg pre))).flatten.length + 1 + msg.protocol.version.length) msg.values) :
    (∃ s₃, encodeRecord dt msg split sol good s = some (s₃, 0, false) ∧
      RecordFits dt N msg split sol (texts.map (headed (headText dt msg pre))).flatten.length ∧
      Holds N s₃ ((texts ++ [lineText (lineOf sol)]).map (headed (headText dt msg pre))).flatten ∧
      (∀ record ∈ (texts ++ [lineText (lineOf sol)]).map (headed (headText dt msg pre)), IsRecord msg.protocol record) ∧
      ((texts ++ [lineText (lineOf sol)]).map (headed (headText dt msg pre))).flatten.length =
        recordEnd dt msg split sol (texts.map (headed (headText dt msg pre))).flatten.length) ∨
    ∀ rest, ∃ code sent, encodeLoop dt msg split good s sol = some (code, sent.flatMap (headed (headText dt msg pre))) ∧
      Shown (texts ++ rest) code sent := by
  have hN := hroomy.size
  have hversion := hroomy.version
  have hmax : intMax = 2 ^ 31 - 1 := by decide
  obtain ⟨⟨s', e, truncated⟩, hm⟩ := (encodeRecord_some_iff dt (by omega) hsol (by omega) hroomy.strings h.reached.holds
    (h.reached.start hversion) h.reached.lastGood).2 hfields
  cases truncated with
  | true =>
    refine .inr fun rest => ?_
    obtain ⟨sent, hbuffer, hshown⟩ := h.cutOff dt hsol hroomy hm rest
    exact ⟨-1, sent, by rw [encodeLoop_truncated dt hm, hbuffer], hshown⟩
  | false =>
    obtain rfl := (encodeRecord_placed dt hsol hroomy h hm).resolve_left Bool.false_ne_true
    obtain ⟨s₁, r, h₁, h₂, h₃, -⟩ := encodeRecord_cases dt hm
    have hp : RecordPrinted dt msg split sol s r s' := ⟨⟨s₁, h₁, h₂⟩, h₃⟩
    have hfits := (encodeRecord_complete_iff dt (by omega) hsol (by omega) hroomy.strings h.reached.holds hp).1 hm
    obtain ⟨record, hrecord, hholds, hrecords, hlength⟩ :=
      h.reached.holds_next dt (by omega) hsol (by omega) hroomy.strings hp hfits
    have heq : texts.map (headed (headText dt msg pre)) ++ [record] =
        (texts ++ [lineText (lineOf sol)]).map (headed (headText dt msg pre)) := by
      rw [List.map_append, List.map_singleton, hrecord, hroomy.last.recordText, headed]
    rw [heq] at hholds hrecords hlength
    exact .inl ⟨s', hm, hfits, hholds, hrecords, hlength⟩

/-- **The loop over the lines** leaves records with one head. -/
theorem LinesDefined.shown (hroomy : Roomy dt N msg split pre) {start : Nat}
    (hdefined : LinesDefined dt N msg split start sol) :
    ∀ (texts : List Bytes) (good : Option Nat) (s : Mysprintf),
      start = (texts.map (headed (headText dt msg pre))).flatten.length → (∀ str ∈ sol, str.1.length ≤ intMax) →
      Came dt N msg pre texts good s →
      ∃ code sent, encodeLoop dt msg split good s sol = some (code, sent.flatMap (headed (headText dt msg pre))) ∧
        Shown (texts ++ (linesOf sol).map lineText) code sent := by
  have hN := hroomy.size
  have hmax : intMax < 2 ^ 31 := by decide
  induction hdefined with
  | @last start sol hend hfields =>
    rintro texts good s rfl hsol h
    rcases h.turn dt hsol hroomy hfields with ⟨s₃, hm, -, hholds, -⟩ | hstop
    · refine ⟨0, texts ++ [lineText (lineOf sol)], ?_, plain_append h.plain (lineText_plain _), .inl ⟨rfl, ?_⟩⟩
      · rw [encodeLoop_end dt hm hend, hholds.text, List.flatMap_def]
      · rw [linesOf_last hend, List.map_singleton]
    · exact hstop _
  | @line start str eol hline hfields hend hrest ih =>
    rintro texts good s rfl hsol h
    rcases h.turn dt hsol hroomy hfields with ⟨s₃, hm, hfits, hholds, hrecords, hlength⟩ | hstop
    · -- the room that was tested for
      have hroom : s₃.strLength + 8 ≤ N := by
        have hlt := hfits.1
        have hsizeof : sizeofTruncateMsg = 8 := rfl
        have htested := hfits.2 (by rw [eolOf, Option.bind_some, hline]; rfl)
        rw [toSigned_of_lt (by omega)] at htested
        rw [hholds.len, hlength]
        omega
      have hnext : Came dt N msg pre (texts ++ [lineText (lineOf (some str))]) (some s₃.strLength) s₃ :=
        ⟨⟨hholds, hrecords, .inr ⟨by rw [hholds.len], by simp, by rw [hlength]; exact hend hfits⟩⟩,
          fun g hg => by obtain rfl := Option.some.inj hg; exact hroom, plain_append h.plain (lineText_plain _)⟩
      obtain ⟨code, sent, hloop, hshown⟩ :=
        ih hfits _ _ s₃ hlength.symm (length_drop_le hline (hsol str rfl)) hnext
      refine ⟨code, sent, (encodeLoop_line dt hm hline).trans hloop, ?_⟩
      rw [linesOf_line hline, List.map_cons, List.append_cons]
      exact hshown
    · exact hstop _

/-! ## `InfoLogger` -/

structure ProcessInfo where
  processId : Int32
  hostName : CString
  userName : CString

inductive Severity where
  | info | error | fatal | warning | debug | undefined
  deriving DecidableEq, Repr

def Severity.char : Severity → UInt8
  | .info      => 73
  | .error     => 69
  | .fatal     => 70
  | .warning   => 87
  | .debug     => 68
  | .undefined => 85

theorem Severity.char_ne_zero (severity : Severity) : (0 : UInt8) ∉ [severity.char] := by
  cases severity <;> decide

/-- The letter of a severity as a string. -/
def Severity.str (severity : Severity) : CString := ⟨[severity.char], severity.char_ne_zero⟩

/-- `InfoLoggerMessageHelperSetValue`, for a value of the field's type. -/
def Msg.setValue (msg : Msg D) (ix : Nat) (v : FieldValue D)
    (h : (msg.values.map FieldValue.type).set ix v.type = msg.values.map FieldValue.type) : Msg D :=
  ⟨msg.protocol, msg.values.set ix v, by rw [List.map_set, h, msg.typed]⟩

/-- A string that is set; its `length` is not. -/
def newString (str : CString) : FieldValue D := .string (some ⟨str, 0⟩)

def undefinedMsg : Msg D := ⟨protocol14, protocol14.fields.map fun f => .undefined f.type, by
  rw [List.map_map]
  exact List.map_congr_left fun f _ => FieldValue.type_undefined f.type⟩

/-- `refreshDefaultMsg`. -/
def defaultMsg (info : ProcessInfo) : Msg D :=
  (((undefinedMsg.setValue 0 (newString Severity.info.str) rfl).setValue 3 (newString info.hostName) rfl).setValue 6
    (newString info.userName) rfl).setValue 5 (.int (some info.processId)) rfl

/-- The message `pushMessage` encodes; `now` is what `gettimeofday` gives, if it does not fail. -/
def pushedMsg (info : ProcessInfo) (now : Option D) (severity : Severity) (messageBody : Option CString) : Msg D :=
  match now, messageBody with
  | some now, some body => (((defaultMsg info).setValue 2 (.double (some now)) rfl).setValue ixMessage (newString body)
      rfl).setValue 0 (newString severity.str) rfl
  | some now, none      =>
      ((defaultMsg info).setValue 2 (.double (some now)) rfl).setValue 0 (newString severity.str) rfl
  | none, some body     =>
      ((defaultMsg info).setValue ixMessage (newString body) rfl).setValue 0 (newString severity.str) rfl
  | none, none          => (defaultMsg info).setValue 0 (newString severity.str) rfl

def LOG_MAX_SIZE : Nat := 1024

/-- `pushMessage`: the result of the encoder, which is not looked at, and what is sent. -/
def pushMessage (info : ProcessInfo) (now : Option D) (severity : Severity) (messageBody : Option CString) :
    Option (Int × Bytes) :=
  infoLogMsgEncode dt (pushedMsg info now severity messageBody) [] LOG_MAX_SIZE ixMessage

/-- `logV`, `text` being what the format makes. -/
def logV (info : ProcessInfo) (now : Option D) (severity : Severity) (text : CString) : Option (Int × Bytes) :=
  pushMessage dt info now severity (some (text.take (LOG_MAX_SIZE - 1)))

variable {info : ProcessInfo} {now : Option D} {severity : Severity}

/-- The fields before the text. -/
def headValues (info : ProcessInfo) (now : Option D) (severity : Severity) : List (FieldValue D) :=
  [newString severity.str, .int none, .double now, newString info.hostName, .string none, .int (some info.processId),
    newString info.userName, .string none, .string none, .string none, .string none, .int none, .int none, .int none,
    .string none]

/-- What comes before the text in the records of a message. -/
def logHead (info : ProcessInfo) (now : Option D) (severity : Severity) : Bytes :=
  star :: protocol14.version ++ (headValues info now severity).flatMap (fun v => hash :: valueText dt v) ++ [hash]

theorem pushedMsg_values (info : ProcessInfo) (now : Option D) (severity : Severity) (body : CString) :
    (pushedMsg info now severity (some body)).values = headValues info now severity ++ [newString body] := by
  cases now <;> rfl

theorem pushedMsg_protocol (info : ProcessInfo) (now : Option D) (severity : Severity) (body : CString) :
    (pushedMsg info now severity (some body)).protocol = protocol14 := by
  cases now <;> rfl

theorem pushedMsg_textLast (info : ProcessInfo) (now : Option D) (severity : Severity) (body : CString) :
    TextLast (pushedMsg info now severity (some body)) ixMessage (headValues info now severity) :=
  ⟨⟨⟨body, 0⟩, pushedMsg_values ..⟩, rfl⟩

theorem pushedMsg_head (info : ProcessInfo) (now : Option D) (severity : Severity) (body : CString) :
    headText dt (pushedMsg info now severity (some body)) (headValues info now severity) =
      logHead dt info now severity := by
  rw [headText, pushedMsg_protocol, logHead]

theorem splitText_pushedMsg (info : ProcessInfo) (now : Option D) (severity : Severity) (body : CString) :
    splitText (pushedMsg info now severity (some body)) ixMessage = some body := by
  unfold splitText
  rw [if_neg (by decide), pushedMsg_values]
  rfl

theorem pushedMsg_short {body : CString} {n : Nat} (hhead : (logHead dt info now severity).length ≤ n)
    (hbody : body.1.length ≤ n) :
    ∀ v ∈ (pushedMsg info now severity (some body)).values, (valueText dt v).length ≤ n := by
  intro v hv
  rw [pushedMsg_values] at hv
  rcases List.mem_append.1 hv with hv | hv
  · have hsub :
      (hash :: valueText dt v).Sublist ((headValues info now severity).flatMap fun v => hash :: valueText dt v) := by
      rw [List.flatMap_def]
      exact List.sublist_flatten_of_mem (List.mem_map_of_mem hv)
    have hle := hsub.length_le
    simp only [logHead, List.length_append, List.length_cons] at hhead hle
    omega
  · rw [List.mem_singleton.1 hv]
    simpa [newString, valueText] using hbody

/-- A message the buffer has room for is sent as whole records. -/
theorem pushMessage_shown (hhead : (logHead dt info now severity).length + 8 ≤ LOG_MAX_SIZE) {body : CString}
    (hlength : body.1.length ≤ 1023) :
    ∃ code texts, pushMessage dt info now severity (some body) =
        some (code, texts.flatMap (headed (logHead dt info now severity))) ∧
      Shown ((linesOf (some body)).map lineText) code texts := by
  have hsize : LOG_MAX_SIZE = 1024 := rfl
  have hmax : intMax = 2 ^ 31 - 1 := by decide
  have hp := pushedMsg_protocol info now severity body
  have hshort : ∀ v ∈ (pushedMsg info now severity (some body)).values, (valueText dt v).length ≤ 1023 :=
    pushedMsg_short dt (by omega) hlength
  have hvs : ShortStrings (pushedMsg info now severity (some body)).values := fun v hv => by
    have := hshort _ hv
    rw [valueText, List.length_map] at this
    omega
  have hsol : ∀ str ∈ some body, str.1.length ≤ 1023 := fun str hstr => by
    obtain rfl := Option.some.inj hstr
    exact hlength
  have hsplit : SplitIndex (pushedMsg info now severity (some body)).protocol ixMessage :=
    .inr ⟨ixMessage, ⟨.string, "message"⟩, rfl, by rw [hp]; rfl, rfl⟩
  have hdefined : LinesDefined dt LOG_MAX_SIZE (pushedMsg info now severity (some body)) ixMessage 0 (some body) :=
    linesDefined_of_short dt (by omega) (by omega) hshort _ _ _ rfl hsol
  have hroomy :
      Roomy dt LOG_MAX_SIZE (pushedMsg info now severity (some body)) ixMessage (headValues info now severity) :=
    ⟨pushedMsg_textLast .., by omega, by rw [hp]; decide, hvs, by rw [pushedMsg_head]; exact hhead⟩
  have hinit : Came dt LOG_MAX_SIZE (pushedMsg info now severity (some body)) (headValues info now severity) [] none
      (mysprintfInit LOG_MAX_SIZE) :=
    ⟨reached_init (by decide), fun _ hg => absurd hg (by simp), fun _ ht => absurd ht List.not_mem_nil⟩
  obtain ⟨code, texts, hloop, hshown⟩ := hdefined.shown dt hroomy [] none _ rfl
    (fun str hstr => Nat.le_trans (hsol str hstr) (by omega)) hinit
  rw [pushedMsg_head] at hloop
  refine ⟨code, texts, ?_, hshown⟩
  rw [pushMessage, infoLogMsgEncode_loop dt (by decide) hsplit, splitText_pushedMsg]
  exact hloop

/-- **A message that is logged** is sent as one record for each line of its text, all with the same head; where they do
not fit, the last one says so. -/
theorem logV_shown (hhead : (logHead dt info now severity).length + 8 ≤ LOG_MAX_SIZE) (text : CString) :
    ∃ code texts, logV dt info now severity text = some (code, texts.flatMap (headed (logHead dt info now severity))) ∧
      Shown ((linesOf (some (text.take (LOG_MAX_SIZE - 1)))).map lineText) code texts :=
  pushMessage_shown dt hhead (List.length_take_le ..)

def pcInfo : ProcessInfo := ⟨7, CString.at (ascii ['p', 'c']), CString.at (ascii ['u'])⟩

theorem logV_shown_twoLines : (logHead wholeNumbers pcInfo (some 5) .error).length + 8 ≤ LOG_MAX_SIZE ∧
    ∃ code texts, logV wholeNumbers pcInfo (some 5) .error twoLines =
        some (code, texts.flatMap (headed (logHead wholeNumbers pcInfo (some 5) .error))) ∧
      Shown ((linesOf (some (twoLines.take (LOG_MAX_SIZE - 1)))).map lineText) code texts := by
  have hhead : (logHead wholeNumbers pcInfo (some 5) .error).length + 8 ≤ LOG_MAX_SIZE := by decide +kernel
  exact ⟨hhead, logV_shown wholeNumbers hhead twoLines⟩

example : (linesOf (some (twoLines.take (LOG_MAX_SIZE - 1)))).map lineText = [ascii ['a', '?'], ascii ['b']] := by
  decide +kernel

/-! ## What is decoded -/

/-- What a record of a message says: its fields as they are read again. -/
def loggedMsg (info : ProcessInfo) (now : Option D) (severity : Severity) (text : CString) : Msg D :=
  rereadMsg dt (pushedMsg info now severity (some text)) (some text)

theorem replaceSpecial_of_plain {text : Bytes} (h : ∀ c ∈ text, Plain c) : text.map replaceSpecial = text := by
  refine (List.map_congr_left fun c hc => ?_).trans (List.map_id _)
  obtain ⟨-, hstar, hhash, hnewline⟩ := h c hc
  rw [replaceSpecial, if_neg (by rintro (h | h | h) <;> contradiction), id]

/-- **A record that was sent is decoded.** -/
theorem decodeBlob_log (isInit : Bool) (info : ProcessInfo) (now : Option D) (severity : Severity) (text : CString)
    (h : ∀ c ∈ text.1, Plain c) : decodeBlob dt isInit (logHead dt info now severity ++ text.1 ++ [0]) =
      some (loggedMsg dt info now severity text) := by
  have hrecord := (pushedMsg_textLast info now severity text).recordText dt (some text)
  rw [pushedMsg_head, lineText, Option.map_some, Option.getD_some, replaceSpecial_of_plain h] at hrecord
  rw [← hrecord]
  exact decodeBlob_record dt isInit (pushedMsg_protocol ..) (some text)

end Message
end Flp
