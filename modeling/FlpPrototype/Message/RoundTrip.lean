import FlpPrototype.Message.Decode
/-!
# RoundTrip — a message encoded by lines and decoded again

A message of the default protocol is encoded with one record for each line of its `message` field, the buffer is cut at
the newlines, and each record is shipped as a blob with its terminator.  What the decoder makes of the blobs is the
message again, line by line (`roundTrips_iff`), but for a line so long that its length is no `int`.
-/
namespace Flp
namespace Message

variable {D : Type} (dt : DoubleText D)

def infoLogMsgFindField (fieldName : String) : Int :=
  match protocol14.fields.findIdx? (fun f => decide (f.name = fieldName)) with
  | some i => i
  | none   => -1

def ixMessage : Nat := 15

example : infoLogMsgFindField "message" = ixMessage := by decide

/-- The text of the `message` field. -/
def messageText (msg : Msg D) : Option CString :=
  match msg.values[ixMessage]? with
  | some (.string v) => v.map StringValue.vString
  | _                => none

/-- The message that comes back for a line. -/
def rereadMsg (msg : Msg D) (line : Option CString) : Msg D where
  protocol := msg.protocol
  values := (lineValues ixMessage line 0 msg.values).map (reread dt)
  typed := by
    rw [List.map_map, show FieldValue.type ∘ reread dt = FieldValue.type from funext (reread_type dt), lineValues_types,
      msg.typed]

/-- The buffer holds one record for each line of the text, and the records decode to the message, line by line. -/
def RoundTrips (isInit : Bool) (msg : Msg D) (buffer : Bytes) : Prop :=
  ∃ records, cutLines newline buffer = (records, []) ∧ records.length = (linesOf (messageText msg)).length ∧
    infoLogDecode dt isInit (records.map (fun r => r ++ [0])) =
      some ((linesOf (messageText msg)).map (rereadMsg dt msg))

/-! ## The records decode -/

/-- The blob of a record of the default protocol. -/
theorem decodeBlob_record (isInit : Bool) {msg : Msg D} (hp : msg.protocol = protocol14) (line : Option CString) :
    decodeBlob dt isInit (recordText dt msg.protocol.version (lineValues ixMessage line 0 msg.values) ++ [0]) =
      some (rereadMsg dt msg line) := by
  have htypes : (lineValues ixMessage line 0 msg.values).map FieldValue.type = protocol14.fields.map FieldDef.type := by
    rw [lineValues_types, msg.typed, hp]
  have hreread : (rereadMsg dt msg line).values = (lineValues ixMessage line 0 msg.values).map (reread dt) := rfl
  cases hvs : lineValues ixMessage line 0 msg.values with
  | nil => rw [hvs] at htypes; cases htypes
  | cons v vs =>
    rw [hvs] at htypes hreread
    have hshape : recordText dt msg.protocol.version (v :: vs) ++ [0] = star :: (protocol14.version ++
        hash :: (valueText dt v ++ vs.flatMap (fun v => hash :: valueText dt v) ++ [0])) := by
      rw [hp]
      simp [recordText, List.flatMap_cons, List.append_assoc]
    have hcut := strchr_append (show hash ∉ protocol14.version by decide)
      (valueText dt v ++ vs.flatMap (fun v => hash :: valueText dt v) ++ [0])
    have hfind : protocols.find? (fun p => decide (cStr protocol14.version = p.version)) = some protocol14 := by decide
    have hfields : decodeFields dt protocol14.fields ((protocol14.version ++
        hash :: (valueText dt v ++ vs.flatMap (fun v => hash :: valueText dt v) ++ [0])).drop
          (protocol14.version.length + 1)) = some ((v :: vs).map (reread dt)) := by
      rw [List.drop_length_add_append, List.drop_succ_cons, List.drop_zero]
      exact decodeFields_texts dt htypes
    rw [hshape]
    simp only [decodeBlob, hcut, List.take_left, hfind]
    rw [if_neg (by simp)]
    split
    · rename_i h
      rw [hfields] at h
      cases h
    · rename_i values h
      rw [hfields] at h
      rw [infoLogMsgConvert_default isInit rfl]
      exact congrArg some (Msg.ext_values hp.symm (by rw [hreread]; exact (Option.some.inj h).symm))

theorem infoLogDecode_map (isInit : Bool) {α : Type} {f : α → Bytes} {g : α → Msg D} :
    ∀ {xs : List α}, (∀ x ∈ xs, decodeBlob dt isInit (f x) = some (g x)) →
      infoLogDecode dt isInit (xs.map f) = some (xs.map g)
  | [], _ => rfl
  | x :: xs, h => by
    rw [List.map_cons, infoLogDecode, h x List.mem_cons_self]
    simp only [infoLogDecode_map isInit (fun y hy => h y (List.mem_cons_of_mem _ hy)), Option.map_some, List.map_cons]

/-- What the encoder was called for, at the `message` field. -/
theorem infoLogMsgEncode_message {msg : Msg D} (hp : msg.protocol = protocol14) {old buffer : Bytes} {size : Int}
    (h : infoLogMsgEncode dt msg old size ixMessage = some (0, buffer)) :
    0 < size ∧ encodeLoop dt msg ixMessage none (mysprintfInit size.toNat) (messageText msg) = some (0, buffer) := by
  unfold infoLogMsgEncode at h
  by_cases hs : size ≤ 0
  · rw [if_pos hs] at h
    cases (Prod.mk.inj (Option.some.inj h)).1
  · refine ⟨by omega, ?_⟩
    have hlen : ¬ (msg.protocol.fields.length : Int) ≤ (ixMessage : Int) := by rw [hp]; decide
    rw [if_neg hs, if_neg (by decide), if_neg (by decide), if_neg hlen] at h
    rw [messageText]
    rw [Int.toNat_natCast] at h
    cases hv : msg.values[ixMessage]? with
    | none =>
      rw [hv] at h
      cases (Prod.mk.inj (Option.some.inj h)).1
    | some v =>
      rw [hv] at h
      cases v with
      | string x => exact h
      | int n => cases (Prod.mk.inj (Option.some.inj h)).1
      | double d => cases (Prod.mk.inj (Option.some.inj h)).1

theorem holds_init {N : Nat} (h : 0 < N) : Holds N (mysprintfInit N) [] := ⟨rfl, rfl, rfl, h, rfl⟩

/-- **Short lines come back.** -/
theorem roundTrips_of_shortLines (isInit : Bool) {msg : Msg D} (hp : msg.protocol = protocol14) {old buffer : Bytes}
    {size : Int} (hsize : size ≤ intMax) (h : infoLogMsgEncode dt msg old size ixMessage = some (0, buffer))
    (hshort : ShortLines (messageText msg)) : RoundTrips dt isInit msg buffer := by
  obtain ⟨hpos, hloop⟩ := infoLogMsgEncode_message dt hp h
  have hbuffer := encodeLoop_zero dt (N := size.toNat) (by omega) (by rw [hp]; decide) _ none hshort
    (holds_init (by omega)) hloop
  refine ⟨recordsText dt msg ixMessage (messageText msg), ?_, by rw [recordsText, List.length_map], ?_⟩
  · rw [hbuffer, List.nil_append]
    refine cutLines_flatMap newline (fun r hr => ?_)
    obtain ⟨line, -, rfl⟩ := List.mem_map.1 hr
    exact newline_not_mem_recordText dt (by rw [hp]; decide) _
  · rw [recordsText, List.map_map]
    exact infoLogDecode_map dt isInit (fun line _ => decodeBlob_record dt isInit hp line)

/-! ## A line that does not fit an `int` does not come back -/

/-- What the buffer shows fits it. -/
structure Fits (N : Nat) (s : Mysprintf) : Prop where
  size : s.bufferSize = N
  len : s.strLength < N
  text : s.buffer.length < N

variable {N : Nat} {s s' : Mysprintf}

theorem mysprintf_fits {out : Bytes} (h : Fits N s) (hm : mysprintf s out = some s') : Fits N s' := by
  have hlen := h.len
  have htext : (s.buffer.take s.strLength ++ out.take (s.bufferSize - s.strLength - 1)).length < N := by
    have := h.size
    simp only [List.length_append, List.length_take]
    omega
  unfold mysprintf at hm
  by_cases herr : s.isError = true
  · rw [if_pos herr] at hm
    exact Option.some.inj hm ▸ h
  · rw [if_neg herr] at hm
    by_cases hbig : intMax < out.length
    · simp only [if_pos hbig] at hm
      exact Option.some.inj hm ▸ ⟨h.size, hlen, htext⟩
    · simp only [if_neg hbig] at hm
      cases hadd : intAdd out.length s.strLength with
      | none => rw [hadd] at hm; cases hm
      | some len =>
        simp only [hadd] at hm
        by_cases hover : s.bufferSize ≤ len
        · rw [if_pos hover] at hm
          exact Option.some.inj hm ▸ ⟨h.size, by show s.bufferSize - 1 < N; rw [h.size]; omega, htext⟩
        · rw [if_neg hover] at hm
          exact Option.some.inj hm ▸ ⟨h.size, by show len < N; rw [h.size] at hover; omega, htext⟩

theorem cutAtLine_fits {ix eol : Nat} (h : Fits N s) : Fits N (cutAtLine s ix eol) := by
  unfold cutAtLine
  simp only
  split
  · rename_i hn
    have := h.text
    refine ⟨h.size, ?_, ?_⟩
    · show (toSigned 32 (ix + eol)).toNat < N
      rw [h.size] at hn
      omega
    · show (s.buffer.take _).length < N
      rw [List.length_take]
      omega
  · exact h

theorem replaceFrom_fits {ix : Nat} (h : Fits N s) : Fits N (replaceFrom s ix) := by
  refine ⟨h.size, h.len, ?_⟩
  show (s.buffer.take ix ++ (s.buffer.drop ix).map replaceSpecial).length < N
  have := h.text
  simp only [List.length_append, List.length_take, List.length_map, List.length_drop]
  omega

theorem encodeField_fits {split : Int} {sol : Option CString} {i : Nat} {v : FieldValue D} {ix : Option Nat}
    (h : Fits N s) (hm : encodeField dt split sol i s v = some (ix, s')) : Fits N s' := by
  have number : ∀ out, (mysprintf s out).map (fun s => ((none : Option Nat), s)) = some (ix, s') → Fits N s' := by
    intro out heq
    obtain ⟨s₁, h₁, heq⟩ := Option.map_eq_some_iff.1 heq
    obtain ⟨-, rfl⟩ := Prod.mk.inj heq
    exact mysprintf_fits h h₁
  have nothing : ∀ ix₁ : Option Nat, some (ix₁, s) = some (ix, s') → Fits N s' := by
    intro ix₁ heq
    obtain ⟨-, rfl⟩ := Prod.mk.inj (Option.some.inj heq)
    exact h
  cases v with
  | int v => cases v with
    | none => exact nothing _ hm
    | some n => exact number _ hm
  | double v => cases v with
    | none => exact nothing _ hm
    | some d => exact number _ hm
  | string v => cases v with
    | none => exact nothing _ hm
    | some v =>
      simp only [encodeField] at hm
      cases hstr : (if (i : Int) = split then sol else some v.vString) with
      | none =>
        rw [hstr] at hm
        exact nothing _ hm
      | some str =>
        simp only [hstr] at hm
        obtain ⟨s₁, h₁, heq⟩ := Option.map_eq_some_iff.1 hm
        obtain ⟨-, rfl⟩ := Prod.mk.inj heq
        apply replaceFrom_fits
        split
        · exact cutAtLine_fits (mysprintf_fits h h₁)
        · exact mysprintf_fits h h₁

theorem encodeFields_fits {split : Int} {sol : Option CString} :
    ∀ (vs : List (FieldValue D)) (i : Nat) (ix : Option Nat) (s : Mysprintf) (r : Nat × Option Nat × Mysprintf),
      Fits N s → encodeFields dt split sol i ix s vs = some r → Fits N r.2.2
  | [], _, _, _, _, h, hm => Option.some.inj hm ▸ h
  | v :: vs, i, ix, s, r, h, hm => by
    obtain ⟨s₁, ix₂, s₂, h₁, h₂, hr⟩ := encodeFields_cons dt hm
    have hf := encodeField_fits dt (mysprintf_fits h h₁) h₂
    rcases hr with ⟨-, rfl⟩ | ⟨-, hr⟩
    · exact hf
    · exact encodeFields_fits vs (i + 1) ix₂ s₂ r hf hr

theorem encodeLoop_fits {msg : Msg D} {split : Int} (sol : Option CString) (good : Option Nat) {s : Mysprintf}
    {buffer : Bytes} (h : Fits N s) (hm : encodeLoop dt msg split good s sol = some (0, buffer)) :
    buffer.length < N := by
  -- by the length of what is left of the split field
  obtain ⟨n, hn⟩ : ∃ n, sol.elim 0 (fun s => s.1.length) = n := ⟨_, rfl⟩
  induction n using Nat.strong_induction_on generalizing sol good s with | _ n ih => ?_
  obtain ⟨s', hr, hm⟩ := encodeLoop_cases dt hm
  obtain ⟨s₁, r, h₁, h₂, h₃, -⟩ := encodeRecord_cases dt hr
  have hs' := mysprintf_fits (encodeFields_fits dt _ _ _ _ _ (mysprintf_fits h h₁) h₂) h₃
  rcases hm with ⟨-, rfl⟩ | ⟨str, eol, rfl, hstr, hm⟩
  · exact hs'.text
  · exact ih _ (hn ▸ CString.length_drop_lt hstr) (some (str.drop (eol + 1))) _ hs' hm rfl

def stringLength : FieldValue D → Nat
  | .string (some v) => v.vString.1.length
  | _                => 0

theorem stringLength_decodeField (start : CString) (length : Nat) (t : FieldType) :
    stringLength (decodeField dt start length t) ≤ start.1.length := by
  cases t with
  | string =>
    unfold decodeField stringLength
    by_cases h : length = 0 <;> simp [h]
  | int => exact Nat.zero_le _
  | double => exact Nat.zero_le _

theorem decodeFields_length : ∀ {fs : List FieldDef} {rest : Bytes} {vs : List (FieldValue D)},
    decodeFields dt fs rest = some vs → ∀ v ∈ vs, stringLength v ≤ rest.length
  | [], _, _, h, v, hv => by rw [← Option.some.inj h] at hv; cases hv
  | [f], rest, _, h, v, hv => by
    rw [← Option.some.inj h] at hv
    rw [List.mem_singleton.1 hv]
    exact (stringLength_decodeField dt _ _ _).trans (length_cStr_le rest)
  | f :: g :: fs, rest, vs, h, v, hv => by
    unfold decodeFields at h
    cases hn : strchr rest hash with
    | none => rw [hn] at h; cases h
    | some n =>
      rw [hn] at h
      obtain ⟨vs', hvs', rfl⟩ := Option.map_eq_some_iff.1 h
      rcases List.mem_cons.1 hv with rfl | hv
      · exact ((stringLength_decodeField dt _ _ _).trans (length_cStr_le _)).trans (List.length_take_le' _ _)
      · refine (decodeFields_length hvs' v hv).trans ?_
        rw [List.length_drop]
        exact Nat.sub_le _ _

theorem convertValues_mem {fields : List FieldDef} {values : List (FieldValue D)} {v : FieldValue D}
    (h : v ∈ convertValues fields values) : v ∈ values ∨ stringLength v = 0 := by
  have loop : ∀ (fvs : List (FieldDef × FieldValue D)) (new : List (FieldValue D)),
      (∀ fv ∈ fvs, fv.2 ∈ values) → (∀ v ∈ new, v ∈ values ∨ stringLength v = 0) →
      ∀ v ∈ fvs.foldl convertStep new, v ∈ values ∨ stringLength v = 0 := by
    intro fvs
    induction fvs with
    | nil => exact fun _ _ hn => hn
    | cons fv fvs ih =>
      intro new hfv hn
      refine ih _ (fun x hx => hfv x (List.mem_cons_of_mem _ hx)) (fun w hw => ?_)
      unfold convertStep at hw
      split at hw
      · rcases List.mem_or_eq_of_mem_set hw with hw | rfl
        · exact hn w hw
        · exact .inl (hfv fv List.mem_cons_self)
      · exact hn w hw
  refine loop _ _ (fun fv hfv => (List.of_mem_zip hfv).2) (fun w hw => ?_) v h
  obtain ⟨f, -, rfl⟩ := List.mem_map.1 hw
  exact .inr (by cases f.type <;> rfl)

theorem decodeBlob_length {isInit : Bool} {b : Bytes} {m : Msg D} (h : decodeBlob dt isInit b = some m) :
    ∀ v ∈ m.values, stringLength v < b.length := by
  unfold decodeBlob at h
  cases b with
  | nil => cases h
  | cons c rest =>
    simp only at h
    by_cases hc : c ≠ star ∨ rest = []
    · rw [if_pos hc] at h; cases h
    · rw [if_neg hc] at h
      cases hn : strchr rest hash with
      | none => rw [hn] at h; cases h
      | some n =>
        simp only [hn] at h
        split at h
        · cases h
        · rename_i p hp
          split at h
          · cases h
          · rename_i values hv
            have hvalues : ∀ v ∈ values, stringLength v < (c :: rest).length := by
              intro v hmem
              have := decodeFields_length dt hv v hmem
              rw [List.length_drop] at this
              rw [List.length_cons]
              omega
            unfold infoLogMsgConvert at h
            split at h
            · rw [← Option.some.inj h]
              exact hvalues
            · split at h
              · rw [← Option.some.inj h]
                intro v hmem
                rcases convertValues_mem hmem with hmem | hzero
                · exact hvalues v hmem
                · rw [hzero]; exact Nat.succ_pos _
              · cases h

theorem infoLogDecode_mem {isInit : Bool} : ∀ {bs : List Bytes} {ms : List (Msg D)},
    infoLogDecode dt isInit bs = some ms → ∀ m ∈ ms, ∃ b ∈ bs, decodeBlob dt isInit b = some m
  | [], _, h, m, hm => by rw [← Option.some.inj h] at hm; cases hm
  | b :: bs, ms, h, m, hm => by
    unfold infoLogDecode at h
    cases hb : decodeBlob dt isInit b with
    | none => rw [hb] at h; cases h
    | some m' =>
      rw [hb] at h
      obtain ⟨ms', hms', rfl⟩ := Option.map_eq_some_iff.1 h
      rcases List.mem_cons.1 hm with rfl | hm
      · exact ⟨b, List.mem_cons_self, hb⟩
      · obtain ⟨b', hb', hd⟩ := infoLogDecode_mem hms' m hm
        exact ⟨b', List.mem_cons_of_mem _ hb', hd⟩

theorem lineValues_getElem? (split : Int) (line : Option CString) : ∀ (vs : List (FieldValue D)) (i k : Nat),
    (lineValues split line i vs)[k]? = vs[k]?.map (lineAt split line (i + k))
  | [], _, _ => rfl
  | v :: vs, i, 0 => rfl
  | v :: vs, i, k + 1 => by
    rw [lineValues, List.getElem?_cons_succ, List.getElem?_cons_succ, lineValues_getElem? split line vs,
      Nat.add_right_comm, Nat.add_assoc]

/-- The line is in the message that comes back for it. -/
theorem stringLength_rereadMsg {msg : Msg D} {str line : CString} (h : messageText msg = some str) (hl : line.1 ≠ []) :
    ∃ v ∈ (rereadMsg dt msg (some line)).values, stringLength v = line.1.length := by
  unfold messageText at h
  split at h
  · rename_i v hv
    obtain ⟨w, rfl, -⟩ := Option.map_eq_some_iff.1 h
    refine ⟨reread dt (.string (some ⟨line, line.1.length⟩)),
      List.mem_map.2 ⟨_, List.mem_iff_getElem?.2 ⟨ixMessage, ?_⟩, rfl⟩, ?_⟩
    · rw [lineValues_getElem?, hv, Option.map_some, lineAt, Nat.zero_add, if_pos rfl, Option.map_some]
    · simp [reread, hl, stringLength, replaceAll]
  · cases h

/-- **What comes back is short.** -/
theorem shortLines_of_roundTrips {isInit : Bool} {msg : Msg D} (hp : msg.protocol = protocol14) {old buffer : Bytes}
    {size : Int} (hsize : size ≤ intMax) (h : infoLogMsgEncode dt msg old size ixMessage = some (0, buffer))
    (hr : RoundTrips dt isInit msg buffer) : ShortLines (messageText msg) := by
  obtain ⟨hpos, hloop⟩ := infoLogMsgEncode_message dt hp h
  have hbuffer : buffer.length < size.toNat :=
    encodeLoop_fits dt _ _ ⟨rfl, by show 0 < size.toNat; omega, by show 0 < size.toNat; omega⟩ hloop
  obtain ⟨records, hcut, -, hdec⟩ := hr
  intro str hstr l hl
  rw [Option.mem_def.1 hstr] at hdec
  by_cases hne : l = []
  · rw [hne]; decide
  have hnul : 0 ∉ l := fun h0 => str.2 (mem_of_mem_cutLines newline hl h0)
  have hat : (CString.at l).1 = l := cStr_eq_self hnul
  have hmem : rereadMsg dt msg (some (CString.at l)) ∈ (linesOf (some str)).map (rereadMsg dt msg) :=
    List.mem_map_of_mem (List.mem_map.2 ⟨l, List.mem_append_left _ hl, rfl⟩)
  obtain ⟨b, hb, hblob⟩ := infoLogDecode_mem dt hdec _ hmem
  obtain ⟨r, hrec, rfl⟩ := List.mem_map.1 hb
  obtain ⟨v, hv, hlen⟩ := stringLength_rereadMsg dt (Option.mem_def.1 hstr) (show (CString.at l).1 ≠ [] by rwa [hat])
  have h1 := decodeBlob_length dt hblob v hv
  have h2 : r.length ≤ buffer.length := length_le_of_mem_cutLines newline (by rw [hcut]; exact hrec)
  have hmax : intMax < 2 ^ 31 := by decide
  rw [hlen, hat, List.length_append, List.length_singleton] at h1
  omega

/-- **A message comes back from its encoding, line by line, exactly when the lines a newline ends are shorter than two
to the 31.** -/
theorem roundTrips_iff (isInit : Bool) {msg : Msg D} (hp : msg.protocol = protocol14) {old buffer : Bytes} {size : Int}
    (hsize : size ≤ intMax) (h : infoLogMsgEncode dt msg old size ixMessage = some (0, buffer)) :
    RoundTrips dt isInit msg buffer ↔ ShortLines (messageText msg) :=
  ⟨shortLines_of_roundTrips dt hp hsize h, roundTrips_of_shortLines dt isInit hp hsize h⟩

/-- Doubles that are whole numbers, as `%lf` prints and reads them. -/
def wholeNumbers : DoubleText Nat where
  print n := printNat n ++ ascii ['.', '0', '0', '0', '0', '0', '0']
  scan b := (scanNat b).map Prod.fst
  positive n := decide (0 < n)
  plain n c hc := by
    rcases List.mem_append.1 hc with hc | hc
    · exact isDigit_plain (isDigit_of_mem_printNat hc)
    · rcases List.mem_cons.1 hc with rfl | hc
      · exact ⟨by decide, by decide, by decide, by decide⟩
      · have h0 : c = 48 := List.eq_of_mem_replicate (show c ∈ List.replicate 6 48 from hc)
        exact isDigit_plain (by rw [h0]; decide)
  print_ne_nil n := by simp [printNat_ne_nil]

/-- A message with the given first fields, the others undefined, and a text. -/
def reportMsg (text : CString) : Msg Nat where
  protocol := protocol14
  values := [.string (some ⟨CString.at (ascii ['I']), 1⟩), .int (some 7), .double (some 1099570259),
    .string (some ⟨CString.at (ascii ['p', 'c', '*', '1']), 4⟩), .string none, .int (some (-3)), .string none,
    .string none, .string none, .string none, .string none, .int none, .int none, .int none, .string none,
    .string (some ⟨text, text.1.length⟩)]
  typed := rfl

/-- Two lines, the first with a separator in it. -/
def twoLines : CString := CString.at (ascii ['a', '#', '\n', 'b'])

/-- The record of such a message up to the text. -/
def reportHead : Bytes :=
  ascii ['*', '1', '.', '4', '#', 'I', '#', '7', '#', '1', '0', '9', '9', '5', '7', '0', '2', '5', '9', '.', '0', '0',
    '0', '0', '0', '0', '#', 'p', 'c', '?', '1', '#', '#', '-', '3', '#', '#', '#', '#', '#', '#', '#', '#', '#', '#']

def twoLinesBuffer : Bytes := reportHead ++ ascii ['a', '?', '\n'] ++ (reportHead ++ ascii ['b', '\n'])

theorem roundTrips_iff_two_lines :
    infoLogMsgEncode wholeNumbers (reportMsg twoLines) [] 200 ixMessage = some (0, twoLinesBuffer) ∧
      (RoundTrips wholeNumbers false (reportMsg twoLines) twoLinesBuffer ↔
        ShortLines (messageText (reportMsg twoLines))) := by
  have h : infoLogMsgEncode wholeNumbers (reportMsg twoLines) [] 200 ixMessage = some (0, twoLinesBuffer) := by
    have h₁ : encodeRecord wholeNumbers (reportMsg twoLines) ixMessage (some twoLines) none (mysprintfInit 200) =
        some (⟨200, twoLinesBuffer.take 48, 48, false⟩, 0, false) := by rfl
    have h₂ : encodeRecord wholeNumbers (reportMsg twoLines) ixMessage (some (twoLines.drop 3)) (some 48)
        ⟨200, twoLinesBuffer.take 48, 48, false⟩ = some (⟨200, twoLinesBuffer, 95, false⟩, 0, false) := by rfl
    have hloop := (encodeLoop_line wholeNumbers h₁ (e := 2) (by rfl)).trans (encodeLoop_last wholeNumbers h₂ (by rfl))
    exact hloop
  exact ⟨h, roundTrips_iff wholeNumbers false rfl (by decide) h⟩

/-- A message that is nothing but a text. -/
def textMsg (text : CString) : Msg Nat where
  protocol := protocol14
  values := [.string none, .int none, .double none, .string none, .string none, .int none, .string none, .string none,
    .string none, .string none, .string none, .int none, .int none, .int none, .string none,
    .string (some ⟨text, text.1.length⟩)]
  typed := rfl

/-- The record of such a message up to the text. -/
def textHead : Bytes :=
  ascii ['*', '1', '.', '4', '#', '#', '#', '#', '#', '#', '#', '#', '#', '#', '#', '#', '#', '#', '#', '#']

theorem mysprintf_tooLong {s : Mysprintf} {out : Bytes} (h : s.isError = false) (hlen : intMax < out.length) :
    mysprintf s out =
      some { s with
        buffer := s.buffer.take s.strLength ++ out.take (s.bufferSize - s.strLength - 1), isError := true } := by
  unfold mysprintf
  rw [h, if_neg Bool.false_ne_true, if_pos hlen]

/-- The record of a text, from what is printed before and at the text. -/
theorem encodeRecord_textMsg {text : CString} {sol : Option CString} {good ix : Option Nat} {s a b c d : Mysprintf}
    (hversion : mysprintf s (star :: protocol14.version) = some a)
    (hbefore : ∀ v, encodeFields wholeNumbers ixMessage sol 0 none a ((textMsg text).values.take 15 ++ [v]) =
      (encodeField wholeNumbers ixMessage sol 15 b v).bind (fun r =>
        if r.2.isError then some (15, r.1, r.2) else some (16, r.1, r.2)))
    (hfield : encodeField wholeNumbers ixMessage sol 15 b (.string (some ⟨text, text.1.length⟩)) = some (ix, c))
    (hok : c.isError = false) (hend : mysprintf c [newline] = some d) (hok' : d.isError = false)
    (hroom : toSigned 32 (d.strLength + sizeofTruncateMsg) ≤ d.bufferSize) :
    encodeRecord wholeNumbers (textMsg text) ixMessage sol good s = some (d, 0, false) := by
  have hfields : encodeFields wholeNumbers ixMessage sol 0 none a (textMsg text).values = some (16, ix, c) := by
    have := hbefore (.string (some ⟨text, text.1.length⟩))
    rw [hfield, Option.bind_some, hok, if_neg Bool.false_ne_true] at this
    exact this
  rw [encodeRecord, show (textMsg text).protocol.version = protocol14.version from rfl, hversion]
  simp only [Option.bind_eq_bind, Option.bind_some, hfields, hend]
  rw [if_neg]
  rintro (h | ⟨-, h⟩)
  · rw [hok'] at h
    cases h
  · exact absurd h (by omega)

/-- A line of two to the 32 bytes: the difference of its ends is 0 as an `int`, so the line is cut off at its
beginning and the error is forgotten. -/
theorem encodeRecord_long_line {text : CString} (hlen : strchr text.1 newline = some (2 ^ 32)) :
    encodeRecord wholeNumbers (textMsg text) ixMessage (some text) none (mysprintfInit 100) =
      some (⟨100, textHead ++ [newline], 21, false⟩, 0, false) := by
  obtain ⟨htext, -, htake⟩ := strchr_eq_some hlen
  have hlong : intMax < text.1.length := by
    rw [List.length_take] at htake
    have : intMax < 2 ^ 32 := by decide
    omega
  have hprint := mysprintf_tooLong (s := ⟨100, textHead, 20, false⟩) rfl hlong
  have hnewl : toSigned 32 (20 + 2 ^ 32) = 20 := by decide
  have hfield : encodeField wholeNumbers ixMessage (some text) 15 ⟨100, textHead, 20, false⟩
      (.string (some ⟨text, text.1.length⟩)) = some (some 20, ⟨100, textHead, 20, false⟩) := by
    have heol : eolOf (some text) = some (2 ^ 32) := hlen
    rw [encodeField, if_pos (by decide), if_pos (by decide), heol]
    simp only [hprint, Option.map_some, cutAtLine, hnewl]
    rfl
  exact encodeRecord_textMsg (a := ⟨100, ascii ['*', '1', '.', '4'], 4, false⟩) (by rfl) (fun _ => rfl) hfield rfl
    (by rfl) rfl (by decide)

/-- The record of the empty line behind it. -/
theorem encodeRecord_empty_line (text : CString) :
    encodeRecord wholeNumbers (textMsg text) ixMessage (some (CString.at [])) (some 21)
      ⟨100, textHead ++ [newline], 21, false⟩ =
        some (⟨100, textHead ++ [newline] ++ (textHead ++ [newline]), 42, false⟩, 0, false) :=
  encodeRecord_textMsg (a := ⟨100, textHead ++ [newline] ++ ascii ['*', '1', '.', '4'], 25, false⟩)
    (b := ⟨100, textHead ++ [newline] ++ textHead, 41, false⟩)
    (c := ⟨100, textHead ++ [newline] ++ textHead, 41, false⟩) (by rfl) (fun _ => rfl) rfl rfl (by rfl) rfl (by decide)

/-- A text of one such line: the encoder returns 0, and the records have an empty text for it. -/
theorem encode_long_line {text : CString} {line : Bytes} (htext : text.1 = line ++ [newline]) (hnl : newline ∉ line)
    (hlen : line.length = 2 ^ 32) :
    infoLogMsgEncode wholeNumbers (textMsg text) [] 100 ixMessage =
        some (0, textHead ++ [newline] ++ (textHead ++ [newline])) ∧
      ¬ RoundTrips wholeNumbers false (textMsg text) (textHead ++ [newline] ++ (textHead ++ [newline])) := by
  have hstr : strchr text.1 newline = some (2 ^ 32) := by rw [htext, strchr_append hnl, hlen]
  have hdrop : text.drop (2 ^ 32 + 1) = CString.at [] :=
    Subtype.ext (List.drop_eq_nil_of_le (by rw [htext, List.length_append, hlen, List.length_singleton]))
  have hloop := encodeLoop_line wholeNumbers (encodeRecord_long_line hstr) hstr
  rw [hdrop, encodeLoop_last wholeNumbers (encodeRecord_empty_line text) (by rfl)] at hloop
  have hencode : infoLogMsgEncode wholeNumbers (textMsg text) [] 100 ixMessage =
      some (0, textHead ++ [newline] ++ (textHead ++ [newline])) := hloop
  refine ⟨hencode, fun hr => ?_⟩
  have hmem : line ∈ (cutLines newline text.1).1 := by
    rw [htext, cutLines_line newline hnl]
    exact List.mem_cons_self
  have hshort := shortLines_of_roundTrips wholeNumbers rfl (by decide) hencode hr text rfl line hmem
  rw [hlen] at hshort
  exact absurd hshort (by decide)

/-- Two to the 32 bytes and a newline. -/
def longText : CString :=
  ⟨List.replicate (2 ^ 32) 97 ++ [newline], fun h => by
    rcases List.mem_append.1 h with h | h
    · exact absurd (List.eq_of_mem_replicate h) (by decide)
    · exact absurd (List.mem_singleton.1 h) (by decide)⟩

/-- **The line is lost.** -/
theorem long_line_lost :
    infoLogMsgEncode wholeNumbers (textMsg longText) [] 100 ixMessage =
        some (0, textHead ++ [newline] ++ (textHead ++ [newline])) ∧
      ¬ RoundTrips wholeNumbers false (textMsg longText) (textHead ++ [newline] ++ (textHead ++ [newline])) :=
  @encode_long_line longText (List.replicate (2 ^ 32) 97) rfl
    (fun h => absurd (List.eq_of_mem_replicate h) (by decide)) List.length_replicate

end Message
end Flp
