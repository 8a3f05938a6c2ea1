import FlpPrototype.Message.Encode
/-!
# Record — what `infoLog_msg_encode` leaves in the buffer

A record is the version and the texts of the values, special characters replaced.  When the encoder returns 0 the
buffer shows one record for each line, each ended by a newline (`encodeLoop_zero`), unless a line is so long that the
difference of its ends is no `int`.
-/
namespace Flp
namespace Message

variable {D : Type} (dt : DoubleText D)

/-- A value as the record of a line has it: the split field holds the line. -/
def lineAt (split : Int) (line : Option CString) (i : Nat) : FieldValue D → FieldValue D
  | .string (some v) =>
    if (i : Int) = split then .string (line.map (fun l => ⟨l, l.1.length⟩)) else .string (some v)
  | v                => v

def lineValues (split : Int) (line : Option CString) : Nat → List (FieldValue D) → List (FieldValue D)
  | _, []      => []
  | i, v :: vs => lineAt split line i v :: lineValues split line (i + 1) vs

/-- The text of a value. -/
def valueText : FieldValue D → Bytes
  | .string (some v) => v.vString.1.map replaceSpecial
  | .int (some n)    => printInt n.toInt
  | .double (some d) => dt.print d
  | .string none     => []
  | .int none        => []
  | .double none     => []

def recordText (version : Bytes) (values : List (FieldValue D)) : Bytes :=
  star :: version ++ values.flatMap (fun v => hash :: valueText dt v)

/-- The first line of what is left of the split field. -/
def lineOf (sol : Option CString) : Option CString :=
  sol.map (fun s => match strchr s.1 newline with
    | some eol => s.take eol
    | none     => s)

/-- The lines of the split field; one record is made when there is none. -/
def linesOf : Option CString → List (Option CString)
  | none   => [none]
  | some s => (lines newline s.1).map (fun l => some (CString.at l))

/-- Every line that a newline ends is short enough for an `int`. -/
def ShortLines (sol : Option CString) : Prop := ∀ s ∈ sol, ∀ l ∈ (cutLines newline s.1).1, l.length < 2 ^ 31

theorem lineAt_type (split : Int) (line : Option CString) (i : Nat) (v : FieldValue D) :
    (lineAt split line i v).type = v.type := by
  cases v with
  | string v => cases v with
    | none => rfl
    | some v => simp only [lineAt]; split <;> rfl
  | int v => rfl
  | double v => rfl

theorem lineValues_types (split : Int) (line : Option CString) : ∀ (i : Nat) (vs : List (FieldValue D)),
    (lineValues split line i vs).map FieldValue.type = vs.map FieldValue.type
  | _, []      => rfl
  | i, v :: vs => by
    rw [lineValues, List.map_cons, List.map_cons, lineAt_type, lineValues_types split line (i + 1) vs]

/-! ## The buffer while a record is printed -/

/-- The buffer shows `t`, and no error happened. -/
structure Holds (N : Nat) (s : Mysprintf) (t : Bytes) : Prop where
  size : s.bufferSize = N
  text : s.buffer = t
  len : s.strLength = t.length
  fits : t.length < N
  ok : s.isError = false

/-- No byte more fits, error or not. -/
structure Full (N : Nat) (s : Mysprintf) : Prop where
  size : s.bufferSize = N
  len : s.strLength + 1 = N

/-- Printing `t` failed for want of room: the buffer shows the beginning of it. -/
structure CutOff (N : Nat) (s : Mysprintf) (t : Bytes) : Prop where
  size : s.bufferSize = N
  text : s.buffer = t.take (N - 1)
  tooLong : N ≤ t.length
  failed : s.isError = true

variable {N : Nat} {s s' : Mysprintf} {t out : Bytes}

theorem mysprintf_failed (h : s.isError = true) (out : Bytes) : mysprintf s out = some s := if_pos h

theorem mysprintf_holds (hN : N ≤ intMax) (h : Holds N s t) (hm : mysprintf s out = some s') :
    Holds N s' (t ++ out) ∨ (CutOff N s' (t ++ out) ∧ (out.length ≤ intMax → Full N s')) := by
  have hfits := h.fits
  have hbuf : s.buffer.take s.strLength ++ out.take (s.bufferSize - s.strLength - 1) = (t ++ out).take (N - 1) := by
    rw [h.text, h.len, h.size, List.take_append, List.take_length, List.take_of_length_le (by omega : t.length ≤ N - 1),
      show N - t.length - 1 = N - 1 - t.length by omega]
  unfold mysprintf at hm
  rw [h.ok] at hm
  simp only [Bool.false_eq_true, if_false, hbuf] at hm
  by_cases hbig : intMax < out.length
  · rw [if_pos hbig] at hm
    obtain rfl := Option.some.inj hm
    exact .inr ⟨⟨h.size, rfl, by rw [List.length_append]; omega, rfl⟩, fun hle => absurd hbig (by omega)⟩
  · rw [if_neg hbig] at hm
    cases hadd : intAdd out.length s.strLength with
    | none => rw [hadd] at hm; cases hm
    | some len =>
      obtain ⟨hlen, -⟩ := intAdd_eq_some hadd
      rw [h.len] at hlen
      simp only [hadd, h.size] at hm
      by_cases hover : N ≤ len
      · rw [if_pos hover] at hm
        obtain rfl := Option.some.inj hm
        exact .inr ⟨⟨rfl, rfl, by rw [List.length_append]; omega, rfl⟩, fun _ => ⟨rfl, by show N - 1 + 1 = N; omega⟩⟩
      · rw [if_neg hover] at hm
        obtain rfl := Option.some.inj hm
        have hall : (t ++ out).length ≤ N - 1 := by rw [List.length_append]; omega
        exact .inl ⟨rfl, List.take_of_length_le hall, by rw [List.length_append, hlen, Nat.add_comm], by omega, rfl⟩

theorem mysprintf_full (h : Full N s) (hne : out ≠ []) (hlen : out.length ≤ intMax) (hm : mysprintf s out = some s') :
    Full N s' ∧ s'.isError = true := by
  by_cases herr : s.isError = true
  · rw [mysprintf_failed herr] at hm
    obtain rfl := Option.some.inj hm
    exact ⟨h, herr⟩
  · have hpos := List.length_pos_iff.2 hne
    have hs := h.len
    unfold mysprintf at hm
    rw [if_neg herr, if_neg (by omega)] at hm
    cases hadd : intAdd out.length s.strLength with
    | none => rw [hadd] at hm; cases hm
    | some len =>
      obtain ⟨hl, -⟩ := intAdd_eq_some hadd
      simp only [hadd, h.size] at hm
      rw [if_pos (by omega)] at hm
      obtain rfl := Option.some.inj hm
      exact ⟨⟨rfl, by show N - 1 + 1 = N; omega⟩, rfl⟩

/-! ## Cutting at the end of a line -/

theorem eolOf_eq_some {sol : Option CString} {eol : Nat} (h : eolOf sol = some eol) :
    ∃ str, sol = some str ∧ strchr str.1 newline = some eol ∧ lineOf sol = some (str.take eol) := by
  obtain ⟨str, rfl, hs⟩ := Option.bind_eq_some_iff.1 h
  exact ⟨str, rfl, hs, by simp only [lineOf, Option.map_some, hs]⟩

theorem eol_lt {sol : Option CString} {eol : Nat} (hshort : ShortLines sol) (h : eolOf sol = some eol) :
    eol < 2 ^ 31 := by
  obtain ⟨str, rfl, hs, -⟩ := eolOf_eq_some h
  obtain ⟨heq, hnot, hlen⟩ := strchr_eq_some hs
  have hcut := cutLines_line newline hnot (str.1.drop (eol + 1))
  rw [← heq] at hcut
  have hmem : str.1.take eol ∈ (cutLines newline str.1).1 := by
    rw [hcut]
    exact List.mem_cons_self
  have := hshort str rfl _ hmem
  omega

/-- The index that `newl` stands for, as long as the sum is below two to the 32. -/
theorem toSigned_newl {n : Nat} (hN : N ≤ intMax) (hn : n < 2 ^ 32) :
    (0 ≤ toSigned 32 n ∧ toSigned 32 n < N) ↔ n < N := by
  have hmax : intMax < 2 ^ 31 := by decide
  constructor
  · intro ⟨h0, hlt⟩
    by_cases hsmall : n < 2 ^ (32 - 1)
    · rw [toSigned_of_lt hsmall] at hlt
      omega
    · unfold toSigned at h0
      rw [Nat.mod_eq_of_lt hn, if_neg hsmall] at h0
      omega
  · intro h
    rw [toSigned_of_lt (by omega : n < 2 ^ (32 - 1))]
    omega

theorem cutAtLine_holds (hN : N ≤ intMax) {str : Bytes} {eol : Nat} (heol : eol < 2 ^ 31) (hlen : eol < str.length)
    (h : Holds N s (t ++ str) ∨ CutOff N s (t ++ str)) (ht : t.length < N) :
    Holds N (cutAtLine s t.length eol) (t ++ str.take eol) ∨ (cutAtLine s t.length eol).isError = true := by
  have hmax : intMax < 2 ^ 31 := by decide
  have hsize : s.bufferSize = N := h.elim Holds.size CutOff.size
  unfold cutAtLine
  simp only [hsize, toSigned_newl hN (by omega : t.length + eol < 2 ^ 32)]
  by_cases hroom : t.length + eol < N
  · rw [if_pos hroom, toSigned_of_lt (by omega : t.length + eol < 2 ^ (32 - 1)), Int.toNat_natCast]
    have htake : ∀ n, t.length + eol ≤ n → ((t ++ str).take n).take (t.length + eol) = t ++ str.take eol := by
      intro n hn
      rw [List.take_take, Nat.min_eq_left hn, List.take_length_add_append]
    have htext : s.buffer.take (t.length + eol) = t ++ str.take eol := by
      rcases h with h | h
      · rw [h.text, List.take_length_add_append]
      · rw [h.text]
        exact htake _ (by omega)
    have hl : (t ++ str.take eol).length = t.length + eol := by
      rw [List.length_append, List.length_take_of_le (Nat.le_of_lt hlen)]
    exact .inl ⟨rfl, htext, hl.symm, by rw [hl]; exact hroom, rfl⟩
  · rw [if_neg hroom]
    rcases h with h | h
    · have := h.fits
      rw [List.length_append] at this
      omega
    · exact .inr h.failed

theorem cutAtLine_full (hN : N ≤ intMax) {eol : Nat} (heol : eol < 2 ^ 31) (h : Full N s) :
    Full N (cutAtLine s s.strLength eol) := by
  have hmax : intMax < 2 ^ 31 := by decide
  have hl := h.len
  unfold cutAtLine
  simp only [h.size, toSigned_newl hN (by omega : s.strLength + eol < 2 ^ 32)]
  by_cases hroom : s.strLength + eol < N
  · rw [if_pos hroom, toSigned_of_lt (by omega : s.strLength + eol < 2 ^ (32 - 1)), Int.toNat_natCast]
    exact ⟨rfl, by show s.strLength + eol + 1 = N; omega⟩
  · rw [if_neg hroom]
    exact h

/-! ## A field -/

theorem replaceFrom_holds {text : Bytes} (h : Holds N s (t ++ text)) :
    Holds N (replaceFrom s t.length) (t ++ text.map replaceSpecial) := by
  refine ⟨h.size, ?_, ?_, ?_, h.ok⟩
  · show s.buffer.take t.length ++ (s.buffer.drop t.length).map replaceSpecial = _
    rw [h.text, List.take_left, List.drop_left]
  · show s.strLength = _
    rw [h.len, List.length_append, List.length_append, List.length_map]
  · have := h.fits
    rw [List.length_append] at this ⊢
    rwa [List.length_map]

theorem replaceFrom_full {ix : Nat} (h : Full N s) : Full N (replaceFrom s ix) := ⟨h.size, h.len⟩

theorem encodeField_number {ix : Option Nat} (hN : N ≤ intMax) (h : Holds N s t)
    (hm : (mysprintf s out).map (fun s => ((none : Option Nat), s)) = some (ix, s')) :
    Holds N s' (t ++ out) ∨ s'.isError = true := by
  obtain ⟨s₁, h₁, heq⟩ := Option.map_eq_some_iff.1 hm
  obtain ⟨-, rfl⟩ := Prod.mk.inj heq
  exact (mysprintf_holds hN h h₁).imp id (fun h => h.1.failed)

/-- **A field printed behind `t`**: its text stands there, or an error happened. -/
theorem encodeField_holds {split : Int} {sol : Option CString} {i : Nat} {v : FieldValue D} {ix : Option Nat}
    (hN : N ≤ intMax) (hshort : ShortLines sol) (h : Holds N s t)
    (hm : encodeField dt split sol i s v = some (ix, s')) :
    Holds N s' (t ++ valueText dt (lineAt split (lineOf sol) i v)) ∨ s'.isError = true := by
  have nothing : some ((none : Option Nat), s) = some (ix, s') → Holds N s' (t ++ []) ∨ s'.isError = true := by
    intro heq
    obtain ⟨-, rfl⟩ := Prod.mk.inj (Option.some.inj heq)
    exact .inl (by rwa [List.append_nil])
  cases v with
  | int v => cases v with
    | none => exact nothing hm
    | some n => exact encodeField_number hN h hm
  | double v => cases v with
    | none => exact nothing hm
    | some d => exact encodeField_number hN h hm
  | string v => cases v with
    | none => exact nothing hm
    | some v =>
      simp only [encodeField, lineAt, h.len] at hm ⊢
      by_cases hi : (i : Int) = split
      · simp only [if_pos hi] at hm ⊢
        cases sol with
        | none =>
          obtain ⟨-, rfl⟩ := Prod.mk.inj (Option.some.inj hm)
          exact .inl (by simpa [lineOf, valueText] using h)
        | some str =>
          obtain ⟨s₁, h₁, heq⟩ := Option.map_eq_some_iff.1 hm
          obtain ⟨-, rfl⟩ := Prod.mk.inj heq
          have hp := (mysprintf_holds hN h h₁).imp id And.left
          cases he : eolOf (some str) with
          | none =>
            have hl : lineOf (some str) = some str := by
              simp only [eolOf, Option.bind_some] at he
              simp only [lineOf, Option.map_some, he]
            rw [hl]
            exact hp.imp replaceFrom_holds (fun h => h.failed)
          | some eol =>
            obtain ⟨str', hstr, hs, hl⟩ := eolOf_eq_some he
            obtain rfl := Option.some.inj hstr
            obtain ⟨heq, -, hlen⟩ := strchr_eq_some hs
            have hlt := congrArg List.length heq
            rw [List.length_append, List.length_cons] at hlt
            rw [hl]
            exact (cutAtLine_holds hN (eol_lt hshort he) (by omega) hp h.fits).imp replaceFrom_holds id
      · simp only [if_neg hi] at hm ⊢
        obtain ⟨s₁, h₁, heq⟩ := Option.map_eq_some_iff.1 hm
        obtain ⟨-, rfl⟩ := Prod.mk.inj heq
        exact (mysprintf_holds hN h h₁).imp replaceFrom_holds (fun h => h.1.failed)

/-- After an error nothing is printed; a cut at the end of an empty line forgets the error, and leaves no room. -/
theorem encodeField_full {split : Int} {sol : Option CString} {i : Nat} {v : FieldValue D} {ix : Option Nat}
    (hN : N ≤ intMax) (hshort : ShortLines sol) (h : Full N s) (herr : s.isError = true)
    (hm : encodeField dt split sol i s v = some (ix, s')) : Full N s' := by
  have number : ∀ out, (mysprintf s out).map (fun s => ((none : Option Nat), s)) = some (ix, s') → Full N s' := by
    intro out heq
    rw [mysprintf_failed herr] at heq
    obtain ⟨-, rfl⟩ := Prod.mk.inj (Option.some.inj heq)
    exact h
  have nothing : some ((none : Option Nat), s) = some (ix, s') → Full N s' := by
    intro heq
    obtain ⟨-, rfl⟩ := Prod.mk.inj (Option.some.inj heq)
    exact h
  cases v with
  | int v => cases v with
    | none => exact nothing hm
    | some n => exact number _ hm
  | double v => cases v with
    | none => exact nothing hm
    | some d => exact number _ hm
  | string v => cases v with
    | none => exact nothing hm
    | some v =>
      simp only [encodeField] at hm
      cases hstr : (if (i : Int) = split then sol else some v.vString) with
      | none =>
        rw [hstr] at hm
        obtain ⟨-, rfl⟩ := Prod.mk.inj (Option.some.inj hm)
        exact h
      | some str =>
        simp only [hstr, mysprintf_failed herr, Option.map_some] at hm
        obtain ⟨-, rfl⟩ := Prod.mk.inj (Option.some.inj hm)
        apply replaceFrom_full
        by_cases hi : (i : Int) = split
        · rw [if_pos hi]
          cases he : eolOf sol with
          | none => exact h
          | some eol => exact cutAtLine_full hN (eol_lt hshort he) h
        · rw [if_neg hi]
          exact h

/-! ## The fields of a record -/

theorem encodeFields_cons {split : Int} {sol : Option CString} {i : Nat} {ix : Option Nat} {v : FieldValue D}
    {vs : List (FieldValue D)} {r : Nat × Option Nat × Mysprintf}
    (h : encodeFields dt split sol i ix s (v :: vs) = some r) :
    ∃ s₁ ix₂ s₂, mysprintf s [hash] = some s₁ ∧ encodeField dt split sol i s₁ v = some (ix₂, s₂) ∧
      ((s₂.isError = true ∧ r = (i, ix₂, s₂)) ∨
        (s₂.isError = false ∧ encodeFields dt split sol (i + 1) ix₂ s₂ vs = some r)) := by
  obtain ⟨s₁, h₁, h⟩ := Option.bind_eq_some_iff.1 h
  obtain ⟨⟨ix₂, s₂⟩, h₂, h⟩ := Option.bind_eq_some_iff.1 h
  refine ⟨s₁, ix₂, s₂, h₁, h₂, ?_⟩
  simp only at h
  by_cases herr : s₂.isError = true
  · rw [if_pos herr] at h
    exact .inl ⟨herr, (Option.some.inj h).symm⟩
  · rw [if_neg herr] at h
    exact .inr ⟨Bool.eq_false_iff.2 herr, h⟩

theorem encodeFields_full {split : Int} {sol : Option CString} (hN : N ≤ intMax) (hshort : ShortLines sol) :
    ∀ (vs : List (FieldValue D)) (i : Nat) (ix : Option Nat) (s : Mysprintf) (r : Nat × Option Nat × Mysprintf),
      Full N s → encodeFields dt split sol i ix s vs = some r → Full N r.2.2
  | [], _, _, _, _, h, hm => by rw [← Option.some.inj hm]; exact h
  | v :: vs, i, ix, s, r, h, hm => by
    obtain ⟨s₁, ix₂, s₂, h₁, h₂, hr⟩ := encodeFields_cons dt hm
    obtain ⟨hf, herr⟩ := mysprintf_full h (by decide) (by decide) h₁
    have hf₂ := encodeField_full dt hN hshort hf herr h₂
    rcases hr with ⟨-, rfl⟩ | ⟨-, hr⟩
    · exact hf₂
    · exact encodeFields_full hN hshort vs (i + 1) ix₂ s₂ r hf₂ hr

/-- **The fields printed behind `t`**: their texts stand there, or there was no room. -/
theorem encodeFields_holds {split : Int} {sol : Option CString} (hN : N ≤ intMax) (hshort : ShortLines sol) :
    ∀ (vs : List (FieldValue D)) (i : Nat) (ix : Option Nat) (s : Mysprintf) (t : Bytes)
      (r : Nat × Option Nat × Mysprintf), Holds N s t → encodeFields dt split sol i ix s vs = some r →
      Holds N r.2.2 (t ++ (lineValues split (lineOf sol) i vs).flatMap (fun v => hash :: valueText dt v)) ∨
        r.2.2.isError = true ∨ Full N r.2.2
  | [], _, _, _, _, _, h, hm => by
    rw [← Option.some.inj hm]
    exact .inl (by simpa [lineValues] using h)
  | v :: vs, i, ix, s, t, r, h, hm => by
    obtain ⟨s₁, ix₂, s₂, h₁, h₂, hr⟩ := encodeFields_cons dt hm
    rcases mysprintf_holds hN h h₁ with h₁ | ⟨hc, hf⟩
    · rcases hr with ⟨herr, rfl⟩ | ⟨hok, hr⟩
      · exact .inr (.inl herr)
      · rcases encodeField_holds dt hN hshort h₁ h₂ with h₂ | herr
        · rcases encodeFields_holds hN hshort vs (i + 1) ix₂ s₂ _ r h₂ hr with h | h
          · rw [lineValues, List.flatMap_cons]
            exact .inl (by simpa [List.append_assoc] using h)
          · exact .inr h
        · rw [hok] at herr
          cases herr
    · have hf₂ := encodeField_full dt hN hshort (hf (by decide)) hc.failed h₂
      rcases hr with ⟨-, rfl⟩ | ⟨-, hr⟩
      · exact .inr (.inr hf₂)
      · exact .inr (.inr (encodeFields_full dt hN hshort vs (i + 1) ix₂ s₂ r hf₂ hr))

/-! ## The records -/

theorem encodeRecord_cases {msg : Msg D} {split : Int} {sol : Option CString} {good : Option Nat}
    (hm : encodeRecord dt msg split sol good s = some (s', 0, false)) :
    ∃ s₁ r, mysprintf s (star :: msg.protocol.version) = some s₁ ∧
      encodeFields dt split sol 0 none s₁ msg.values = some r ∧ mysprintf r.2.2 [newline] = some s' ∧
      s'.isError = false := by
  obtain ⟨s₁, h₁, hm⟩ := Option.bind_eq_some_iff.1 hm
  obtain ⟨⟨i, ix, s₂⟩, h₂, hm⟩ := Option.bind_eq_some_iff.1 hm
  obtain ⟨s₃, h₃, hm⟩ := Option.bind_eq_some_iff.1 hm
  simp only at hm
  by_cases hc : s₃.isError = true ∨
      ((eolOf sol).isSome = true ∧ (s₃.bufferSize : Int) < toSigned 32 (s₃.strLength + sizeofTruncateMsg))
  · -- an error, or no room for another record: the result is not 0
    rw [if_pos hc] at hm
    by_cases hix : ixTruncateMsg msg.protocol.fields.length s₃.bufferSize i ix good < 0 ∨ (s₃.bufferSize : Int) <
        toSigned 32 ((ixTruncateMsg msg.protocol.fields.length s₃.bufferSize i ix good).toNat + sizeofTruncateMsg)
    · rw [if_pos hix] at hm
      have := (Prod.mk.inj (Prod.mk.inj (Option.some.inj hm)).2).1
      split at this <;> cases this
    · rw [if_neg hix] at hm
      obtain ⟨s₄, -, hm⟩ := Option.bind_eq_some_iff.1 hm
      cases (Prod.mk.inj (Prod.mk.inj (Option.some.inj hm)).2).2
  · rw [if_neg hc] at hm
    obtain rfl := (Prod.mk.inj (Option.some.inj hm)).1
    exact ⟨s₁, _, h₁, h₂, h₃, Bool.eq_false_iff.2 (fun h => hc (.inl h))⟩

theorem record_holds {msg : Msg D} {split : Int} {sol : Option CString} (hN : N ≤ intMax)
    (hv : msg.protocol.version.length < intMax) (hshort : ShortLines sol) (h : Holds N s t) {s₁ : Mysprintf}
    {r : Nat × Option Nat × Mysprintf} (h₁ : mysprintf s (star :: msg.protocol.version) = some s₁)
    (h₂ : encodeFields dt split sol 0 none s₁ msg.values = some r) (h₃ : mysprintf r.2.2 [newline] = some s')
    (hok : s'.isError = false) :
    Holds N s'
      (t ++ (recordText dt msg.protocol.version (lineValues split (lineOf sol) 0 msg.values) ++ [newline])) := by
  have stop : ¬ (r.2.2.isError = true ∨ Full N r.2.2) := by
    rintro (herr | hf)
    · rw [mysprintf_failed herr] at h₃
      rw [← Option.some.inj h₃, herr] at hok
      cases hok
    · have := (mysprintf_full hf (by decide) (by decide) h₃).2
      rw [hok] at this
      cases this
  have hver : (star :: msg.protocol.version).length ≤ intMax := hv
  rcases mysprintf_holds hN h h₁ with h₁ | ⟨-, hf⟩
  · rcases encodeFields_holds dt hN hshort _ _ _ _ _ _ h₁ h₂ with h₂ | h₂
    · rcases mysprintf_holds hN h₂ h₃ with h₃ | ⟨hc, -⟩
      · simpa [recordText, List.append_assoc] using h₃
      · rw [hc.failed] at hok
        cases hok
    · exact absurd h₂ stop
  · exact absurd (.inr (encodeFields_full dt hN hshort _ _ _ _ _ (hf hver) h₂)) stop

/-- **One turn of the loop**: without an error and without a truncation, the record stands behind `t`, ended. -/
theorem encodeRecord_holds {msg : Msg D} {split : Int} {sol : Option CString} {good : Option Nat} (hN : N ≤ intMax)
    (hv : msg.protocol.version.length < intMax) (hshort : ShortLines sol) (h : Holds N s t)
    (hm : encodeRecord dt msg split sol good s = some (s', 0, false)) :
    Holds N s'
      (t ++ (recordText dt msg.protocol.version (lineValues split (lineOf sol) 0 msg.values) ++ [newline])) := by
  obtain ⟨s₁, r, h₁, h₂, h₃, hok⟩ := encodeRecord_cases dt hm
  exact record_holds dt hN hv hshort h h₁ h₂ h₃ hok

section

variable {B : Type} {strLength : B → Nat} {content : B → Bytes}
  {record : Option CString → Option Nat → B → Option (B × Nat × Bool)} {b b' : B} {good : Option Nat} {str : CString}

/-- A line that ends in a newline: the loop goes on behind it. -/
theorem lineLoop_line {e : Nat} (hr : record (some str) good b = some (b', 0, false))
    (h : strchr str.1 newline = some e) : lineLoop strLength content record good b (some str) =
      lineLoop strLength content record (some (strLength b')) b' (some (str.drop (e + 1))) := by
  rw [lineLoop, hr]
  simp only [Bool.false_eq_true, if_false, ne_eq, not_true_eq_false]
  split
  · rename_i hn
    rw [hn] at h
    cases h
  · rename_i e' hn
    rw [hn] at h
    rw [Option.some.inj h]

/-- The last line. -/
theorem lineLoop_last (hr : record (some str) good b = some (b', 0, false)) (h : strchr str.1 newline = none) :
    lineLoop strLength content record good b (some str) = some (0, content b') := by
  rw [lineLoop, hr]
  simp only [Bool.false_eq_true, if_false, ne_eq, not_true_eq_false]
  split
  · rfl
  · rename_i eol' hn
    rw [hn] at h
    cases h

end

theorem encodeLoop_line {msg : Msg D} {split : Int} {str : CString} {e : Nat} {good : Option Nat}
    (hr : encodeRecord dt msg split (some str) good s = some (s', 0, false)) (h : strchr str.1 newline = some e) :
    encodeLoop dt msg split good s (some str) =
      encodeLoop dt msg split (some s'.strLength) s' (some (str.drop (e + 1))) := lineLoop_line hr h

theorem encodeLoop_last {msg : Msg D} {split : Int} {str : CString} {good : Option Nat}
    (hr : encodeRecord dt msg split (some str) good s = some (s', 0, false)) (h : strchr str.1 newline = none) :
    encodeLoop dt msg split good s (some str) = some (0, s'.buffer) := lineLoop_last hr h

/-- The loop, when it returns 0: a record was printed, and it was the last or there is a line behind it. -/
theorem encodeLoop_cases {msg : Msg D} {split : Int} {sol : Option CString} {good : Option Nat} {buffer : Bytes}
    (hm : encodeLoop dt msg split good s sol = some (0, buffer)) :
    ∃ s', encodeRecord dt msg split sol good s = some (s', 0, false) ∧
      ((eolOf sol = none ∧ buffer = s'.buffer) ∨
        ∃ str eol, sol = some str ∧ strchr str.1 newline = some eol ∧
          encodeLoop dt msg split (some s'.strLength) s' (some (str.drop (eol + 1))) = some (0, buffer)) := by
  rw [encodeLoop, lineLoop] at hm
  cases hr : encodeRecord dt msg split sol good s with
  | none => rw [hr] at hm; cases hm
  | some r =>
    obtain ⟨s', isError, truncated⟩ := r
    simp only [hr] at hm
    cases truncated with
    | true => rw [if_pos rfl] at hm; cases (Prod.mk.inj (Option.some.inj hm)).1
    | false =>
      rw [if_neg Bool.false_ne_true] at hm
      by_cases he : isError = 0
      · subst he
        rw [if_neg (fun h => h rfl)] at hm
        refine ⟨s', rfl, ?_⟩
        cases sol with
        | none => exact .inl ⟨rfl, (Prod.mk.inj (Option.some.inj hm)).2.symm⟩
        | some str =>
          simp only at hm
          split at hm
          · rename_i hstr
            exact .inl ⟨hstr, (Prod.mk.inj (Option.some.inj hm)).2.symm⟩
          · rename_i eol hstr
            exact .inr ⟨str, eol, rfl, hstr, hm⟩
      · rw [if_pos he] at hm
        exact absurd (Int.ofNat_eq_zero.1 (Prod.mk.inj (Option.some.inj hm)).1) he

/-- The records of some lines, each ended. -/
def recordsText (msg : Msg D) (split : Int) (sol : Option CString) : List Bytes :=
  (linesOf sol).map (fun line => recordText dt msg.protocol.version (lineValues split line 0 msg.values))

theorem linesOf_last {sol : Option CString} (h : eolOf sol = none) : linesOf sol = [lineOf sol] := by
  cases sol with
  | none => rfl
  | some str =>
    have hs : strchr str.1 newline = none := by simpa only [eolOf, Option.bind_some] using h
    simp only [linesOf, lineOf, Option.map_some, hs, lines_of_not_mem newline (strchr_eq_none.1 hs), List.map_cons,
      List.map_nil, CString.at_coe]

theorem linesOf_line {str : CString} {eol : Nat} (h : strchr str.1 newline = some eol) :
    linesOf (some str) = lineOf (some str) :: linesOf (some (str.drop (eol + 1))) := by
  obtain ⟨heq, hnot, -⟩ := strchr_eq_some h
  have hl := lines_line newline hnot (str.1.drop (eol + 1))
  rw [← heq] at hl
  simp only [linesOf, lineOf, Option.map_some, h, hl, List.map_cons]
  rw [show str.1.take eol = (str.take eol).1 from rfl, CString.at_coe]
  rfl

theorem shortLines_drop {str : CString} {eol : Nat} (h : strchr str.1 newline = some eol)
    (hshort : ShortLines (some str)) : ShortLines (some (str.drop (eol + 1))) := by
  obtain ⟨heq, hnot, -⟩ := strchr_eq_some h
  have hcut := cutLines_line newline hnot (str.1.drop (eol + 1))
  rw [← heq] at hcut
  intro s hs l hl
  obtain rfl := Option.mem_some_iff.1 hs
  refine hshort str rfl l ?_
  rw [hcut]
  exact List.mem_cons_of_mem _ hl

/-- **The loop over the lines.**  When it returns 0, a record stands for each line, in order. -/
theorem encodeLoop_zero {msg : Msg D} {split : Int} (hN : N ≤ intMax) (hv : msg.protocol.version.length < intMax)
    (sol : Option CString) (good : Option Nat) {s : Mysprintf} {t buffer : Bytes} (hshort : ShortLines sol)
    (h : Holds N s t) (hm : encodeLoop dt msg split good s sol = some (0, buffer)) :
    buffer = t ++ (recordsText dt msg split sol).flatMap (fun r => r ++ [newline]) := by
  -- by the length of what is left of the split field
  obtain ⟨n, hn⟩ : ∃ n, sol.elim 0 (fun s => s.1.length) = n := ⟨_, rfl⟩
  induction n using Nat.strong_induction_on generalizing sol good s t with | _ n ih => ?_
  obtain ⟨s', hr, hm⟩ := encodeLoop_cases dt hm
  have hs' := encodeRecord_holds dt hN hv hshort h hr
  rcases hm with ⟨heol, rfl⟩ | ⟨str, eol, rfl, hstr, hm⟩
  · rw [hs'.text, recordsText, linesOf_last heol]
    simp
  · have hrest := ih _ (hn ▸ CString.length_drop_lt hstr) (some (str.drop (eol + 1))) _ (shortLines_drop hstr hshort)
      hs' hm rfl
    rw [hrest, recordsText, recordsText, linesOf_line hstr]
    simp [List.append_assoc]

end Message
end Flp
