import FlpPrototype.Message.Memory
import FlpPrototype.Message.RoundTrip
/-!
# Truncate — records that do not fit

What `infoLog_msg_encode` does when the buffer ends in the middle of a record: the text that says so is put into the
last field, or over the end of the record before.  The lengths are added as `int`s; where the sums stay in range is said
here with the lengths of the texts alone (`FieldsDefined`, `LinesDefined`).
-/
namespace Flp
namespace Message

variable {D : Type} (dt : DoubleText D)

/-! ## Printing -/

variable {N : Nat} {s s' : Mysprintf} {t out : Bytes} {split : Int} {sol : Option CString}

/-- Printing has a result when something is wrong already, or the sum of the lengths is an `int`. -/
theorem mysprintf_some_iff :
    (∃ s', mysprintf s out = some s') ↔
      s.isError = true ∨ intMax < out.length ∨ s.strLength + out.length ≤ intMax := by
  unfold mysprintf
  by_cases herr : s.isError = true
  · rw [if_pos herr]
    exact iff_of_true ⟨s, rfl⟩ (.inl herr)
  rw [if_neg herr]
  by_cases hbig : intMax < out.length
  · simp only [if_pos hbig]
    exact iff_of_true ⟨_, rfl⟩ (.inr (.inl hbig))
  simp only [if_neg hbig, intAdd, Nat.add_comm out.length]
  by_cases hsum : s.strLength + out.length ≤ intMax
  · rw [if_pos hsum]
    refine iff_of_true ?_ (.inr (.inr hsum))
    simp only
    split
    · exact ⟨_, rfl⟩
    · exact ⟨_, rfl⟩
  · rw [if_neg hsum]
    refine iff_of_false (fun ⟨s', h⟩ => by cases h) ?_
    rintro (h | h | h)
    · exact herr h
    · exact hbig h
    · exact hsum h

theorem mysprintf_behind (hN : N ≤ intMax) (h : Holds N s t) (hm : mysprintf s out = some s') :
    ∃ shown, s'.buffer = t ++ shown ∧ shown <+: out := by
  have hfits := h.fits
  rcases mysprintf_holds hN h hm with h | ⟨h, -⟩
  · exact ⟨out, h.text, List.prefix_refl out⟩
  · refine ⟨out.take (N - 1 - t.length), ?_, List.take_prefix _ _⟩
    rw [h.text, List.take_append, List.take_of_length_le (by omega)]

/-- The cut, with the index as the sum it stands for. -/
theorem cutAtLine_eq (hN : N ≤ intMax) (hsize : s.bufferSize = N) {ix eol : Nat} (hix : ix < N) (heol : eol < 2 ^ 31) :
    cutAtLine s ix eol =
      if ix + eol < N then { s with buffer := s.buffer.take (ix + eol), strLength := ix + eol, isError := false }
        else s := by
  have hmax : intMax < 2 ^ 31 := by decide
  unfold cutAtLine
  simp only [hsize, toSigned_newl hN (by omega : ix + eol < 2 ^ 32)]
  by_cases hroom : ix + eol < N
  · rw [if_pos hroom, if_pos hroom, toSigned_of_lt (by omega : ix + eol < 2 ^ (32 - 1)), Int.toNat_natCast]
  · rw [if_neg hroom, if_neg hroom]

/-! ## A buffer with no room -/

/-- The buffer is full of `t`, and nothing more is shown. -/
structure Stuck (N : Nat) (s : Mysprintf) (t : Bytes) : Prop where
  size : s.bufferSize = N
  text : s.buffer = t
  len : s.strLength + 1 = N
  full : t.length + 1 = N

theorem CutOff.stuck (h : CutOff N s t) (hfull : Full N s) : Stuck N s (t.take (N - 1)) := by
  have hlen := hfull.len
  have htooLong := h.tooLong
  exact ⟨h.size, h.text, hlen, by rw [List.length_take]; omega⟩

theorem Stuck.print (hN : N ≤ intMax) (h : Stuck N s t) (hout : out.length = 1) :
    ∃ s', mysprintf s out = some s' ∧ Stuck N s' t ∧ s'.isError = true := by
  have hlen := h.len
  obtain ⟨s', hs'⟩ := mysprintf_some_iff.2 (show s.isError = true ∨ intMax < out.length ∨
    s.strLength + out.length ≤ intMax from .inr (.inr (by omega)))
  refine ⟨s', hs', ?_⟩
  unfold mysprintf at hs'
  by_cases herr : s.isError = true
  · rw [if_pos herr] at hs'
    obtain rfl := Option.some.inj hs'
    exact ⟨h, herr⟩
  have hfull := h.full
  have hsum : out.length + s.strLength ≤ intMax := by omega
  have hover : s.bufferSize ≤ out.length + s.strLength := by rw [h.size]; omega
  have htake : s.buffer.take s.strLength ++ out.take (s.bufferSize - s.strLength - 1) = t := by
    rw [h.text, h.size, List.take_of_length_le (by omega), show N - s.strLength - 1 = 0 by omega, List.take_zero,
      List.append_nil]
  rw [if_neg herr, if_neg (by omega), intAdd_of_le hsum] at hs'
  simp only [if_pos hover, htake] at hs'
  obtain rfl := Option.some.inj hs'
  exact ⟨⟨h.size, rfl, by show s.bufferSize - 1 + 1 = N; rw [h.size]; omega, hfull⟩, rfl⟩

theorem Stuck.cut (hN : N ≤ intMax) {eol : Nat} (heol : eol < 2 ^ 31) (h : Stuck N s t) :
    Stuck N (cutAtLine s s.strLength eol) t := by
  have hlen := h.len
  have hfull := h.full
  rw [cutAtLine_eq hN h.size (by omega) heol]
  split
  · refine ⟨h.size, ?_, by simp only; omega, hfull⟩
    simp only
    rw [h.text, List.take_of_length_le (by omega)]
  · exact h

theorem Stuck.replace (h : Stuck N s t) {ix : Nat} (hix : ix + 1 = N) : Stuck N (replaceFrom s ix) t := by
  have hfull := h.full
  refine ⟨h.size, ?_, h.len, hfull⟩
  show s.buffer.take ix ++ (s.buffer.drop ix).map replaceSpecial = t
  rw [h.text, List.take_of_length_le (by omega), List.drop_eq_nil_of_le (by omega), List.map_nil, List.append_nil]

theorem Stuck.field (split : Int) (hN : N ≤ intMax) (hshort : ShortLines sol) (h : Stuck N s t)
    (herr : s.isError = true) (i : Nat) (v : FieldValue D) :
    ∃ ix s', encodeField dt split sol i s v = some (ix, s') ∧ Stuck N s' t ∧ ∀ p ∈ ix, p + 1 = N := by
  have number : ∀ out, ∃ (ix : Option Nat) (s' : Mysprintf), (mysprintf s out).map (fun s => ((none : Option Nat), s)) =
      some (ix, s') ∧ Stuck N s' t ∧ ∀ p ∈ ix, p + 1 = N := by
    intro out
    rw [mysprintf_failed herr]
    exact ⟨none, s, rfl, h, fun p hp => by cases hp⟩
  have nothing : ∃ (ix : Option Nat) (s' : Mysprintf), some ((none : Option Nat), s) = some (ix, s') ∧ Stuck N s' t ∧
      ∀ p ∈ ix, p + 1 = N := ⟨none, s, rfl, h, fun p hp => by cases hp⟩
  cases v with
  | int v => cases v with
    | none => exact nothing
    | some n => exact number _
  | double v => cases v with
    | none => exact nothing
    | some d => exact number _
  | string v => cases v with
    | none => exact nothing
    | some v =>
      have hix : ∀ p ∈ some s.strLength, p + 1 = N := fun p hp => by rw [← Option.some.inj hp]; exact h.len
      simp only [encodeField]
      cases (if (i : Int) = split then sol else some v.vString) with
      | none => exact ⟨_, s, rfl, h, hix⟩
      | some str =>
        simp only [mysprintf_failed herr, Option.map_some]
        refine ⟨_, _, rfl, Stuck.replace ?_ h.len, hix⟩
        by_cases hi : (i : Int) = split
        · rw [if_pos hi]
          cases he : eolOf sol with
          | none => exact h
          | some eol => exact h.cut hN (eol_lt hshort he)
        · rw [if_neg hi]
          exact h

/-- **The fields for which there was no room.** -/
theorem Stuck.fields (split : Int) (hN : N ≤ intMax) (hshort : ShortLines sol) :
    ∀ (vs : List (FieldValue D)) (i : Nat) (ix : Option Nat) (s : Mysprintf), Stuck N s t → (∀ p ∈ ix, p + 1 = N) →
      ∃ r, encodeFields dt split sol i ix s vs = some r ∧ Stuck N r.2.2 t ∧ ∀ p ∈ r.2.1, p + 1 = N
  | [], i, ix, s, h, hix => ⟨_, rfl, h, hix⟩
  | v :: vs, i, ix, s, h, hix => by
    obtain ⟨s₁, h₁, hstuck₁, herr₁⟩ := h.print hN (show [hash].length = 1 from rfl)
    obtain ⟨ix₂, s₂, h₂, hstuck₂, hix₂⟩ := hstuck₁.field dt split hN hshort herr₁ i v
    rw [encodeFields]
    simp only [h₁, h₂, Option.bind_eq_bind, Option.bind_some]
    by_cases herr₂ : s₂.isError = true
    · rw [if_pos herr₂]
      exact ⟨_, rfl, hstuck₂, hix₂⟩
    · rw [if_neg herr₂]
      exact Stuck.fields split hN hshort vs (i + 1) ix₂ s₂ hstuck₂ hix₂

/-! ## A field behind what is there -/

/-- What a field leaves behind `t`, an error meaning that its text of a length does not fit. -/
structure FieldBehind (N : Nat) (t : Bytes) (length : Nat) (ix : Option Nat) (s : Mysprintf) : Prop where
  shown : ∃ shown, s.buffer = t ++ shown ∧ ∀ p ∈ ix, p = t.length ∧ ∀ c ∈ shown, Plain c
  failed : s.isError = true → N ≤ t.length + length ∧ (ix.isSome = true → s.buffer.length + 1 = N)

theorem fieldBehind_number (hN : N ≤ intMax) (h : Holds N s t) {ix : Option Nat}
    (hm : (mysprintf s out).map (fun s => ((none : Option Nat), s)) = some (ix, s')) :
    FieldBehind N t out.length ix s' := by
  obtain ⟨s₁, h₁, heq⟩ := Option.map_eq_some_iff.1 hm
  obtain ⟨rfl, rfl⟩ := Prod.mk.inj heq
  obtain ⟨shown, hshown, -⟩ := mysprintf_behind hN h h₁
  refine ⟨⟨shown, hshown, fun p hp => by cases hp⟩, fun herr => ⟨?_, fun hnone => absurd hnone Bool.false_ne_true⟩⟩
  rcases mysprintf_holds hN h h₁ with hholds | ⟨hcut, -⟩
  · rw [hholds.ok] at herr
    cases herr
  · rw [← List.length_append]
    exact hcut.tooLong

theorem fieldBehind_string (hN : N ≤ intMax) (h : Holds N s t) (str : CString) (hstr : str.1.length ≤ intMax)
    (eol : Option Nat) (heol : ∀ e ∈ eol, e < str.1.length) (hm : mysprintf s str.1 = some s') :
    FieldBehind N t (eol.getD str.1.length) (some t.length) (replaceFrom (cutFieldAt s' t.length eol) t.length) := by
  have hfits := h.fits
  have hmax : intMax < 2 ^ 31 := by decide
  obtain ⟨shown, hshown, hbegins⟩ := mysprintf_behind hN h hm
  -- before the replacement
  have hcut : (∃ shown', (cutFieldAt s' t.length eol).buffer = t ++ shown' ∧ shown' <+: str.1) ∧
      ((cutFieldAt s' t.length eol).isError = true → N ≤ t.length + eol.getD str.1.length ∧
        (cutFieldAt s' t.length eol).buffer.length + 1 = N) := by
    have herror : s'.isError = true → N ≤ t.length + str.1.length ∧ s'.buffer.length + 1 = N := by
      intro herr
      rcases mysprintf_holds hN h hm with hholds | ⟨hcut, -⟩
      · rw [hholds.ok] at herr
        cases herr
      · have htooLong := hcut.tooLong
        rw [hcut.text, List.length_take]
        rw [List.length_append] at htooLong ⊢
        omega
    cases eol with
    | none => exact ⟨⟨shown, hshown, hbegins⟩, herror⟩
    | some eol =>
      have hlast := heol eol rfl
      have hsize : s'.bufferSize = N := (mysprintf_holds hN h hm).elim Holds.size fun hc => hc.1.size
      simp only [cutFieldAt, cutAtLine_eq hN hsize hfits (show eol < 2 ^ 31 by omega), Option.getD_some]
      by_cases hroom : t.length + eol < N
      · rw [if_pos hroom]
        refine ⟨⟨shown.take eol, ?_, (List.take_prefix _ _).trans hbegins⟩,
          fun hfalse => absurd hfalse Bool.false_ne_true⟩
        simp only
        rw [hshown, List.take_length_add_append]
      · rw [if_neg hroom]
        exact ⟨⟨shown, hshown, hbegins⟩, fun herr => ⟨Nat.le_of_not_lt hroom, (herror herr).2⟩⟩
  obtain ⟨⟨shown', hshown', hbegins'⟩, herror⟩ := hcut
  have hbuffer : (replaceFrom (cutFieldAt s' t.length eol) t.length).buffer = t ++ shown'.map replaceSpecial := by
    rw [replaceFrom]
    simp only
    rw [hshown', List.take_left, List.drop_left]
  refine ⟨⟨_, hbuffer, fun p hp => ⟨(Option.some.inj hp).symm, fun c hc => ?_⟩⟩, fun herr => ?_⟩
  · obtain ⟨d, hd, rfl⟩ := List.mem_map.1 hc
    exact replaceSpecial_plain (str.ne_zero (hbegins'.subset hd))
  · obtain ⟨hlong, hlength⟩ := herror herr
    rw [hshown', List.length_append] at hlength
    refine ⟨hlong, fun _ => ?_⟩
    rw [hbuffer, List.length_append, List.length_map]
    exact hlength

theorem length_line (str : CString) :
    (valueText dt (.string ((lineOf (some str)).map fun l => ⟨l, l.1.length⟩) : FieldValue D)).length =
      (eolOf (some str)).getD str.1.length := by
  cases he : eolOf (some str) with
  | none =>
    have hs : strchr str.1 newline = none := by simpa only [eolOf, Option.bind_some] using he
    simp only [lineOf, Option.map_some, hs, valueText, List.length_map, Option.getD_none]
  | some eol =>
    obtain ⟨str', hstr', hs, hline⟩ := eolOf_eq_some he
    obtain rfl := Option.some.inj hstr'
    obtain ⟨str', hstr', hlt⟩ := eolOf_lt he
    obtain rfl := Option.some.inj hstr'
    rw [hline]
    simp only [Option.map_some, valueText, List.length_map, Option.getD_some, CString.take]
    exact List.length_take_of_le (Nat.le_of_lt hlt)

/-- **A field behind `t`.** -/
theorem encodeField_behind (hN : N ≤ intMax) (hsol : ∀ str ∈ sol, str.1.length ≤ intMax) (h : Holds N s t) {i : Nat}
    {v : FieldValue D} (hv : ShortStrings [v]) {ix : Option Nat} (hm : encodeField dt split sol i s v = some (ix, s')) :
    FieldBehind N t (valueText dt (lineAt split (lineOf sol) i v)).length ix s' := by
  have unchanged : ∀ ix₁ : Option Nat, (∀ p ∈ ix₁, p = t.length) → some (ix₁, s) = some (ix, s') → ∀ n,
      FieldBehind N t n ix s' := by
    intro ix₁ hix heq n
    obtain ⟨rfl, rfl⟩ := Prod.mk.inj (Option.some.inj heq)
    refine ⟨⟨[], by rw [h.text, List.append_nil], fun p hp => ⟨hix p hp, fun c hc => by cases hc⟩⟩, fun herr => ?_⟩
    rw [h.ok] at herr
    cases herr
  have nothing := unchanged none fun p hp => by cases hp
  cases v with
  | int v => cases v with
    | none => exact nothing hm _
    | some n => exact fieldBehind_number hN h hm
  | double v => cases v with
    | none => exact nothing hm _
    | some d => exact fieldBehind_number hN h hm
  | string v => cases v with
    | none => exact nothing hm _
    | some v =>
      simp only [encodeField, lineAt, h.len] at hm ⊢
      by_cases hi : (i : Int) = split
      · simp only [if_pos hi] at hm ⊢
        cases sol with
        | none => exact unchanged (some t.length) (fun p hp => (Option.some.inj hp).symm) hm _
        | some str =>
          obtain ⟨s₁, h₁, heq⟩ := Option.map_eq_some_iff.1 hm
          obtain ⟨rfl, rfl⟩ := Prod.mk.inj heq
          have hstring := fieldBehind_string hN h str (hsol str rfl) (eolOf (some str)) (fun e he => by
            obtain ⟨str', hstr', hlt⟩ := eolOf_lt he
            obtain rfl := Option.some.inj hstr'
            exact hlt) h₁
          rw [length_line]
          cases he : eolOf (some str) with
          | none =>
            rw [he] at hstring
            exact hstring
          | some eol =>
            rw [he] at hstring
            exact hstring
      · simp only [if_neg hi] at hm ⊢
        obtain ⟨s₁, h₁, heq⟩ := Option.map_eq_some_iff.1 hm
        obtain ⟨rfl, rfl⟩ := Prod.mk.inj heq
        rw [valueText, List.length_map]
        exact fieldBehind_string hN h v.vString (hv v List.mem_cons_self) none (fun e he => by cases he) h₁

/-! ## The fields of a record -/

/-- The texts of some fields, from field `i` on. -/
def fieldTexts (split : Int) (line : Option CString) (i : Nat) (vs : List (FieldValue D)) : Bytes :=
  (lineValues split line i vs).flatMap fun v => hash :: valueText dt v

theorem fieldTexts_cons (line : Option CString) (i : Nat) (v : FieldValue D) (vs : List (FieldValue D)) :
    fieldTexts dt split line i (v :: vs) =
      [hash] ++ valueText dt (lineAt split line i v) ++ fieldTexts dt split line (i + 1) vs := by
  rw [fieldTexts, lineValues, List.flatMap_cons]
  rfl

theorem shortLines_of_le (hsol : ∀ str ∈ sol, str.1.length ≤ intMax) : ShortLines sol := by
  intro str hstr l hl
  have hlen := length_le_of_mem_cutLines newline hl
  have hmax : intMax < 2 ^ 31 := by decide
  have := hsol str hstr
  omega

/-- Where the loop over the fields ended: at an error, behind all the texts, or with no room. -/
def FieldsEnd (N : Nat) (texts : Bytes) (r : Nat × Option Nat × Mysprintf) : Prop :=
  r.2.2.isError = true ∨ Holds N r.2.2 texts ∨ ((∃ full, Stuck N r.2.2 full) ∧ ∀ p ∈ r.2.1, p + 1 = N)

/-- The loop stopped at the last field, a string: its `#` and a beginning of its text are at the end. -/
def AtLastText (N : Nat) (t : Bytes) (split : Int) (line : Option CString) (i : Nat) (vs : List (FieldValue D))
    (p : Nat) (s : Mysprintf) : Prop :=
  ∃ pre v shown, vs = pre ++ [v] ∧ s.buffer = t ++ fieldTexts dt split line i pre ++ [hash] ++ shown ∧
    p = (t ++ fieldTexts dt split line i pre ++ [hash]).length ∧ (∀ c ∈ shown, Plain c) ∧
    (s.isError = true → s.buffer.length + 1 = N)

theorem AtLastText.cons {line : Option CString} {i p : Nat} {v : FieldValue D} {vs : List (FieldValue D)}
    (h : AtLastText dt N (t ++ [hash] ++ valueText dt (lineAt split line i v)) split line (i + 1) vs p s) :
    AtLastText dt N t split line i (v :: vs) p s := by
  obtain ⟨pre, v', shown, rfl, hbuffer, hpos, hrest⟩ := h
  have htexts : t ++ [hash] ++ valueText dt (lineAt split line i v) ++ fieldTexts dt split line (i + 1) pre =
      t ++ fieldTexts dt split line i (v :: pre) := by
    rw [fieldTexts_cons]
    simp only [List.append_assoc]
  rw [htexts] at hbuffer hpos
  exact ⟨v :: pre, v', shown, rfl, hbuffer, hpos, hrest⟩

/-- **The fields behind `t`.** -/
theorem encodeFields_behind (hN : N ≤ intMax) (hsol : ∀ str ∈ sol, str.1.length ≤ intMax) :
    ∀ (vs : List (FieldValue D)) (i : Nat) (ix : Option Nat) (s : Mysprintf) (t : Bytes)
      (r : Nat × Option Nat × Mysprintf), Holds N s t → ShortStrings vs → encodeFields dt split sol i ix s vs = some r →
      t <+: r.2.2.buffer ∧ FieldsEnd N (t ++ fieldTexts dt split (lineOf sol) i vs) r ∧
        (vs ≠ [] → i + vs.length ≤ r.1 + 1 → ∀ p ∈ r.2.1, p + 1 < N →
          AtLastText dt N t split (lineOf sol) i vs p r.2.2)
  | [], i, _, _, t, _, h, _, hm => by
    have hnil : t ++ fieldTexts dt split (lineOf sol) i ([] : List (FieldValue D)) = t := List.append_nil t
    rw [← Option.some.inj hm, hnil]
    exact ⟨⟨[], by rw [h.text, List.append_nil]⟩, .inr (.inl h), fun hne => absurd rfl hne⟩
  | v :: vs, i, ix, s, t, r, h, hvs, hm => by
    have hshort := shortLines_of_le hsol
    obtain ⟨s₁, ix₂, s₂, h₁, h₂, hr⟩ := encodeFields_cons dt hm
    rcases mysprintf_holds hN h h₁ with h₁ | ⟨hc, hf⟩
    · have hv : ShortStrings [v] := fun x hx => hvs x (by rw [List.mem_singleton.1 hx]; exact List.mem_cons_self)
      obtain ⟨⟨shown, hshown, hplain⟩, hfailed⟩ := encodeField_behind dt hN hsol h₁ hv h₂
      have hbegins : t <+: s₂.buffer := ⟨[hash] ++ shown, by rw [hshown, List.append_assoc]⟩
      have hnil : t ++ fieldTexts dt split (lineOf sol) i ([] : List (FieldValue D)) = t := List.append_nil t
      -- the loop stopped here
      have last : vs = [] → ∀ p ∈ ix₂, AtLastText dt N t split (lineOf sol) i (v :: vs) p s₂ := by
        rintro rfl p hp
        obtain ⟨hpos, hshownPlain⟩ := hplain p hp
        refine ⟨[], v, shown, rfl, ?_, ?_, hshownPlain, fun herr => (hfailed herr).2 (by rw [hp]; rfl)⟩
        · rw [hnil]
          exact hshown
        · rw [hnil]
          exact hpos
      rcases hr with ⟨herr, rfl⟩ | ⟨hok, hr⟩
      · refine ⟨hbegins, .inl herr, fun _ hlast p hp _ => last (List.eq_nil_of_length_eq_zero ?_) p hp⟩
        rw [List.length_cons] at hlast
        simp only at hlast
        omega
      · rcases encodeField_holds dt hN hshort h₁ h₂ with h₂ | herr
        · obtain ⟨hpre, hend, hlast⟩ := encodeFields_behind hN hsol vs (i + 1) ix₂ s₂ _ r h₂
            (fun x hx => hvs x (List.mem_cons_of_mem _ hx)) hr
          refine ⟨?_, ?_, fun _ hstop p hp hroom => ?_⟩
          · rw [List.append_assoc] at hpre
            exact (List.prefix_append t _).trans hpre
          · rw [fieldTexts_cons]
            simp only [List.append_assoc] at hend ⊢
            exact hend
          · cases vs with
            | nil =>
              obtain rfl := Option.some.inj hr
              exact last rfl p hp
            | cons w vs =>
              exact (hlast (List.cons_ne_nil _ _) (by rw [List.length_cons] at hstop; omega) p hp hroom).cons dt
        · rw [hok] at herr
          cases herr
    · have hstuck := hc.stuck (hf (by decide))
      have hfits := h.fits
      have hbegins : t <+: (t ++ [hash]).take (N - 1) :=
        List.prefix_take_iff.2 ⟨List.prefix_append _ _, by omega⟩
      obtain ⟨ix₂', s₂', h₂', hstuck₂, hix₂⟩ := hstuck.field dt split hN hshort hc.failed i v
      obtain ⟨rfl, rfl⟩ := Prod.mk.inj (Option.some.inj (h₂.symm.trans h₂'))
      have stop : ∀ r : Nat × Option Nat × Mysprintf, Stuck N r.2.2 ((t ++ [hash]).take (N - 1)) →
          (∀ p ∈ r.2.1, p + 1 = N) → t <+: r.2.2.buffer ∧
            FieldsEnd N (t ++ fieldTexts dt split (lineOf sol) i (v :: vs)) r ∧
            (v :: vs ≠ [] → i + (v :: vs).length ≤ r.1 + 1 → ∀ p ∈ r.2.1, p + 1 < N →
              AtLastText dt N t split (lineOf sol) i (v :: vs) p r.2.2) := fun r hr hp =>
        ⟨by rw [hr.text]; exact hbegins, .inr (.inr ⟨⟨_, hr⟩, hp⟩), fun _ _ p hp' hlt =>
          absurd (hp p hp') (Nat.ne_of_lt hlt)⟩
      rcases hr with ⟨-, rfl⟩ | ⟨-, hr⟩
      · exact stop (i, ix₂, s₂) hstuck₂ hix₂
      · obtain ⟨r', hr', hstuck', hix'⟩ := Stuck.fields dt split hN hshort vs (i + 1) ix₂ s₂ hstuck₂ hix₂
        obtain rfl := Option.some.inj (hr.symm.trans hr')
        exact stop r hstuck' hix'

/-! ## Sums in the range of an `int` -/

/-- What is printed for a value: a string that is split with all its lines. -/
def printed (split : Int) (sol : Option CString) (i : Nat) : FieldValue D → Bytes
  | .string (some v) => if (i : Int) = split then sol.elim [] Subtype.val else v.vString.1
  | .int (some n)    => printInt n.toInt
  | .double (some d) => dt.print d
  | .string none     => []
  | .int none        => []
  | .double none     => []

/-- Wherever a field is reached, from a position on, the sum of the position and the length printed is an `int`. -/
def FieldsDefined (N : Nat) (split : Int) (sol : Option CString) : Nat → Nat → List (FieldValue D) → Prop
  | _, _, []             => True
  | i, position, v :: vs => position + 1 < N →
    (intMax < (printed dt split sol i v).length ∨ position + 1 + (printed dt split sol i v).length ≤ intMax) ∧
      FieldsDefined N split sol (i + 1) (position + 1 + (valueText dt (lineAt split (lineOf sol) i v)).length) vs

theorem fieldsDefined_of_le {i position : Nat} (h : N ≤ position + 1) :
    ∀ vs : List (FieldValue D), FieldsDefined dt N split sol i position vs
  | []     => trivial
  | _ :: _ => fun hlt => absurd hlt (Nat.not_lt_of_le h)

theorem encodeField_some_iff (split : Int) (sol : Option CString) (hN : N ≤ intMax) (h : Holds N s t) (i : Nat)
    (v : FieldValue D) :
    (∃ r, encodeField dt split sol i s v = some r) ↔
      intMax < (printed dt split sol i v).length ∨ t.length + (printed dt split sol i v).length ≤ intMax := by
  have hfits := h.fits
  have nothing : (∃ r, some ((none : Option Nat), s) = some r) ↔
      intMax < ([] : Bytes).length ∨ t.length + ([] : Bytes).length ≤ intMax :=
    iff_of_true ⟨_, rfl⟩ (.inr (by rw [List.length_nil]; omega))
  have printing : ∀ {α : Type} (f : Mysprintf → α) (out : Bytes), (∃ r, (mysprintf s out).map f = some r) ↔
      intMax < out.length ∨ t.length + out.length ≤ intMax := by
    intro α f out
    have hsome : (∃ s', mysprintf s out = some s') ↔ _ := mysprintf_some_iff
    rw [h.ok, h.len] at hsome
    simp only [Bool.false_eq_true, false_or] at hsome
    rw [← hsome]
    constructor
    · rintro ⟨r, hr⟩
      obtain ⟨s', hs', -⟩ := Option.map_eq_some_iff.1 hr
      exact ⟨s', hs'⟩
    · rintro ⟨s', hs'⟩
      exact ⟨f s', by rw [hs']; rfl⟩
  cases v with
  | int v => cases v with
    | none => exact nothing
    | some n => exact printing _ _
  | double v => cases v with
    | none => exact nothing
    | some d => exact printing _ _
  | string v => cases v with
    | none => exact nothing
    | some v =>
      simp only [encodeField, printed]
      by_cases hi : (i : Int) = split
      · simp only [if_pos hi]
        cases sol with
        | none => exact iff_of_true ⟨_, rfl⟩ (.inr (by simp only [Option.elim_none, List.length_nil]; omega))
        | some str => exact printing _ _
      · simp only [if_neg hi]
        exact printing _ _

/-- **The fields are printed** exactly when the sums are in range. -/
theorem encodeFields_some_iff (split : Int) (hN : N ≤ intMax) (hsol : ∀ str ∈ sol, str.1.length ≤ intMax) :
    ∀ (vs : List (FieldValue D)) (i : Nat) (ix : Option Nat) (s : Mysprintf) (t : Bytes), Holds N s t →
      ShortStrings vs →
      ((∃ r, encodeFields dt split sol i ix s vs = some r) ↔ FieldsDefined dt N split sol i t.length vs)
  | [], _, _, _, _, _, _ => iff_of_true ⟨_, rfl⟩ trivial
  | v :: vs, i, ix, s, t, h, hvs => by
    have hshort := shortLines_of_le hsol
    have hfits := h.fits
    obtain ⟨s₁, h₁⟩ := mysprintf_some_iff.2 (show s.isError = true ∨ intMax < [hash].length ∨
      s.strLength + [hash].length ≤ intMax from .inr (.inr (by rw [h.len, List.length_singleton]; omega)))
    rw [encodeFields]
    simp only [h₁, Option.bind_eq_bind, Option.bind_some]
    by_cases hroom : t.length + 1 < N
    · have h₁ : Holds N s₁ (t ++ [hash]) := (mysprintf_holds hN h h₁).elim id fun hc => by
        have htooLong := hc.1.tooLong
        rw [List.length_append, List.length_singleton] at htooLong
        omega
      have hv : ShortStrings [v] := fun x hx => hvs x (by rw [List.mem_singleton.1 hx]; exact List.mem_cons_self)
      have hfield := encodeField_some_iff dt split sol hN h₁ i v
      rw [List.length_append, List.length_singleton] at hfield
      rw [FieldsDefined, ← hfield]
      constructor
      · rintro ⟨r, hr⟩ -
        obtain ⟨⟨ix₂, s₂⟩, h₂, hr⟩ := Option.bind_eq_some_iff.1 hr
        refine ⟨⟨_, h₂⟩, ?_⟩
        have hbehind := encodeField_behind dt hN hsol h₁ hv h₂
        by_cases herr : s₂.isError = true
        · have htooLong := (hbehind.failed herr).1
          rw [List.length_append, List.length_singleton] at htooLong
          exact fieldsDefined_of_le dt (Nat.le_succ_of_le htooLong) vs
        · simp only [if_neg herr] at hr
          have h₂ := (encodeField_holds dt hN hshort h₁ h₂).resolve_right herr
          have ih :=
            (encodeFields_some_iff split hN hsol vs (i + 1) ix₂ s₂ _ h₂ fun x hx => hvs x (List.mem_cons_of_mem _ hx)).1
            ⟨r, hr⟩
          simp only [List.length_append, List.length_singleton] at ih
          exact ih
      · intro hdefined
        obtain ⟨⟨⟨ix₂, s₂⟩, h₂⟩, hrest⟩ := hdefined hroom
        rw [h₂, Option.bind_some]
        by_cases herr : s₂.isError = true
        · exact ⟨_, if_pos herr⟩
        · have h₂ := (encodeField_holds dt hN hshort h₁ h₂).resolve_right herr
          obtain ⟨r, hr⟩ := (encodeFields_some_iff split hN hsol vs (i + 1) ix₂ s₂ _ h₂
            fun x hx => hvs x (List.mem_cons_of_mem _ hx)).2 (by
              simp only [List.length_append, List.length_singleton]
              exact hrest)
          exact ⟨r, (if_neg herr).trans hr⟩
    · refine iff_of_true ?_ fun hlt => absurd hlt hroom
      rcases mysprintf_holds hN h h₁ with h₁ | ⟨hc, hf⟩
      · have hfits₁ := h₁.fits
        rw [List.length_append, List.length_singleton] at hfits₁
        exact absurd hfits₁ hroom
      · obtain ⟨ix₂, s₂, h₂, hstuck₂, hix₂⟩ := (hc.stuck (hf (by decide))).field dt split hN hshort hc.failed i v
        rw [h₂, Option.bind_some]
        by_cases herr : s₂.isError = true
        · exact ⟨_, if_pos herr⟩
        · obtain ⟨r, hr, -⟩ := Stuck.fields dt split hN hshort vs (i + 1) ix₂ s₂ hstuck₂ hix₂
          exact ⟨r, (if_neg herr).trans hr⟩

/-! ## A record -/

/-- What a turn of the loop over the lines is made of: what is printed, and what is done about a record that does not
fit. -/
theorem encodeRecord_some {msg : Msg D} {good : Option Nat} {isError : Nat} {truncated : Bool}
    (hm : encodeRecord dt msg split sol good s = some (s', isError, truncated)) :
    ∃ s₁ r s₃, mysprintf s (star :: msg.protocol.version) = some s₁ ∧
      encodeFields dt split sol 0 none s₁ msg.values = some r ∧ mysprintf r.2.2 [newline] = some s₃ ∧
      let ixT := ixTruncateMsg msg.protocol.fields.length s₃.bufferSize r.1 r.2.1 good
      ((truncated = false ∧ s' = s₃) ∨
        (truncated = true ∧ (s₃.isError = true ∨ ((eolOf sol).isSome = true ∧
            (s₃.bufferSize : Int) < toSigned 32 (s₃.strLength + sizeofTruncateMsg))) ∧
          0 ≤ ixT ∧ toSigned 32 (ixT.toNat + sizeofTruncateMsg) ≤ s₃.bufferSize ∧
          mysprintf { s₃ with isError := false, strLength := ixT.toNat } truncateMsg = some s')) := by
  obtain ⟨s₁, h₁, hm⟩ := Option.bind_eq_some_iff.1 hm
  obtain ⟨⟨i, ix, s₂⟩, h₂, hm⟩ := Option.bind_eq_some_iff.1 hm
  obtain ⟨s₃, h₃, hm⟩ := Option.bind_eq_some_iff.1 hm
  refine ⟨s₁, (i, ix, s₂), s₃, h₁, h₂, h₃, ?_⟩
  simp only at hm ⊢
  by_cases hcut : s₃.isError = true ∨
      ((eolOf sol).isSome = true ∧ (s₃.bufferSize : Int) < toSigned 32 (s₃.strLength + sizeofTruncateMsg))
  · rw [if_pos hcut] at hm
    by_cases hix : ixTruncateMsg msg.protocol.fields.length s₃.bufferSize i ix good < 0 ∨ (s₃.bufferSize : Int) <
        toSigned 32 ((ixTruncateMsg msg.protocol.fields.length s₃.bufferSize i ix good).toNat + sizeofTruncateMsg)
    · rw [if_pos hix] at hm
      obtain ⟨rfl, hflags⟩ := Prod.mk.inj (Option.some.inj hm)
      exact .inl ⟨(Prod.mk.inj hflags).2.symm, rfl⟩
    · rw [if_neg hix] at hm
      obtain ⟨s₄, h₄, hm⟩ := Option.bind_eq_some_iff.1 hm
      obtain ⟨rfl, hflags⟩ := Prod.mk.inj (Option.some.inj hm)
      obtain ⟨hneg, hlong⟩ := not_or.1 hix
      exact .inr ⟨(Prod.mk.inj hflags).2.symm, hcut, Int.not_lt.1 hneg, Int.not_lt.1 hlong, h₄⟩
  · rw [if_neg hcut] at hm
    obtain ⟨rfl, hflags⟩ := Prod.mk.inj (Option.some.inj hm)
    exact .inl ⟨(Prod.mk.inj hflags).2.symm, rfl⟩

/-- What the beginning of a record leaves: it is there, or there was no room for it. -/
theorem version_behind (hN : N ≤ intMax) (h : Holds N s t) (hout : out.length ≤ intMax)
    (hm : mysprintf s out = some s') :
    Holds N s' (t ++ out) ∨ (Stuck N s' ((t ++ out).take (N - 1)) ∧ t <+: (t ++ out).take (N - 1)) := by
  have hfits := h.fits
  refine (mysprintf_holds hN h hm).imp id fun ⟨hcut, hfull⟩ => ⟨hcut.stuck (hfull hout), ?_⟩
  exact List.prefix_take_iff.2 ⟨List.prefix_append _ _, by omega⟩

/-- The texts of a record up to the last field's, and how the buffer goes on there. -/
structure LastText (N : Nat) (t version : Bytes) (split : Int) (line : Option CString) (values : List (FieldValue D))
    (p : Nat) (buffer : Bytes) : Prop where
  text : ∃ pre v shown rest, values = pre ++ [v] ∧
    buffer = t ++ (star :: version ++ fieldTexts dt split line 0 pre ++ [hash]) ++ shown ++ rest ∧
    p = (t ++ (star :: version ++ fieldTexts dt split line 0 pre ++ [hash])).length ∧ (∀ c ∈ shown, Plain c) ∧
    N ≤ p + shown.length + sizeofTruncateMsg

/-- **A record that does not fit** leaves what was there before, and if its last field was reached with room for the
text that says so, a beginning of that. -/
theorem record_unfit (hN : N ≤ intMax) (hsol : ∀ str ∈ sol, str.1.length ≤ intMax) {msg : Msg D}
    (hversion : msg.protocol.version.length < intMax) (hvs : ShortStrings msg.values) (h : Holds N s t)
    {s₁ s₃ : Mysprintf} {r : Nat × Option Nat × Mysprintf} (h₁ : mysprintf s (star :: msg.protocol.version) = some s₁)
    (h₂ : encodeFields dt split sol 0 none s₁ msg.values = some r) (h₃ : mysprintf r.2.2 [newline] = some s₃)
    (hcut : s₃.isError = true ∨
      ((eolOf sol).isSome = true ∧ (N : Int) < toSigned 32 (s₃.strLength + sizeofTruncateMsg))) :
    t <+: s₃.buffer ∧ (msg.values ≠ [] → msg.values.length ≤ r.1 + 1 → ∀ p ∈ r.2.1, p + sizeofTruncateMsg ≤ N →
      LastText dt N t msg.protocol.version split (lineOf sol) msg.values p s₃.buffer) := by
  have hshort := shortLines_of_le hsol
  have hsizeof : sizeofTruncateMsg = 8 := rfl
  rcases version_behind hN h (show (star :: msg.protocol.version).length ≤ intMax from hversion) h₁ with
    h₁ | ⟨hstuck, hbegins⟩
  · obtain ⟨hpre, hend, hlast⟩ := encodeFields_behind dt hN hsol msg.values 0 none s₁ _ r h₁ hvs h₂
    -- the newline is there or there was no room for it
    have hbuffer : ∃ rest, s₃.buffer = r.2.2.buffer ++ rest ∧ ∀ p ∈ r.2.1, p + sizeofTruncateMsg ≤ N →
        (r.2.2.isError = true → r.2.2.buffer.length + 1 = N) → N ≤ r.2.2.buffer.length + sizeofTruncateMsg := by
      by_cases herr : r.2.2.isError = true
      · rw [mysprintf_failed herr] at h₃
        obtain rfl := Option.some.inj h₃
        exact ⟨[], (List.append_nil _).symm, fun p _ _ hfull => by have := hfull herr; omega⟩
      rcases hend with hend | hend | ⟨⟨full, hend⟩, hnoRoom⟩
      · exact absurd hend herr
      · have hfits := hend.fits
        rcases mysprintf_holds hN hend h₃ with h₃ | ⟨hc, -⟩
        · refine ⟨[newline], by rw [h₃.text, hend.text], fun p _ _ _ => ?_⟩
          rcases hcut with hfailed | ⟨-, hover⟩
          · rw [h₃.ok] at hfailed
            cases hfailed
          · have hle := toSigned_le 32 (s₃.strLength + sizeofTruncateMsg)
            rw [h₃.len, List.length_append, List.length_singleton] at hover hle
            rw [hend.text]
            omega
        · have htooLong := hc.tooLong
          rw [List.length_append, List.length_singleton] at htooLong
          refine ⟨[], ?_, fun p _ _ _ => by rw [hend.text]; omega⟩
          rw [hc.text, hend.text, List.append_nil, List.take_append_of_le_length (by omega),
            List.take_of_length_le (by omega)]
      · obtain ⟨s₃', h₃', hstuck₃, -⟩ := hend.print hN (show [newline].length = 1 from rfl)
        obtain rfl := Option.some.inj (h₃.symm.trans h₃')
        exact ⟨[], by rw [hstuck₃.text, hend.text, List.append_nil], fun p hp hroom _ => by
          have := hnoRoom p hp
          omega⟩
    obtain ⟨rest, hrest, hroom⟩ := hbuffer
    refine ⟨?_, fun hne hstop p hp hfits => ?_⟩
    · rw [hrest]
      exact ((List.prefix_append t _).trans hpre).trans (List.prefix_append _ _)
    · obtain ⟨pre, v, shown, hvalues, hshown, hpos, hplain, hfull⟩ := hlast hne (by omega) p hp (by omega)
      have hlong := hroom p hp hfits hfull
      have hassoc : t ++ star :: msg.protocol.version ++ fieldTexts dt split (lineOf sol) 0 pre ++ [hash] =
          t ++ (star :: msg.protocol.version ++ fieldTexts dt split (lineOf sol) 0 pre ++ [hash]) := by
        simp only [List.append_assoc]
      rw [hassoc] at hshown hpos
      refine ⟨pre, v, shown, rest, hvalues, by rw [hrest, hshown], hpos, hplain, ?_⟩
      rw [hshown, List.length_append, ← hpos] at hlong
      exact hlong
  · obtain ⟨r', hr', hstuck', hix'⟩ := Stuck.fields dt split hN hshort msg.values 0 none s₁ hstuck
      fun p hp => by cases hp
    obtain rfl := Option.some.inj (h₂.symm.trans hr')
    obtain ⟨s₃', h₃', hstuck₃, -⟩ := hstuck'.print hN (show [newline].length = 1 from rfl)
    obtain rfl := Option.some.inj (h₃.symm.trans h₃')
    refine ⟨by rw [hstuck₃.text]; exact hbegins, fun _ _ p hp hfits => ?_⟩
    have := hix' p hp
    omega

/-- Where the text goes that ends a record cut off: into the last field, or over the end of the last good record. -/
theorem ixTruncateMsg_cases {numberOfFields i : Nat} {ix good : Option Nat}
    (h : 0 ≤ ixTruncateMsg numberOfFields N i ix good) :
    (∃ p ∈ ix, numberOfFields ≤ i + 1 ∧ p + sizeofTruncateMsg ≤ N ∧
        (ixTruncateMsg numberOfFields N i ix good).toNat = N - sizeofTruncateMsg) ∨
      ∃ g ∈ good, (ixTruncateMsg numberOfFields N i ix good).toNat = g - 1 := by
  have hsizeof : sizeofTruncateMsg = 8 := rfl
  unfold ixTruncateMsg at h ⊢
  cases ix with
  | none => cases good with
    | none => simp at h
    | some g => exact .inr ⟨g, rfl, by simp⟩
  | some p =>
    by_cases hp : numberOfFields ≤ i + 1 ∧ (p : Int) ≤ (N : Int) - sizeofTruncateMsg
    · simp only [if_pos hp] at h ⊢
      have hpos : ¬(N : Int) - sizeofTruncateMsg < 0 := by omega
      left
      refine ⟨p, rfl, hp.1, by omega, ?_⟩
      cases good with
      | none => simp only; omega
      | some g => simp only [if_neg hpos]; omega
    · simp only [if_neg hp] at h ⊢
      cases good with
      | none => simp at h
      | some g => exact .inr ⟨g, rfl, by simp⟩

/-- What is printed is put behind the place the length stands for, as far as there is room. -/
theorem mysprintf_buffer (hok : s.isError = false) (hm : mysprintf s out = some s') :
    s'.buffer = s.buffer.take s.strLength ++ out.take (s.bufferSize - s.strLength - 1) := by
  unfold mysprintf at hm
  simp only [hok, Bool.false_eq_true, if_false] at hm
  by_cases hbig : intMax < out.length
  · rw [if_pos hbig] at hm
    rw [← Option.some.inj hm]
  · rw [if_neg hbig] at hm
    cases hadd : intAdd out.length s.strLength with
    | none =>
      rw [hadd] at hm
      cases hm
    | some len =>
      simp only [hadd] at hm
      split at hm
      · rw [← Option.some.inj hm]
      · rw [← Option.some.inj hm]

/-- Printing over what is there, with room for all. -/
theorem print_over (hsize : s.bufferSize = N) (hok : s.isError = false) (hroom : s.strLength + out.length < N)
    (hm : mysprintf s out = some s') : s'.buffer = s.buffer.take s.strLength ++ out := by
  rw [mysprintf_buffer hok hm, @List.take_of_length_le _ _ out (by omega)]

theorem Holds.allFits (h : Holds N s t) : Fits N s :=
  ⟨h.size, by rw [h.len]; exact h.fits, by rw [h.text]; exact h.fits⟩

/-- **A record cut off**: the text that says so is behind a beginning of its last field's text, or over the end of the
record before. -/
theorem encodeRecord_truncated (hN : N ≤ intMax) (hsol : ∀ str ∈ sol, str.1.length ≤ intMax) {msg : Msg D}
    (hversion : msg.protocol.version.length < intMax) (hvs : ShortStrings msg.values) (hne : msg.values ≠ [])
    (h : Holds N s t) {good : Option Nat} (hgood : ∀ g ∈ good, g = t.length ∧ 0 < g ∧ g + 7 ≤ intMax) {e : Nat}
    (hm : encodeRecord dt msg split sol good s = some (s', e, true)) :
    (∃ pre v text, msg.values = pre ++ [v] ∧ (∀ c ∈ text, Plain c) ∧ s'.buffer =
        t ++ (star :: msg.protocol.version ++ fieldTexts dt split (lineOf sol) 0 pre ++ [hash] ++ text) ++
          truncateMsg) ∨
      (good = some t.length ∧ s'.buffer = t.take (t.length - 1) ++ truncateMsg) := by
  have hsizeof : sizeofTruncateMsg = 8 := rfl
  have hlength : truncateMsg.length = 7 := rfl
  have hmax : intMax < 2 ^ 31 := by decide
  obtain ⟨s₁, r, s₃, h₁, h₂, h₃, ⟨hfalse, -⟩ | ⟨-, hcut, hpos, hroom, h₄⟩⟩ := encodeRecord_some dt hm
  · cases hfalse
  have hfits := mysprintf_fits (encodeFields_fits dt _ _ _ _ _ (mysprintf_fits h.allFits h₁) h₂) h₃
  rw [hfits.size] at hcut hpos hroom h₄
  obtain ⟨hpre, hlast⟩ := record_unfit dt hN hsol hversion hvs h h₁ h₂ h₃ hcut
  rcases ixTruncateMsg_cases hpos with ⟨p, hp, hfields, hfit, hix⟩ | ⟨g, hg, hix⟩
  · -- in the last field
    have hvalues : msg.values.length = msg.protocol.fields.length := by
      have := congrArg List.length msg.typed
      rwa [List.length_map, List.length_map] at this
    obtain ⟨pre, v, shown, rest, heq, hbuffer, hposition, hplain, hlong⟩ := (hlast hne (by omega) p hp hfit).text
    rw [hix] at h₄
    refine .inl ⟨pre, v, shown.take (N - sizeofTruncateMsg - p), heq,
      fun c hc => hplain c (List.mem_of_mem_take hc), ?_⟩
    rw [print_over rfl rfl (by simp only; omega) h₄]
    simp only
    rw [hbuffer, List.append_assoc _ shown, List.take_append, List.take_of_length_le (by omega), ← hposition,
      List.take_append_of_le_length (by omega)]
    simp only [List.append_assoc]
  · -- over the end of the record before
    obtain ⟨rfl, hgpos, hgmax⟩ := hgood g hg
    rw [hix] at hroom h₄
    have hsigned : toSigned 32 (t.length - 1 + sizeofTruncateMsg) = (t.length - 1 + sizeofTruncateMsg : Nat) :=
      toSigned_of_lt (show t.length - 1 + sizeofTruncateMsg < 2 ^ (32 - 1) by omega)
    rw [hsigned] at hroom
    refine .inr ⟨hg, ?_⟩
    obtain ⟨rest, hrest⟩ := hpre
    rw [print_over rfl rfl (by simp only; omega) h₄]
    simp only
    rw [← hrest, List.take_append_of_le_length (Nat.sub_le _ _)]

/-! ## A record that fits -/

theorem encodeFields_fit (hN : N ≤ intMax) (hsol : ∀ str ∈ sol, str.1.length ≤ intMax) :
    ∀ (vs : List (FieldValue D)) (i : Nat) (ix : Option Nat) (s : Mysprintf) (t : Bytes)
      (r : Nat × Option Nat × Mysprintf), Holds N s t → ShortStrings vs → encodeFields dt split sol i ix s vs = some r →
      (t ++ fieldTexts dt split (lineOf sol) i vs).length < N →
      Holds N r.2.2 (t ++ fieldTexts dt split (lineOf sol) i vs)
  | [], i, _, _, t, _, h, _, hm, _ => by
    rw [← Option.some.inj hm, show t ++ fieldTexts dt split (lineOf sol) i ([] : List (FieldValue D)) = t from
      List.append_nil t]
    exact h
  | v :: vs, i, ix, s, t, r, h, hvs, hm, hroom => by
    have hshort := shortLines_of_le hsol
    have hv : ShortStrings [v] := fun x hx => hvs x (by rw [List.mem_singleton.1 hx]; exact List.mem_cons_self)
    obtain ⟨s₁, ix₂, s₂, h₁, h₂, hr⟩ := encodeFields_cons dt hm
    have htexts : t ++ fieldTexts dt split (lineOf sol) i (v :: vs) =
        t ++ [hash] ++ valueText dt (lineAt split (lineOf sol) i v) ++ fieldTexts dt split (lineOf sol) (i + 1) vs := by
      rw [fieldTexts_cons]
      simp only [List.append_assoc]
    have hlength := hroom
    rw [htexts, List.length_append, List.length_append] at hlength
    rcases mysprintf_holds hN h h₁ with h₁ | ⟨hc, -⟩
    · have hfailed := (encodeField_behind dt hN hsol h₁ hv h₂).failed
      have hok : s₂.isError = false := Bool.eq_false_iff.2 fun herr => by
        have htooLong := (hfailed herr).1
        omega
      rcases hr with ⟨herr, -⟩ | ⟨-, hr⟩
      · rw [hok] at herr
        cases herr
      · have h₂ := (encodeField_holds dt hN hshort h₁ h₂).resolve_right (by rw [hok]; exact Bool.false_ne_true)
        rw [htexts] at hroom ⊢
        exact encodeFields_fit hN hsol vs (i + 1) ix₂ s₂ _ r h₂ (fun x hx => hvs x (List.mem_cons_of_mem _ hx)) hr hroom
    · have htooLong := hc.tooLong
      omega

/-- A turn of the loop over the lines, once the record is printed. -/
theorem encodeRecord_printed {msg : Msg D} {good : Option Nat} {s₁ s₃ : Mysprintf} {r : Nat × Option Nat × Mysprintf}
    (h₁ : mysprintf s (star :: msg.protocol.version) = some s₁)
    (h₂ : encodeFields dt split sol 0 none s₁ msg.values = some r) (h₃ : mysprintf r.2.2 [newline] = some s₃) :
    encodeRecord dt msg split sol good s =
      if s₃.isError = true ∨
          ((eolOf sol).isSome = true ∧ (s₃.bufferSize : Int) < toSigned 32 (s₃.strLength + sizeofTruncateMsg)) then
        if ixTruncateMsg msg.protocol.fields.length s₃.bufferSize r.1 r.2.1 good < 0 ∨ (s₃.bufferSize : Int) <
            toSigned 32 ((ixTruncateMsg msg.protocol.fields.length s₃.bufferSize r.1 r.2.1 good).toNat +
              sizeofTruncateMsg) then
          some (s₃, if s₃.isError then 296 else 287, false)
        else
          (mysprintf { s₃ with isError := false, strLength :=
            (ixTruncateMsg msg.protocol.fields.length s₃.bufferSize r.1 r.2.1 good).toNat } truncateMsg).map
            fun s => (s, if s.isError then 296 else 0, true)
      else some (s₃, 0, false) := by
  obtain ⟨i, ix, s₂⟩ := r
  rw [encodeRecord, h₁]
  simp only [Option.bind_eq_bind, Option.bind_some, h₂, h₃, Option.map_eq_bind]
  rfl

/-- Where the record of the first line ends that is printed from a position on. -/
def recordEnd (msg : Msg D) (split : Int) (sol : Option CString) (start : Nat) : Nat :=
  start + (recordText dt msg.protocol.version (lineValues split (lineOf sol) 0 msg.values)).length + 1

/-- The record of a line is in the buffer with its newline, and behind it, if there is one more, the room that is
tested for. -/
def RecordFits (N : Nat) (msg : Msg D) (split : Int) (sol : Option CString) (start : Nat) : Prop :=
  recordEnd dt msg split sol start < N ∧
    ((eolOf sol).isSome = true → toSigned 32 (recordEnd dt msg split sol start + sizeofTruncateMsg) ≤ N)

/-- What is printed for a record: the loop over the fields gives `r`, and with the newline the buffer is `s₃`. -/
structure RecordPrinted (msg : Msg D) (split : Int) (sol : Option CString) (s : Mysprintf)
    (r : Nat × Option Nat × Mysprintf) (s₃ : Mysprintf) : Prop where
  fields : ∃ s₁, mysprintf s (star :: msg.protocol.version) = some s₁ ∧
    encodeFields dt split sol 0 none s₁ msg.values = some r
  ended : mysprintf r.2.2 [newline] = some s₃

variable {msg : Msg D} {r : Nat × Option Nat × Mysprintf} {s₃ : Mysprintf} {good : Option Nat}

/-- **A record is printed** exactly when the sums are in range. -/
theorem recordPrinted_iff (hN : N ≤ intMax) (hsol : ∀ str ∈ sol, str.1.length ≤ intMax)
    (hversion : msg.protocol.version.length < intMax) (hvs : ShortStrings msg.values) (h : Holds N s t)
    (hstart : t.length + 1 + msg.protocol.version.length ≤ intMax) :
    (∃ r s₃, RecordPrinted dt msg split sol s r s₃) ↔
      FieldsDefined dt N split sol 0 (t.length + 1 + msg.protocol.version.length) msg.values := by
  have hshort := shortLines_of_le hsol
  have hlength : (t ++ star :: msg.protocol.version).length = t.length + 1 + msg.protocol.version.length := by
    rw [List.length_append, List.length_cons]
    omega
  obtain ⟨s₁, h₁⟩ := mysprintf_some_iff.2 (show s.isError = true ∨ intMax < (star :: msg.protocol.version).length ∨
    s.strLength + (star :: msg.protocol.version).length ≤ intMax from
      .inr (.inr (by rw [h.len, List.length_cons]; omega)))
  rcases version_behind hN h (show (star :: msg.protocol.version).length ≤ intMax from hversion) h₁ with
    h₁' | ⟨hstuck, -⟩
  · have hfields := encodeFields_some_iff dt split hN hsol msg.values 0 none s₁ _ h₁' hvs
    rw [hlength] at hfields
    rw [← hfields]
    constructor
    · rintro ⟨r, s₃, ⟨s₁', h₁'', h₂⟩, -⟩
      obtain rfl := Option.some.inj (h₁.symm.trans h₁'')
      exact ⟨r, h₂⟩
    · rintro ⟨r, h₂⟩
      -- the newline
      have hended : r.2.2.isError = true ∨ intMax < [newline].length ∨ r.2.2.strLength + [newline].length ≤ intMax := by
        rw [List.length_singleton]
        rcases (encodeFields_behind dt hN hsol msg.values 0 none s₁ _ r h₁' hvs h₂).2.1 with
          herr | hend | ⟨⟨_, hend⟩, -⟩
        · exact .inl herr
        · have hfits := hend.fits
          have hlen := hend.len
          exact .inr (.inr (by omega))
        · have hlen := hend.len
          exact .inr (.inr (by omega))
      obtain ⟨s₃, h₃⟩ := mysprintf_some_iff.2 hended
      exact ⟨r, s₃, ⟨s₁, h₁, h₂⟩, h₃⟩
  · obtain ⟨r, h₂, hstuck₂, -⟩ := Stuck.fields dt split hN hshort msg.values 0 none s₁ hstuck
      fun p hp => by cases hp
    obtain ⟨s₃, h₃, -⟩ := hstuck₂.print hN (show [newline].length = 1 from rfl)
    have hfull := hstuck.full
    rw [List.length_take, hlength] at hfull
    exact iff_of_true ⟨r, s₃, ⟨s₁, h₁, h₂⟩, h₃⟩ (fieldsDefined_of_le dt (by omega) _)

/-- A record is in the buffer, ended, exactly when it fits. -/
theorem RecordPrinted.holds_iff (hN : N ≤ intMax) (hsol : ∀ str ∈ sol, str.1.length ≤ intMax)
    (hversion : msg.protocol.version.length < intMax) (hvs : ShortStrings msg.values) (h : Holds N s t)
    (hp : RecordPrinted dt msg split sol s r s₃) :
    (s₃.isError = false ↔ recordEnd dt msg split sol t.length < N) ∧ (s₃.isError = false → Holds N s₃
      (t ++ (recordText dt msg.protocol.version (lineValues split (lineOf sol) 0 msg.values) ++ [newline]))) := by
  have hshort := shortLines_of_le hsol
  obtain ⟨⟨s₁, h₁, h₂⟩, h₃⟩ := hp
  have hholds := fun hok => record_holds dt hN hversion hshort h h₁ h₂ h₃ hok
  refine ⟨⟨fun hok => ?_, fun hroom => ?_⟩, hholds⟩
  · have hfits := (hholds hok).fits
    rw [List.length_append, List.length_append, List.length_singleton] at hfits
    rw [recordEnd]
    omega
  · have hrecord : recordText dt msg.protocol.version (lineValues split (lineOf sol) 0 msg.values) =
        star :: msg.protocol.version ++ fieldTexts dt split (lineOf sol) 0 msg.values := rfl
    rw [recordEnd, hrecord, List.length_append] at hroom
    have h₁ := (mysprintf_holds hN h h₁).resolve_right fun hc => by
      have htooLong := hc.1.tooLong
      rw [List.length_append] at htooLong
      omega
    have h₂ := encodeFields_fit dt hN hsol msg.values 0 none s₁ _ r h₁ hvs h₂
      (by rw [List.length_append, List.length_append]; omega)
    refine ((mysprintf_holds hN h₂ h₃).resolve_right fun hc => ?_).ok
    have htooLong := hc.1.tooLong
    rw [List.length_append, List.length_append, List.length_append, List.length_singleton] at htooLong
    omega

/-- The record is complete, and no text is put at its end, exactly when it fits. -/
theorem encodeRecord_complete_iff (hN : N ≤ intMax) (hsol : ∀ str ∈ sol, str.1.length ≤ intMax)
    (hversion : msg.protocol.version.length < intMax) (hvs : ShortStrings msg.values) (h : Holds N s t)
    (hp : RecordPrinted dt msg split sol s r s₃) :
    encodeRecord dt msg split sol good s = some (s₃, 0, false) ↔ RecordFits dt N msg split sol t.length := by
  obtain ⟨hok, hholds⟩ := hp.holds_iff dt hN hsol hversion hvs h
  obtain ⟨⟨s₁, h₁, h₂⟩, h₃⟩ := hp
  have hend : s₃.isError = false → s₃.bufferSize = N ∧ s₃.strLength = recordEnd dt msg split sol t.length := by
    intro hfalse
    have hheld := hholds hfalse
    refine ⟨hheld.size, ?_⟩
    rw [hheld.len, List.length_append, List.length_append, List.length_singleton, recordEnd]
    omega
  rw [encodeRecord_printed dt h₁ h₂ h₃]
  constructor
  · intro hm
    split at hm
    · -- an error, or no room for another record: the result is not 0
      split at hm
      · have hcode := (Prod.mk.inj (Prod.mk.inj (Option.some.inj hm)).2).1
        split at hcode <;> cases hcode
      · obtain ⟨s₄, -, hm⟩ := Option.map_eq_some_iff.1 hm
        cases (Prod.mk.inj (Prod.mk.inj hm).2).2
    · rename_i hcut
      obtain ⟨herr, hroom⟩ := not_or.1 hcut
      have hfalse := Bool.eq_false_iff.2 herr
      obtain ⟨hsize, hlen⟩ := hend hfalse
      rw [hsize, hlen] at hroom
      exact ⟨hok.1 hfalse, fun heol => Int.not_lt.1 fun hlt => hroom ⟨heol, hlt⟩⟩
  · rintro ⟨hfits, hroom⟩
    have hfalse := hok.2 hfits
    obtain ⟨hsize, hlen⟩ := hend hfalse
    rw [if_neg]
    rintro (herr | ⟨heol, hlt⟩)
    · rw [hfalse] at herr
      cases herr
    · rw [hsize, hlen] at hlt
      exact absurd (hroom heol) (Int.not_le.2 hlt)

theorem recordPrinted_of_some {s' : Mysprintf} {e : Nat} {truncated : Bool}
    (hm : encodeRecord dt msg split sol good s = some (s', e, truncated)) :
    ∃ r s₃, RecordPrinted dt msg split sol s r s₃ := by
  obtain ⟨s₁, r, s₃, h₁, h₂, h₃, -⟩ := encodeRecord_some dt hm
  exact ⟨r, s₃, ⟨s₁, h₁, h₂⟩, h₃⟩

/-- **A turn of the loop has a result** exactly when the sums are in range. -/
theorem encodeRecord_some_iff (hN : N ≤ intMax) (hsol : ∀ str ∈ sol, str.1.length ≤ intMax)
    (hversion : msg.protocol.version.length < intMax) (hvs : ShortStrings msg.values) (h : Holds N s t)
    (hstart : t.length + 1 + msg.protocol.version.length ≤ intMax)
    (hgood : ∀ g ∈ good, g = t.length ∧ 0 < g ∧ g + 7 ≤ intMax) :
    (∃ result, encodeRecord dt msg split sol good s = some result) ↔
      FieldsDefined dt N split sol 0 (t.length + 1 + msg.protocol.version.length) msg.values := by
  rw [← recordPrinted_iff dt hN hsol hversion hvs h hstart]
  constructor
  · rintro ⟨⟨s', e, truncated⟩, hm⟩
    exact recordPrinted_of_some dt hm
  · rintro ⟨r, s₃, ⟨s₁, h₁, h₂⟩, h₃⟩
    rw [encodeRecord_printed dt h₁ h₂ h₃]
    split
    · split
      · exact ⟨_, rfl⟩
      · rename_i hix
        -- the text is printed over what is there: its place is in the buffer
        have hplace : (ixTruncateMsg msg.protocol.fields.length s₃.bufferSize r.1 r.2.1 good).toNat +
            truncateMsg.length ≤ intMax := by
          have hlength : truncateMsg.length = 7 := rfl
          have hsizeof : sizeofTruncateMsg = 8 := rfl
          have hsize := (mysprintf_fits (encodeFields_fits dt _ _ _ _ _ (mysprintf_fits h.allFits h₁) h₂) h₃).size
          rcases ixTruncateMsg_cases (Int.not_lt.1 (not_or.1 hix).1) with ⟨p, -, -, hroom, heq⟩ | ⟨g, hg, heq⟩
          · rw [heq]
            omega
          · obtain ⟨-, -, hmax⟩ := hgood g hg
            rw [heq]
            omega
        obtain ⟨s₄, h₄⟩ := mysprintf_some_iff.2 (.inr (.inr hplace) : _ ∨ _ ∨ Mysprintf.strLength { s₃ with
          isError := false,
          strLength := (ixTruncateMsg msg.protocol.fields.length s₃.bufferSize r.1 r.2.1 good).toNat } +
            truncateMsg.length ≤ intMax)
        exact ⟨_, by rw [h₄]; rfl⟩
    · exact ⟨_, rfl⟩

/-! ## Behind the last place for the text -/

theorem ixTruncateMsg_nonneg (numberOfFields bufferSize i : Nat) (ix : Option Nat) {g : Nat} (hg : 0 < g) :
    0 ≤ ixTruncateMsg numberOfFields bufferSize i ix (some g) := by
  unfold ixTruncateMsg
  simp only
  split <;> omega

theorem le_length_recordText (version : Bytes) (values : List (FieldValue D)) :
    1 + version.length + values.length ≤ (recordText dt version values).length := by
  have htexts : values.length ≤ (values.flatMap fun v => hash :: valueText dt v).length := by
    induction values with
    | nil => exact Nat.le_refl 0
    | cons v values ih =>
      rw [List.flatMap_cons, List.length_append, List.length_cons, List.length_cons]
      omega
  rw [recordText, List.length_append, List.length_cons]
  omega

theorem lineValues_length (split : Int) (line : Option CString) (i : Nat) (vs : List (FieldValue D)) :
    (lineValues split line i vs).length = vs.length := by
  have htypes := congrArg List.length (lineValues_types split line i vs)
  rwa [List.length_map, List.length_map] at htypes

theorem msg_values_length (msg : Msg D) : msg.values.length = msg.protocol.fields.length := by
  have htyped := congrArg List.length msg.typed
  rwa [List.length_map, List.length_map] at htyped

/-- **A record that begins too late** is not printed; the text that says so is put over the end of the record before,
and cut off: the test for room adds to a number that is no `int` then. -/
theorem encodeRecord_late (hN : N ≤ intMax) (hsol : ∀ str ∈ sol, str.1.length ≤ intMax)
    (hversion : msg.protocol.version.length < intMax) (hvs : ShortStrings msg.values)
    (hlong : 5 ≤ msg.protocol.version.length + msg.values.length) (hne : msg.values ≠ []) (h : Holds N s t)
    (ht : 0 < t.length) (hlate : intMax < t.length + 7) {e : Nat} {truncated : Bool}
    (hm : encodeRecord dt msg split sol (some t.length) s = some (s', e, truncated)) :
    truncated = true ∧ ∃ k, 0 < k ∧ k < 7 ∧ s'.buffer = t.take (t.length - 1) ++ truncateMsg.take k := by
  have hsizeof : sizeofTruncateMsg = 8 := rfl
  have hlength : truncateMsg.length = 7 := rfl
  have hmax : intMax = 2 ^ 31 - 1 := by decide
  have hfits := h.fits
  obtain ⟨r, s₃, hp⟩ := recordPrinted_of_some dt hm
  have hunfit : s₃.isError = true := by
    by_contra hok
    have hend := (hp.holds_iff dt hN hsol hversion hvs h).1.1 (Bool.eq_false_iff.2 hok)
    have hle := le_length_recordText dt msg.protocol.version (lineValues split (lineOf sol) 0 msg.values)
    rw [lineValues_length] at hle
    rw [recordEnd] at hend
    omega
  obtain ⟨⟨s₁, h₁, h₂⟩, h₃⟩ := hp
  have hsize := (mysprintf_fits (encodeFields_fits dt _ _ _ _ _ (mysprintf_fits h.allFits h₁) h₂) h₃).size
  obtain ⟨⟨rest, hrest⟩, hlast⟩ := record_unfit dt hN hsol hversion hvs h h₁ h₂ h₃ (.inl hunfit)
  have hpos := ixTruncateMsg_nonneg msg.protocol.fields.length N r.1 r.2.1 ht
  have hix : (ixTruncateMsg msg.protocol.fields.length N r.1 r.2.1 (some t.length)).toNat = t.length - 1 := by
    rcases ixTruncateMsg_cases hpos with ⟨p, hp, hfields, hroom, -⟩ | ⟨g, hg, heq⟩
    · obtain ⟨pre, v, shown, rest', -, -, hplace, -⟩ := (hlast hne (by rw [msg_values_length]; omega) p hp hroom).text
      rw [List.length_append, List.length_append, List.length_append, List.length_cons] at hplace
      omega
    · rw [heq, Option.some.inj hg]
  -- the sum is negative as an `int`
  have hsigned : toSigned 32 (t.length - 1 + sizeofTruncateMsg) < 0 := by
    unfold toSigned
    rw [Nat.mod_eq_of_lt (by omega), if_neg (by omega)]
    omega
  rw [encodeRecord_printed dt h₁ h₂ h₃, hsize, hix, if_pos (.inl hunfit), if_neg (by omega)] at hm
  obtain ⟨s₄, h₄, hm⟩ := Option.map_eq_some_iff.1 hm
  obtain ⟨rfl, hflags⟩ := Prod.mk.inj hm
  refine ⟨(Prod.mk.inj hflags).2.symm, N - t.length, by omega, ?_, ?_⟩
  · have hsum := mysprintf_some_iff.1 ⟨s₄, h₄⟩
    simp only [Bool.false_eq_true, false_or] at hsum
    omega
  · rw [mysprintf_buffer rfl h₄]
    simp only
    rw [← hrest, List.take_append_of_le_length (Nat.sub_le _ _), show N - (t.length - 1) - 1 = N - t.length by omega]

end Message
end Flp
