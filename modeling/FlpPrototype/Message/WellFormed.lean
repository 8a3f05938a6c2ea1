import FlpPrototype.Message.Truncate
/-!
# WellFormed — whole records in the buffer

When `infoLog_msg_encode` returns 0 the buffer holds the record of each line, and when it returns -1 the records of the
first lines and a last one that says it was cut off.  This is so, and nothing is written outside the buffer, exactly
when the lengths that are added stay in the range of an `int` (`encodesWholeRecords_iff`).
-/
namespace Flp
namespace Message

variable {D : Type} (dt : DoubleText D)

/-! ## Records -/

/-- A whole record of a protocol. -/
def IsRecord (p : Protocol) (record : Bytes) : Prop :=
  ∃ texts : List Bytes, texts.length = p.fields.length ∧ (∀ text ∈ texts, ∀ c ∈ text, Plain c) ∧
    record = star :: p.version ++ texts.flatMap (fun text => hash :: text) ++ [newline]

/-- The records of the lines, each ended. -/
def lineRecords (msg : Msg D) (split : Int) (sol : Option CString) : List Bytes :=
  (recordsText dt msg split sol).map fun record => record ++ [newline]

/-- What the buffer shows after a result, the lines having the records `lines`. -/
def WholeRecords (p : Protocol) (lines : List Bytes) (code : Int) (buffer : Bytes) : Prop :=
  ∃ records : List Bytes, buffer = records.flatten ∧ (∀ record ∈ records, IsRecord p record) ∧
    (code = 0 → records = lines) ∧
    (code = -1 → ∃ complete last, records = complete ++ [last] ∧ complete <+: lines ∧ truncateMsg <:+ last)

variable {msg : Msg D} {split : Int} {sol : Option CString} {p : Protocol} {record : Bytes}

theorem flatMap_valueText (values : List (FieldValue D)) :
    values.flatMap (fun v => hash :: valueText dt v) =
      (values.map (valueText dt)).flatMap fun text => hash :: text := by
  rw [List.flatMap_map]

theorem valueTexts_plain (values : List (FieldValue D)) : ∀ text ∈ values.map (valueText dt), ∀ c ∈ text, Plain c := by
  intro text htext
  obtain ⟨v, -, rfl⟩ := List.mem_map.1 htext
  exact valueText_plain dt v

theorem isRecord_recordText (msg : Msg D) (split : Int) (line : Option CString) :
    IsRecord msg.protocol (recordText dt msg.protocol.version (lineValues split line 0 msg.values) ++ [newline]) := by
  refine ⟨(lineValues split line 0 msg.values).map (valueText dt), ?_, valueTexts_plain dt _, ?_⟩
  · rw [List.length_map, lineValues_length, msg_values_length]
  · rw [recordText, flatMap_valueText]

theorem lineRecords_last (h : eolOf sol = none) :
    lineRecords dt msg split sol =
      [recordText dt msg.protocol.version (lineValues split (lineOf sol) 0 msg.values) ++ [newline]] := by
  rw [lineRecords, recordsText, linesOf_last h]
  rfl

theorem lineRecords_line {str : CString} {eol : Nat} (h : strchr str.1 newline = some eol) :
    lineRecords dt msg split (some str) =
      (recordText dt msg.protocol.version (lineValues split (lineOf (some str)) 0 msg.values) ++ [newline]) ::
        lineRecords dt msg split (some (str.drop (eol + 1))) := by
  rw [lineRecords, lineRecords, recordsText, recordsText, linesOf_line h, List.map_cons, List.map_cons]

/-- What is put at the end of a record cut off, but for its newline. -/
def truncateText : Bytes := ascii [' ', '[', '.', '.', '.', ']']

theorem truncateMsg_eq : truncateMsg = truncateText ++ [newline] := by decide

theorem truncateText_plain : ∀ c ∈ truncateText, Plain c := by
  have hall : truncateText.all (fun c => decide (c ≠ 0 ∧ c ≠ star ∧ c ≠ hash ∧ c ≠ newline)) = true := by decide
  intro c hc
  have hplain : c ≠ 0 ∧ c ≠ star ∧ c ≠ hash ∧ c ≠ newline := of_decide_eq_true (List.all_eq_true.1 hall c hc)
  exact hplain

/-- A record whose last text goes on with the text that says it was cut off. -/
theorem isRecord_truncated {texts : List Bytes} {text : Bytes} (hlength : (texts ++ [text]).length = p.fields.length)
    (hplain : ∀ text' ∈ texts ++ [text], ∀ c ∈ text', Plain c) :
    IsRecord p (star :: p.version ++ (texts ++ [text]).flatMap (fun text => hash :: text) ++ truncateMsg) := by
  refine ⟨texts ++ [text ++ truncateText], ?_, ?_, ?_⟩
  · rw [List.length_append, List.length_singleton] at hlength ⊢
    exact hlength
  · intro text' htext
    rcases List.mem_append.1 htext with htext | htext
    · exact hplain text' (List.mem_append_left _ htext)
    · rw [List.mem_singleton.1 htext]
      intro c hc
      rcases List.mem_append.1 hc with hc | hc
      · exact hplain text (List.mem_append_right _ (List.mem_singleton_self text)) c hc
      · exact truncateText_plain c hc
  · rw [truncateMsg_eq]
    simp [List.flatMap_append, List.append_assoc]

theorem IsRecord.truncate (h : IsRecord p record) (hfields : p.fields ≠ []) :
    ∃ front, record = front ++ [newline] ∧ IsRecord p (front ++ truncateMsg) := by
  obtain ⟨texts, hlength, hplain, rfl⟩ := h
  refine ⟨_, rfl, ?_⟩
  cases texts using List.reverseRecOn with
  | nil => exact absurd (List.eq_nil_of_length_eq_zero hlength.symm) hfields
  | append_singleton texts text => exact isRecord_truncated hlength hplain

/-! ## The condition -/

/-- On the way from line to line, from a position on: the fields' sums are in range, and a record with a line behind it
ends where the text that says it was cut off can still be put. -/
inductive LinesDefined (N : Nat) (msg : Msg D) (split : Int) : Nat → Option CString → Prop
  | last {start : Nat} {sol : Option CString} (hlast : eolOf sol = none)
      (hfields : FieldsDefined dt N split sol 0 (start + 1 + msg.protocol.version.length) msg.values) :
      LinesDefined N msg split start sol
  | line {start : Nat} {str : CString} {eol : Nat} (hline : strchr str.1 newline = some eol)
      (hfields : FieldsDefined dt N split (some str) 0 (start + 1 + msg.protocol.version.length) msg.values)
      (hend : RecordFits dt N msg split (some str) start → recordEnd dt msg split (some str) start + 7 ≤ intMax)
      (hrest : RecordFits dt N msg split (some str) start →
        LinesDefined N msg split (recordEnd dt msg split (some str) start) (some (str.drop (eol + 1)))) :
      LinesDefined N msg split start (some str)

/-! ## The loop over the lines -/

variable {N : Nat} {s s' : Mysprintf} {good : Option Nat}

/-- Some complete records, and one cut off. -/
theorem wholeRecords_cutOff {complete lines : List Bytes} {front : Bytes}
    (hcomplete : ∀ record ∈ complete, IsRecord p record) (hlast : IsRecord p (front ++ truncateMsg))
    (hlines : complete <+: lines) : WholeRecords p lines (-1) (complete.flatten ++ (front ++ truncateMsg)) := by
  refine ⟨complete ++ [front ++ truncateMsg], by simp, fun record hrecord => ?_, fun hzero => absurd hzero (by decide),
    fun _ => ⟨complete, front ++ truncateMsg, rfl, hlines, List.suffix_append _ _⟩⟩
  rcases List.mem_append.1 hrecord with hrecord | hrecord
  · exact hcomplete record hrecord
  · rw [List.mem_singleton.1 hrecord]
    exact hlast

theorem encodeLoop_truncated {e : Nat} (hr : encodeRecord dt msg split sol good s = some (s', e, true)) :
    encodeLoop dt msg split good s sol = some (-1, s'.buffer) := by
  rw [encodeLoop, lineLoop, hr]
  rfl

theorem encodeLoop_failed {e : Nat} (hr : encodeRecord dt msg split sol good s = some (s', e, false)) (he : e ≠ 0) :
    encodeLoop dt msg split good s sol = some ((e : Int), s'.buffer) := by
  rw [encodeLoop, lineLoop, hr]
  simp only [Bool.false_eq_true, if_false]
  rw [if_pos he]

theorem encodeLoop_end (hr : encodeRecord dt msg split sol good s = some (s', 0, false)) (hlast : eolOf sol = none) :
    encodeLoop dt msg split good s sol = some (0, s'.buffer) := by
  cases sol with
  | none =>
    rw [encodeLoop, lineLoop, hr]
    rfl
  | some str => exact encodeLoop_last dt hr (by simpa only [eolOf, Option.bind_some] using hlast)

/-- The loop over the lines has come to a line, the records before it being in the buffer. -/
structure Reached (N : Nat) (p : Protocol) (done : List Bytes) (good : Option Nat) (s : Mysprintf) : Prop where
  holds : Holds N s done.flatten
  records : ∀ record ∈ done, IsRecord p record
  good : good = none ∧ done = [] ∨ good = some done.flatten.length ∧ done ≠ [] ∧ done.flatten.length + 7 ≤ intMax

variable {done : List Bytes}

theorem flatten_pos (h : ∀ record ∈ done, IsRecord p record) (hne : done ≠ []) : 0 < done.flatten.length := by
  cases done with
  | nil => exact absurd rfl hne
  | cons record rest =>
    obtain ⟨texts, -, -, rfl⟩ := h record List.mem_cons_self
    rw [List.flatten_cons, List.length_append, List.length_append, List.length_singleton]
    omega

theorem Reached.lastGood (h : Reached N p done good s) :
    ∀ g ∈ good, g = done.flatten.length ∧ 0 < g ∧ g + 7 ≤ intMax := by
  intro g hg
  rcases h.good with ⟨rfl, -⟩ | ⟨rfl, hne, hmax⟩
  · cases hg
  · obtain rfl := Option.some.inj hg
    exact ⟨rfl, flatten_pos h.records hne, hmax⟩

theorem Reached.start (h : Reached N p done good s) (hversion : p.version.length ≤ 6) :
    done.flatten.length + 1 + p.version.length ≤ intMax := by
  have hmax : intMax = 2 ^ 31 - 1 := by decide
  rcases h.good with ⟨-, rfl⟩ | ⟨-, -, hend⟩
  · rw [List.flatten_nil, List.length_nil]
    omega
  · omega

theorem reached_init (hN : 0 < N) : Reached N p [] none (mysprintfInit N) :=
  ⟨holds_init hN, fun _ hrecord => absurd hrecord List.not_mem_nil, .inl ⟨rfl, rfl⟩⟩

/-- **A record that fits is put behind the others.** -/
theorem Reached.holds_next (hN : N ≤ intMax) (hsol : ∀ str ∈ sol, str.1.length ≤ intMax)
    (hversion : msg.protocol.version.length < intMax) (hvs : ShortStrings msg.values)
    (h : Reached N msg.protocol done good s) {r : Nat × Option Nat × Mysprintf} {s₃ : Mysprintf}
    (hp : RecordPrinted dt msg split sol s r s₃) (hfits : RecordFits dt N msg split sol done.flatten.length) :
    ∃ record, record = recordText dt msg.protocol.version (lineValues split (lineOf sol) 0 msg.values) ++ [newline] ∧
      Holds N s₃ (done ++ [record]).flatten ∧ (∀ r ∈ done ++ [record], IsRecord msg.protocol r) ∧
      (done ++ [record]).flatten.length = recordEnd dt msg split sol done.flatten.length := by
  obtain ⟨hok, hholds⟩ := hp.holds_iff dt hN hsol hversion hvs h.holds
  have hheld := hholds (hok.2 hfits.1)
  refine ⟨_, rfl, ?_, fun record hrecord => ?_, ?_⟩
  · rw [List.flatten_append, List.flatten_cons, List.flatten_nil, List.append_nil]
    exact hheld
  · rcases List.mem_append.1 hrecord with hrecord | hrecord
    · exact h.records record hrecord
    · rw [List.mem_singleton.1 hrecord]
      exact isRecord_recordText dt msg split (lineOf sol)
  · rw [List.flatten_append, List.flatten_cons, List.flatten_nil, List.append_nil, List.length_append,
      List.length_append, List.length_singleton, recordEnd, Nat.add_assoc]

/-- **A turn that does not go on** leaves whole records: all, or the first and one cut off. -/
theorem Reached.stop (hN : N ≤ intMax) (hsol : ∀ str ∈ sol, str.1.length ≤ intMax)
    (hversion : msg.protocol.version.length < intMax) (hfields : msg.protocol.fields ≠ [])
    (hvs : ShortStrings msg.values) (h : Reached N msg.protocol done good s) {e : Nat}
    (hm : encodeRecord dt msg split sol good s = some (s', e, true)) (rest : List Bytes) :
    WholeRecords msg.protocol (done ++ rest) (-1) s'.buffer := by
  have hne : msg.values ≠ [] := fun hnil => by
    have hlength := msg_values_length msg
    rw [hnil] at hlength
    exact hfields (List.eq_nil_of_length_eq_zero hlength.symm)
  rcases encodeRecord_truncated dt hN hsol hversion hvs hne h.holds h.lastGood hm with
    ⟨pre, v, text, hvalues, hplain, hbuffer⟩ | ⟨hgood, hbuffer⟩
  · -- in the last field of the record under way
    have hlast : IsRecord msg.protocol (star :: msg.protocol.version ++
        ((lineValues split (lineOf sol) 0 pre).map (valueText dt) ++ [text]).flatMap (fun text => hash :: text) ++
          truncateMsg) := by
      refine isRecord_truncated ?_ fun text' htext => ?_
      · have hlength := congrArg List.length hvalues
        rw [msg_values_length, List.length_append, List.length_singleton] at hlength
        rw [List.length_append, List.length_map, lineValues_length, List.length_singleton, hlength]
      · rcases List.mem_append.1 htext with htext | htext
        · exact valueTexts_plain dt _ text' htext
        · rw [List.mem_singleton.1 htext]
          exact hplain
    have htext : s'.buffer = done.flatten ++ (star :: msg.protocol.version ++
        ((lineValues split (lineOf sol) 0 pre).map (valueText dt) ++ [text]).flatMap (fun text => hash :: text) ++
          truncateMsg) := by
      rw [hbuffer, fieldTexts, flatMap_valueText]
      simp [List.flatMap_append, List.append_assoc]
    rw [htext]
    exact wholeRecords_cutOff h.records hlast (List.prefix_append _ _)
  · -- over the end of the last complete one
    cases done using List.reverseRecOn with
    | nil =>
      rcases h.good with ⟨hnone, -⟩ | ⟨-, hne, -⟩
      · rw [hgood] at hnone
        cases hnone
      · exact absurd rfl hne
    | append_singleton complete last =>
      obtain ⟨front, rfl, hlast⟩ := (h.records last (List.mem_append_right _ (List.mem_singleton_self last))).truncate
        hfields
      have htext : s'.buffer = complete.flatten ++ (front ++ truncateMsg) := by
        rw [hbuffer, show (complete ++ [front ++ [newline]]).flatten = (complete.flatten ++ front) ++ [newline] by simp,
          List.length_append, List.length_singleton, Nat.add_sub_cancel, List.take_left, List.append_assoc]
      rw [htext]
      refine wholeRecords_cutOff (fun record hrecord => h.records record (List.mem_append_left _ hrecord)) hlast ?_
      rw [List.append_assoc]
      exact List.prefix_append _ _

/-- What is proved of the loop over the lines: it has a result, and where it says so the buffer holds whole records. -/
def LeavesWholeRecords (msg : Msg D) (split : Int) (good : Option Nat) (s : Mysprintf) (sol : Option CString)
    (lines : List Bytes) : Prop :=
  ∃ code buffer, encodeLoop dt msg split good s sol = some (code, buffer) ∧
    (code = 0 ∨ code = -1 → WholeRecords msg.protocol lines code buffer)

/-- A turn of the loop goes on behind a record that fits, or leaves whole records. -/
theorem Reached.turn (hN : N ≤ intMax) (hsol : ∀ str ∈ sol, str.1.length ≤ intMax)
    (hversion : msg.protocol.version.length ≤ 6) (hfields : msg.protocol.fields ≠ []) (hvs : ShortStrings msg.values)
    (h : Reached N msg.protocol done good s)
    (hdefined : FieldsDefined dt N split sol 0 (done.flatten.length + 1 + msg.protocol.version.length) msg.values) :
    (∃ r s₃, RecordPrinted dt msg split sol s r s₃ ∧ RecordFits dt N msg split sol done.flatten.length ∧
      encodeRecord dt msg split sol good s = some (s₃, 0, false)) ∨
    ∀ rest, LeavesWholeRecords dt msg split good s sol (done ++ rest) := by
  have hmax : intMax = 2 ^ 31 - 1 := by decide
  have hversion' : msg.protocol.version.length < intMax := by omega
  obtain ⟨⟨s', e, truncated⟩, hm⟩ := (encodeRecord_some_iff dt hN hsol hversion' hvs h.holds (h.start hversion)
    h.lastGood).2 hdefined
  cases truncated with
  | true =>
    exact .inr fun rest => ⟨-1, s'.buffer, encodeLoop_truncated dt hm, fun _ =>
      h.stop dt hN hsol hversion' hfields hvs hm rest⟩
  | false =>
    by_cases he : e = 0
    · obtain rfl := he
      obtain ⟨s₁, r, h₁, h₂, h₃, -⟩ := encodeRecord_cases dt hm
      have hp : RecordPrinted dt msg split sol s r s' := ⟨⟨s₁, h₁, h₂⟩, h₃⟩
      exact .inl ⟨r, s', hp, (encodeRecord_complete_iff dt hN hsol hversion' hvs h.holds hp).1 hm, hm⟩
    · refine .inr fun rest => ⟨e, s'.buffer, encodeLoop_failed dt hm he, ?_⟩
      rintro (hcode | hcode)
      · exact absurd (Int.ofNat_eq_zero.1 hcode) he
      · omega

theorem length_drop_le {str : CString} {eol : Nat} (hline : strchr str.1 newline = some eol)
    (h : str.1.length ≤ intMax) : ∀ str' ∈ some (str.drop (eol + 1)), str'.1.length ≤ intMax := by
  intro str' hstr'
  obtain rfl := Option.some.inj hstr'
  exact Nat.le_trans (Nat.le_of_lt (CString.length_drop_lt hline)) h

/-- **The loop over the lines leaves whole records** where the sums are in range. -/
theorem LinesDefined.leavesWholeRecords (hN : N ≤ intMax) (hversion : msg.protocol.version.length ≤ 6)
    (hfields : msg.protocol.fields ≠ []) (hvs : ShortStrings msg.values) {start : Nat}
    (hdefined : LinesDefined dt N msg split start sol) :
    ∀ (done : List Bytes) (good : Option Nat) (s : Mysprintf), start = done.flatten.length →
      (∀ str ∈ sol, str.1.length ≤ intMax) → Reached N msg.protocol done good s →
      LeavesWholeRecords dt msg split good s sol (done ++ lineRecords dt msg split sol) := by
  have hmax : intMax = 2 ^ 31 - 1 := by decide
  have hversion' : msg.protocol.version.length < intMax := by omega
  -- by the way from line to line
  induction hdefined with
  | last hlast hdefined =>
    rintro done good s rfl hsol h
    rcases h.turn dt hN hsol hversion hfields hvs hdefined with ⟨r, s₃, hp, hfits, hm⟩ | hstop
    · obtain ⟨record, hrecord, hholds, hrecords, -⟩ := h.holds_next dt hN hsol hversion' hvs hp hfits
      refine ⟨0, s₃.buffer, encodeLoop_end dt hm hlast, fun _ => ⟨done ++ [record], hholds.text, hrecords, fun _ => ?_,
        fun hcode => absurd hcode (by decide)⟩⟩
      rw [lineRecords_last dt hlast, hrecord]
    · exact hstop _
  | @line start str eol hline hdefined hend hrest ih =>
    rintro done good s rfl hsol h
    rcases h.turn dt hN hsol hversion hfields hvs hdefined with ⟨r, s₃, hp, hfits, hm⟩ | hstop
    · obtain ⟨record, hrecord, hholds, hrecords, hlength⟩ := h.holds_next dt hN hsol hversion' hvs hp hfits
      have hnext : Reached N msg.protocol (done ++ [record]) (some s₃.strLength) s₃ :=
        ⟨hholds, hrecords, .inr ⟨by rw [hholds.len], by simp, by rw [hlength]; exact hend hfits⟩⟩
      have hdrop := length_drop_le hline (hsol str rfl)
      have hleaves := ih hfits (done ++ [record]) (some s₃.strLength) s₃ hlength.symm hdrop hnext
      rw [LeavesWholeRecords, encodeLoop_line dt hm hline, lineRecords_line dt hline, ← hrecord, List.append_cons]
      exact hleaves
    · exact hstop _

theorem encodeRecord_of_loop {code : Int} {buffer : Bytes}
    (h : encodeLoop dt msg split good s sol = some (code, buffer)) :
    ∃ s' e truncated, encodeRecord dt msg split sol good s = some (s', e, truncated) := by
  rw [encodeLoop, lineLoop] at h
  cases hr : encodeRecord dt msg split sol good s with
  | none =>
    rw [hr] at h
    cases h
  | some r => exact ⟨r.1, r.2.1, r.2.2, rfl⟩

theorem take_truncateMsg {k : Nat} (hpos : 0 < k) (hk : k < 7) (front text : Bytes) :
    text ++ truncateMsg.take k ≠ front ++ [newline] := by
  intro heq
  have hlast := congrArg List.getLast? heq
  have hplain : newline ∉ truncateMsg.take k := fun hmem => by
    have htake : truncateMsg.take k <+: truncateText := by
      rw [truncateMsg_eq, List.take_append_of_le_length (show k ≤ truncateText.length from Nat.le_of_lt_succ hk)]
      exact List.take_prefix k truncateText
    exact (truncateText_plain newline (htake.subset hmem)).2.2.2 rfl
  have hne : truncateMsg.take k ≠ [] := fun hnil => by
    have hlength := congrArg List.length hnil
    rw [List.length_take_of_le (show k ≤ truncateMsg.length from Nat.le_of_lt hk), List.length_nil] at hlength
    omega
  rw [List.getLast?_append, List.getLast?_concat, List.getLast?_eq_some_getLast hne, Option.some_or] at hlast
  exact hplain (Option.some.inj hlast ▸ List.getLast_mem hne)

/-- **Where the loop over the lines has a result that is no cut-off text, the sums are in range.** -/
theorem linesDefined_of_loop (hN : N ≤ intMax) (hversion : msg.protocol.version.length ≤ 6)
    (hlong : 5 ≤ msg.protocol.version.length + msg.values.length) (hne : msg.values ≠ [])
    (hvs : ShortStrings msg.values)
    {code : Int} {buffer : Bytes} (hended : code = -1 → ∃ front, buffer = front ++ [newline]) :
    ∀ (n : Nat) (sol : Option CString) (done : List Bytes) (good : Option Nat) (s : Mysprintf),
      sol.elim 0 (fun s => s.1.length) = n → (∀ str ∈ sol, str.1.length ≤ intMax) → Reached N msg.protocol done good s →
      encodeLoop dt msg split good s sol = some (code, buffer) →
      LinesDefined dt N msg split done.flatten.length sol := by
  have hmax : intMax = 2 ^ 31 - 1 := by decide
  have hversion' : msg.protocol.version.length < intMax := by omega
  -- by the length of what is left of the split field
  intro n
  induction n using Nat.strong_induction_on with | _ n ih => ?_
  intro sol done good s hn hsol h hloop
  obtain ⟨s', e, truncated, hm⟩ := encodeRecord_of_loop dt hloop
  have hdefined := (encodeRecord_some_iff dt hN hsol hversion' hvs h.holds (h.start hversion) h.lastGood).1 ⟨_, hm⟩
  obtain ⟨r, s₃, hp⟩ := recordPrinted_of_some dt hm
  cases hlast : eolOf sol with
  | none => exact .last hlast hdefined
  | some eol =>
    obtain ⟨str, rfl, hline, -⟩ := eolOf_eq_some hlast
    have hdrop := length_drop_le hline (hsol str rfl)
    -- behind a record that fits the loop goes on
    have next : RecordFits dt N msg split (some str) done.flatten.length →
        recordEnd dt msg split (some str) done.flatten.length + 7 ≤ intMax ∧
          LinesDefined dt N msg split (recordEnd dt msg split (some str) done.flatten.length)
            (some (str.drop (eol + 1))) := by
      intro hfits
      obtain ⟨record, -, hholds, hrecords, hlength⟩ := h.holds_next dt hN hsol hversion' hvs hp hfits
      have hrest := hloop
      rw [encodeLoop_line dt ((encodeRecord_complete_iff dt hN hsol hversion' hvs h.holds hp).2 hfits) hline,
        hholds.len] at hrest
      have hend : recordEnd dt msg split (some str) done.flatten.length + 7 ≤ intMax := by
        by_contra hlate
        obtain ⟨s₄, e₄, truncated₄, hm₄⟩ := encodeRecord_of_loop dt hrest
        obtain ⟨rfl, k, hpos, hk, hbuffer⟩ := encodeRecord_late dt hN hdrop hversion' hvs hlong hne hholds
          (flatten_pos hrecords (by simp)) (by omega) hm₄
        have hcode := (encodeLoop_truncated dt hm₄).symm.trans hrest
        obtain ⟨rfl, rfl⟩ := Prod.mk.inj (Option.some.inj hcode)
        obtain ⟨front, hfront⟩ := hended rfl
        exact take_truncateMsg hpos hk front _ (hbuffer.symm.trans hfront)
      refine ⟨hend, ?_⟩
      rw [← hlength]
      exact ih _ (hn ▸ CString.length_drop_lt hline) (some (str.drop (eol + 1))) (done ++ [record]) _ s₃ rfl hdrop
        ⟨hholds, hrecords, .inr ⟨rfl, by simp, by rw [hlength]; exact hend⟩⟩ hrest
    exact .line hline hdefined (fun hfits => (next hfits).1) fun hfits => (next hfits).2

/-! ## Short texts -/

theorem length_printed_le (split : Int) {n : Nat} (i : Nat) {v : FieldValue D} (hv : (valueText dt v).length ≤ n)
    (hsol : ∀ str ∈ sol, str.1.length ≤ n) : (printed dt split sol i v).length ≤ n := by
  cases v with
  | int v => cases v with
    | none => exact Nat.zero_le n
    | some k => exact hv
  | double v => cases v with
    | none => exact Nat.zero_le n
    | some d => exact hv
  | string v => cases v with
    | none => exact Nat.zero_le n
    | some v =>
      simp only [printed]
      split
      · cases sol with
        | none => exact Nat.zero_le n
        | some str => exact hsol str rfl
      · rwa [valueText, List.length_map] at hv

theorem fieldsDefined_of_short (split : Int) {n : Nat} (hroom : N + n ≤ intMax) (hsol : ∀ str ∈ sol, str.1.length ≤ n) :
    ∀ (vs : List (FieldValue D)) (i position : Nat), (∀ v ∈ vs, (valueText dt v).length ≤ n) →
      FieldsDefined dt N split sol i position vs
  | [], _, _, _ => trivial
  | v :: vs, i, position, hvs => fun hlt => by
    have hprinted := length_printed_le dt split i (hvs v List.mem_cons_self) hsol
    exact ⟨.inr (by omega),
      fieldsDefined_of_short split hroom hsol vs (i + 1) _ fun w hw => hvs w (List.mem_cons_of_mem _ hw)⟩

/-- **The sums are in range** when the buffer and a text together are. -/
theorem linesDefined_of_short {n : Nat} (hroom : N + n ≤ intMax) (hN : N + 7 ≤ intMax)
    (hvs : ∀ v ∈ msg.values, (valueText dt v).length ≤ n) :
    ∀ (m : Nat) (sol : Option CString) (start : Nat), sol.elim 0 (fun s => s.1.length) = m →
      (∀ str ∈ sol, str.1.length ≤ n) → LinesDefined dt N msg split start sol := by
  -- by the length of what is left of the split field
  intro m
  induction m using Nat.strong_induction_on with | _ m ih => ?_
  intro sol start hm hsol
  have hfields := fieldsDefined_of_short dt split hroom hsol msg.values 0
    (start + 1 + msg.protocol.version.length) hvs
  cases hlast : eolOf sol with
  | none => exact .last hlast hfields
  | some eol =>
    obtain ⟨str, rfl, hline, -⟩ := eolOf_eq_some hlast
    refine .line hline hfields (fun hfits => ?_) fun _ => ?_
    · have hend := hfits.1
      omega
    · refine ih _ (hm ▸ CString.length_drop_lt hline) (some (str.drop (eol + 1))) _ rfl fun str' hstr' => ?_
      obtain rfl := Option.some.inj hstr'
      exact Nat.le_trans (Nat.le_of_lt (CString.length_drop_lt hline)) (hsol str rfl)

/-! ## The encoder -/

/-- No field is split, or a string field. -/
def SplitIndex (p : Protocol) (split : Int) : Prop :=
  split = -1 ∨ ∃ (k : Nat) (f : FieldDef), split = k ∧ p.fields[k]? = some f ∧ f.type = .string

/-- The text of the field that is split. -/
def splitText (msg : Msg D) (split : Int) : Option CString :=
  if split = -1 then none
  else
    match msg.values[split.toNat]? with
    | some (.string v) => v.map StringValue.vString
    | _                => none

/-- The call has a result and writes to the buffer only; where it returns 0 or -1 the buffer is terminated, and holds
whole records. -/
def EncodesWholeRecords (msg : Msg D) (memory : Bytes) (bufferSize split : Int) : Prop :=
  ∃ code memory', Area.infoLogMsgEncode dt msg memory bufferSize split = some (code, memory') ∧
    memory'.length = memory.length ∧ memory'.drop bufferSize.toNat = memory.drop bufferSize.toNat ∧
    (code = 0 ∨ code = -1 → 0 ∈ memory'.take bufferSize.toNat ∧
      WholeRecords msg.protocol (lineRecords dt msg split (splitText msg split)) code (cStr memory'))

theorem value_of_field {k : Nat} {f : FieldDef} (h : msg.protocol.fields[k]? = some f) (hf : f.type = .string) :
    ∃ v, msg.values[k]? = some (.string v) := by
  have htyped := congrArg (fun types : List FieldType => types[k]?) msg.typed
  simp only [List.getElem?_map, h, Option.map_some, hf] at htyped
  obtain ⟨v, hv, htype⟩ := Option.map_eq_some_iff.1 htyped
  cases v with
  | string v => exact ⟨v, hv⟩
  | int v => cases htype
  | double v => cases htype

theorem SplitIndex.value (h : SplitIndex msg.protocol split) :
    split = -1 ∨ ∃ k : Nat, split = k ∧ k < msg.protocol.fields.length ∧ ∃ v, msg.values[k]? = some (.string v) := by
  rcases h with h | ⟨k, f, hk, hf, htype⟩
  · exact .inl h
  · exact .inr ⟨k, hk, (List.getElem?_eq_some_iff.1 hf).1, value_of_field hf htype⟩

theorem splitText_short (hvs : ShortStrings msg.values) : ∀ str ∈ splitText msg split, str.1.length ≤ intMax := by
  intro str hstr
  unfold splitText at hstr
  split at hstr
  · cases hstr
  · split at hstr
    · rename_i v hv
      obtain ⟨value, rfl, rfl⟩ := Option.map_eq_some_iff.1 hstr
      exact hvs value (List.mem_of_getElem? hv)
    · cases hstr

theorem infoLogMsgEncode_loop {bufferSize : Int} (hpos : 0 < bufferSize) (hsplit : SplitIndex msg.protocol split)
    (old : Bytes) : infoLogMsgEncode dt msg old bufferSize split =
      encodeLoop dt msg split none (mysprintfInit bufferSize.toNat) (splitText msg split) := by
  rw [infoLogMsgEncode, if_neg (Int.not_le.2 hpos)]
  rcases hsplit.value with rfl | ⟨k, rfl, hk, v, hv⟩
  · rfl
  · rw [if_neg (by omega), if_neg (by omega), if_neg (by omega), splitText, if_neg (by omega), Int.toNat_natCast, hv]

theorem Terminated.memory {N : Nat} {behind memory t : Bytes} (h : Terminated N behind memory t) (hnul : 0 ∉ t) :
    memory.length = N + behind.length ∧ memory.drop N = behind ∧ 0 ∈ memory.take N ∧ cStr memory = t := by
  obtain ⟨rest, rfl, hlen⟩ := h
  have hwhole : (t ++ 0 :: rest).length = N := by
    rw [List.length_append, List.length_cons]
    omega
  refine ⟨by rw [List.length_append, hwhole], ?_, ?_, ?_⟩
  · rw [← hwhole, List.drop_left]
  · rw [← hwhole, List.take_left]
    exact List.mem_append_right _ List.mem_cons_self
  · rw [List.append_assoc, List.cons_append, cStr_append_nul hnul]

/-- The call in memory agrees with the loop over the lines. -/
theorem infoLogMsgEncode_agrees (hp : msg.protocol = protocol14) (hvs : ShortStrings msg.values) {memory : Bytes}
    {bufferSize : Int} (hpos : 1 ≤ bufferSize) (hN : bufferSize ≤ intMax) (hlength : bufferSize ≤ memory.length)
    (hsplit : SplitIndex msg.protocol split) :
    Option.Rel (SameResult bufferSize.toNat (memory.drop bufferSize.toNat))
      (Area.infoLogMsgEncode dt msg memory bufferSize split)
      (encodeLoop dt msg split none (mysprintfInit bufferSize.toNat) (splitText msg split)) := by
  rw [← infoLogMsgEncode_loop dt (by omega) hsplit []]
  exact infoLogMsgEncode_shows dt (by rw [hp]; decide) (by rw [hp]; decide) hvs (by omega) hN hlength hsplit.value

/-- **Where the call does what it should, the sums are in range.** -/
theorem linesDefined_of_encodes (hp : msg.protocol = protocol14) (hvs : ShortStrings msg.values) {memory : Bytes}
    {bufferSize : Int} (hpos : 1 ≤ bufferSize) (hN : bufferSize ≤ intMax) (hlength : bufferSize ≤ memory.length)
    (hsplit : SplitIndex msg.protocol split) (h : EncodesWholeRecords dt msg memory bufferSize split) :
    LinesDefined dt bufferSize.toNat msg split 0 (splitText msg split) := by
  obtain ⟨code, memory', hencode, -, -, hwhole⟩ := h
  have hagree := infoLogMsgEncode_agrees dt hp hvs hpos hN hlength hsplit
  rw [hencode] at hagree
  obtain ⟨⟨code', buffer⟩, hloop, rfl, hshows, hnul⟩ := agree_some_left hagree
  have hvalues := msg_values_length msg
  rw [hp] at hvalues
  have hended : code = -1 → ∃ front, buffer = front ++ [newline] := by
    rintro rfl
    obtain ⟨-, records, hbuffer, -, -, hlast⟩ := hwhole (.inr rfl)
    obtain ⟨complete, last, rfl, -, front, rfl⟩ := hlast rfl
    have hstring : cStr memory' = buffer := (hshows.memory hnul).2.2.2
    rw [hstring] at hbuffer
    refine ⟨complete.flatten ++ (front ++ truncateText), ?_⟩
    rw [hbuffer, truncateMsg_eq]
    simp
  exact linesDefined_of_loop dt (by omega) (by rw [hp]; decide) (by rw [hp, hvalues]; decide)
    (fun hnil => by rw [hnil] at hvalues; cases hvalues) hvs hended _ _ [] none _ rfl (splitText_short hvs)
    (reached_init (by omega)) hloop

/-- **The buffer holds whole records, and nothing else is written, exactly when the sums are in range**: for every
message of the default protocol, every buffer, and every field that can be split. -/
theorem encodesWholeRecords_iff (hp : msg.protocol = protocol14) (hvs : ShortStrings msg.values) {memory : Bytes}
    {bufferSize : Int} (hpos : 1 ≤ bufferSize) (hN : bufferSize ≤ intMax) (hlength : bufferSize ≤ memory.length)
    (hsplit : SplitIndex msg.protocol split) :
    EncodesWholeRecords dt msg memory bufferSize split ↔
      LinesDefined dt bufferSize.toNat msg split 0 (splitText msg split) := by
  refine ⟨linesDefined_of_encodes dt hp hvs hpos hN hlength hsplit, fun hdefined => ?_⟩
  obtain ⟨code, buffer, hloop, hwhole⟩ := hdefined.leavesWholeRecords dt (by omega) (by rw [hp]; decide)
    (by rw [hp]; decide) hvs [] none (mysprintfInit bufferSize.toNat) rfl (splitText_short hvs)
      (reached_init (by omega))
  have hagree := infoLogMsgEncode_agrees dt hp hvs hpos hN hlength hsplit
  rw [hloop] at hagree
  obtain ⟨⟨code', memory'⟩, hencode, rfl, hshows, hnul⟩ := agree_some hagree
  obtain ⟨hlength', hdrop, hzero, hstring⟩ := hshows.memory hnul
  refine ⟨code', memory', hencode, ?_, hdrop, fun hcode => ⟨hzero, ?_⟩⟩
  · rw [hlength', List.length_drop]
    omega
  · rw [hstring]
    exact hwhole hcode

theorem reportMsg_short : ∀ v ∈ (reportMsg twoLines).values, (valueText wholeNumbers v).length ≤ 100 := by
  decide +kernel

/-- Two lines in a buffer with room for one. -/
theorem encodesWholeRecords_iff_two_lines :
    EncodesWholeRecords wholeNumbers (reportMsg twoLines) (List.replicate 70 1) 60 ixMessage :=
  (@encodesWholeRecords_iff Nat wholeNumbers (reportMsg twoLines) ixMessage rfl
    (fun v hv => by
      have hlength := reportMsg_short (.string (some v)) hv
      rw [valueText, List.length_map] at hlength
      exact Nat.le_trans hlength (by decide))
    (List.replicate 70 1) 60 (by decide) (by decide) (by decide)
      (.inr ⟨ixMessage, ⟨.string, "message"⟩, rfl, rfl, rfl⟩)).2
    (linesDefined_of_short wholeNumbers (n := 100) (by decide) (by decide) reportMsg_short _ _ 0 rfl
      fun str hstr => by
        obtain rfl := Option.some.inj hstr
        decide)

/-! ## The longest string -/

/-- A text of the greatest length an `int` has. -/
def longestText : CString :=
  ⟨List.replicate intMax 97, fun h => absurd (List.eq_of_mem_replicate h) (by decide)⟩

/-- Such a text is printed behind 20 bytes: the sum is no `int`. -/
theorem textMsg_not_encoded {text : CString} (hlength : text.1.length = intMax) :
    ¬ EncodesWholeRecords wholeNumbers (textMsg text) (List.replicate 100 1) 100 (-1) := by
  intro h
  have hvs : ShortStrings (textMsg text).values := fun v hv => by
    simp only [textMsg, List.mem_cons, FieldValue.string.injEq, Option.some.injEq, reduceCtorEq, List.not_mem_nil,
      or_false, false_or] at hv
    rw [hv]
    exact Nat.le_of_eq hlength
  have hdefined := linesDefined_of_encodes wholeNumbers rfl hvs (by decide) (by decide) (by decide) (.inl rfl) h
  cases hdefined with
  | last hlast hfields =>
    have hundefined : FieldsDefined wholeNumbers 100 (-1) none 0 4 (textMsg text).values := hfields
    simp [FieldsDefined, textMsg, printed, valueText, lineAt, hlength] at hundefined

/-- **The longest string is not encoded.** -/
theorem longestText_not_encoded :
    ¬ EncodesWholeRecords wholeNumbers (textMsg longestText) (List.replicate 100 1) 100 (-1) :=
  textMsg_not_encoded List.length_replicate

end Message
end Flp
