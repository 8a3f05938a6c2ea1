import FlpPrototype.Lib.Agree
import FlpPrototype.Message.Decode
import Mathlib.Data.List.Induction
/-!
# Memory — `infoLog_msg_encode` in memory

The encoder as it reads and writes bytes: the memory begins with the buffer and goes on behind it, and what would be
written where there is no memory has no result.  It shows, up to the terminator, the string `Encode` says, and leaves
what is behind the buffer as it was (`infoLogMsgEncode_shows`).
-/
namespace Flp
namespace Message

/-- `mysprintf_t`, and the memory from the buffer's first byte on. -/
structure Area where
  bufferSize : Nat
  memory : Bytes
  strLength : Nat
  isError : Bool
  deriving DecidableEq, Repr

/-! ## Bytes in memory -/

/-- Bytes written at an address. -/
def store (memory : Bytes) (address : Nat) (bytes : Bytes) : Option Bytes :=
  if address + bytes.length ≤ memory.length then
    some (memory.take address ++ bytes ++ memory.drop (address + bytes.length))
  else none

/-- `vsnprintf`: the terminator is behind what there is room for, and with no room at all nothing is written. -/
def vsnprintf (memory : Bytes) (address size : Nat) (out : Bytes) : Option Bytes :=
  if size = 0 then some memory else store memory address (out.take (size - 1) ++ [0])

/-- The loop that replaces the special characters up to the terminator. -/
def replaceString : Bytes → Option Bytes
  | []           => none
  | c :: memory =>
      if c = 0 then some (c :: memory) else (replaceString memory).map fun memory => replaceSpecial c :: memory

namespace Area

variable {D : Type} (dt : DoubleText D)

/-! ## The encoder -/

/-- `mysprintf_init`. -/
def init (memory : Bytes) (size : Nat) : Option Area :=
  (store memory 0 [0]).map fun memory => ⟨size, memory, 0, false⟩

/-- `mysprintf`; the room left is an `int` that becomes a `size_t`. -/
def mysprintf (s : Area) (out : Bytes) : Option Area :=
  if s.isError then some s
  else do
    let memory ← vsnprintf s.memory s.strLength (toUnsigned 64 ((s.bufferSize : Int) - s.strLength)) out
    let memory ← store memory (s.bufferSize - 1) [0]
    if intMax < out.length then some { s with memory, isError := true }
    else
      match intAdd out.length s.strLength with
      | none     => none
      | some len =>
        if s.bufferSize ≤ len then some { s with memory, isError := true, strLength := s.bufferSize - 1 }
        else some { s with memory, strLength := len }

def replaceFrom (s : Area) (ix : Nat) : Option Area :=
  (replaceString (s.memory.drop ix)).map fun behind => { s with memory := s.memory.take ix ++ behind }

def cutAtLine (s : Area) (ix eol : Nat) : Option Area :=
  let newl := toSigned 32 (ix + eol)
  if 0 ≤ newl ∧ newl < s.bufferSize then
    (store s.memory newl.toNat [0]).map fun memory =>
      { s with memory, strLength := newl.toNat, isError := false }
  else some s

/-- The cut, when the field is the one that is split and a newline ends its line. -/
def cutField (s : Area) (ix : Nat) : Option Nat → Option Area
  | some eol => s.cutAtLine ix eol
  | none     => some s

def encodeField (split : Int) (sol : Option CString) (i : Nat) (s : Area) : FieldValue D → Option (Option Nat × Area)
  | .string (some v) =>
    let ix := s.strLength
    match if (i : Int) = split then sol else some v.vString with
    | none     => some (some ix, s)
    | some str => do
      let s ← s.mysprintf str.1
      let s ← s.cutField ix (if (i : Int) = split then eolOf sol else none)
      (s.replaceFrom ix).map fun s => (some ix, s)
  | .int (some n)    => (s.mysprintf (printInt n.toInt)).map fun s => (none, s)
  | .double (some d) => (s.mysprintf (dt.print d)).map fun s => (none, s)
  | .string none     => some (none, s)
  | .int none        => some (none, s)
  | .double none     => some (none, s)

def encodeFields (split : Int) (sol : Option CString) :
    Nat → Option Nat → Area → List (FieldValue D) → Option (Nat × Option Nat × Area)
  | i, ix, s, []      => some (i, ix, s)
  | i, _, s, v :: vs => do
    let s ← s.mysprintf [hash]
    let (ix, s) ← encodeField dt split sol i s v
    if s.isError then some (i, ix, s) else encodeFields split sol (i + 1) ix s vs

def encodeRecord (msg : Msg D) (split : Int) (sol : Option CString) (ixLastGoodRecord : Option Nat) (s : Area) :
    Option (Area × Nat × Bool) := do
  let s ← s.mysprintf (star :: msg.protocol.version)
  let (i, ix, s) ← encodeFields dt split sol 0 none s msg.values
  let s ← s.mysprintf [newline]
  if s.isError = true ∨
    ((eolOf sol).isSome = true ∧ (s.bufferSize : Int) < toSigned 32 (s.strLength + sizeofTruncateMsg)) then
    let ixT := ixTruncateMsg msg.protocol.fields.length s.bufferSize i ix ixLastGoodRecord
    if ixT < 0 ∨ (s.bufferSize : Int) < toSigned 32 (ixT.toNat + sizeofTruncateMsg) then
      some (s, if s.isError then 296 else 287, false)
    else do
      let s ← mysprintf { s with isError := false, strLength := ixT.toNat } truncateMsg
      some (s, if s.isError then 296 else 0, true)
  else some (s, 0, false)

def encodeLoop (msg : Msg D) (split : Int) (ixLastGoodRecord : Option Nat) (s : Area) (sol : Option CString) :
    Option (Int × Bytes) :=
  lineLoop Area.strLength Area.memory (encodeRecord dt msg split) ixLastGoodRecord s sol

/-- `infoLog_msg_encode` into the first `bufferSize` bytes of a memory: the result and the memory then. -/
def infoLogMsgEncode (msg : Msg D) (memory : Bytes) (bufferSize split : Int) : Option (Int × Bytes) :=
  if bufferSize ≤ 0 then some (192, memory)
  else if split < -1 then some (193, memory)
  else if split = -1 then (init memory bufferSize.toNat).bind fun s => encodeLoop dt msg split none s none
  else if (msg.protocol.fields.length : Int) ≤ split then some (195, memory)
  else
    match msg.values[split.toNat]? with
    | some (.string v) =>
      (init memory bufferSize.toNat).bind fun s => encodeLoop dt msg split none s (v.map StringValue.vString)
    | _                => some (196, memory)

end Area

/-! ## A string in the buffer -/

/-- The buffer shows `t`: a terminator is behind it, inside the first `N` bytes. -/
def Terminated (N : Nat) (behind memory t : Bytes) : Prop :=
  ∃ rest, memory = t ++ 0 :: rest ++ behind ∧ t.length + 1 + rest.length = N

variable {N : Nat} {behind memory t : Bytes}

theorem Terminated.lt (h : Terminated N behind memory t) : t.length < N := by
  obtain ⟨rest, -, hlen⟩ := h
  omega

theorem Terminated.store_text (h : Terminated N behind memory t) {address : Nat} {out : Bytes}
    (haddress : address ≤ t.length) (hroom : address + out.length < N) :
    ∃ memory', store memory address (out ++ [0]) = some memory' ∧
      Terminated N behind memory' (t.take address ++ out) := by
  obtain ⟨rest, rfl, hlen⟩ := h
  have hwhole : (t ++ 0 :: rest).length = N := by
    rw [List.length_append, List.length_cons]
    omega
  have hend : address + (out ++ [0]).length ≤ N := by
    rw [List.length_append, List.length_singleton]
    exact hroom
  have hall : address + (out ++ [0]).length ≤ (t ++ 0 :: rest ++ behind).length := by
    rw [@List.length_append _ (t ++ 0 :: rest), hwhole]
    omega
  refine ⟨_, if_pos hall, (t ++ 0 :: rest).drop (address + (out ++ [0]).length), ?_, ?_⟩
  · rw [List.take_append_of_le_length (by omega), List.take_append_of_le_length haddress,
      List.drop_append_of_le_length (by rw [hwhole]; exact hend)]
    simp [List.append_assoc]
  · rw [List.length_append, List.length_take_of_le haddress, List.length_drop, hwhole]
    rw [List.length_append, List.length_singleton] at hend ⊢
    omega

/-- The terminator in the last byte of the buffer changes nothing of what is shown. -/
theorem Terminated.store_last (h : Terminated N behind memory t) :
    ∃ memory', store memory (N - 1) [0] = some memory' ∧ Terminated N behind memory' t := by
  obtain ⟨rest, rfl, hlen⟩ := h
  cases rest using List.reverseRecOn with
  | nil =>
    have h : Terminated N behind (t ++ [0] ++ behind) t := ⟨[], rfl, hlen⟩
    obtain ⟨memory', hstore, hshown⟩ :=
      h.store_text (show N - 1 ≤ t.length by simp only [List.length_nil] at hlen; omega)
      (show N - 1 + ([] : Bytes).length < N by simp only [List.length_nil] at hlen ⊢; omega)
    rw [List.append_nil, List.take_of_length_le (by simp only [List.length_nil] at hlen; omega)] at hshown
    exact ⟨memory', hstore, hshown⟩
  | append_singleton rest x =>
    rw [List.length_append, List.length_singleton] at hlen
    have hpre : (t ++ 0 :: rest).length = N - 1 := by
      rw [List.length_append, List.length_cons]
      omega
    have hmemory : t ++ 0 :: (rest ++ [x]) ++ behind = (t ++ 0 :: rest) ++ x :: behind := by simp
    rw [hmemory]
    have hall : N - 1 + [(0 : UInt8)].length ≤ ((t ++ 0 :: rest) ++ x :: behind).length := by
      have hpre' := hpre
      simp only [List.length_append, List.length_cons, List.length_nil] at hpre' ⊢
      omega
    refine ⟨_, if_pos hall, rest ++ [0], ?_, ?_⟩
    · rw [← hpre, List.take_left, List.length_singleton, List.drop_length_add_append]
      simp
    · rw [List.length_append, List.length_singleton]
      omega

theorem replaceString_terminated : ∀ {t : Bytes} (rest : Bytes), 0 ∉ t →
    replaceString (t ++ 0 :: rest) = some (t.map replaceSpecial ++ 0 :: rest)
  | [], rest, _ => by rw [List.nil_append, replaceString, if_pos rfl]; rfl
  | c :: t, rest, h => by
    have hc : c ≠ 0 := fun he => h (by rw [he]; exact List.mem_cons_self)
    rw [List.cons_append, replaceString, if_neg hc,
      replaceString_terminated rest fun hm => h (List.mem_cons_of_mem _ hm)]
    rfl

theorem replaceSpecial_ne_zero {c : UInt8} (h : c ≠ 0) : replaceSpecial c ≠ 0 := by
  unfold replaceSpecial
  split
  · decide
  · exact h

theorem Terminated.replace (h : Terminated N behind memory t) (hnul : 0 ∉ t) {ix : Nat} (hix : ix ≤ t.length) :
    ∃ memory', replaceString (memory.drop ix) = some memory' ∧
      Terminated N behind (memory.take ix ++ memory') (t.take ix ++ (t.drop ix).map replaceSpecial) := by
  obtain ⟨rest, rfl, hlen⟩ := h
  have hdrop : (t ++ 0 :: rest ++ behind).drop ix = t.drop ix ++ 0 :: (rest ++ behind) := by
    rw [List.append_assoc, List.drop_append_of_le_length hix]
    rfl
  rw [hdrop, replaceString_terminated _ fun hm => hnul (List.mem_of_mem_drop hm)]
  refine ⟨_, rfl, rest, ?_, ?_⟩
  · rw [List.append_assoc t, List.take_append_of_le_length hix]
    simp
  · rw [List.length_append, List.length_map, List.length_take_of_le hix, List.length_drop]
    omega

/-! ## The encoder shows the string -/

/-- An area shows what the string level says, from `base` bytes on. -/
structure Shows (N base : Nat) (behind : Bytes) (m : Area) (s : Mysprintf) : Prop where
  size : m.bufferSize = N
  size' : s.bufferSize = N
  len : m.strLength = s.strLength
  error : m.isError = s.isError
  memory : Terminated N behind m.memory s.buffer
  noNul : 0 ∉ s.buffer
  base : base ≤ s.strLength
  inside : s.strLength ≤ s.buffer.length

variable {base : Nat} {m m' : Area} {s s' : Mysprintf} {out : Bytes}

theorem toUnsigned_room {a b : Nat} (hN : a ≤ intMax) (h : b ≤ a) : toUnsigned 64 ((a : Int) - b) = a - b := by
  have hmax : intMax < 2 ^ 64 := by decide
  rw [← Int.ofNat_sub h]
  exact toUnsigned_natCast (by omega)

/-- What was printed before an error, or up to it. -/
theorem Shows.mysprintf (hN : N ≤ intMax) (h : Shows N base behind m s) (hout : 0 ∉ out) :
    Option.Rel (Shows N base behind) (m.mysprintf out) (Message.mysprintf s out) := by
  unfold Area.mysprintf Message.mysprintf
  rw [h.error]
  by_cases herr : s.isError = true
  · rw [if_pos herr, if_pos herr]
    exact .some h
  rw [if_neg herr, if_neg herr]
  have hinside := h.inside
  have hlt := h.memory.lt
  have hbase := h.base
  have hshort : s.strLength + (out.take (N - s.strLength - 1)).length < N := by
    rw [List.length_take]
    omega
  obtain ⟨memory₁, hstore₁, hshown₁⟩ := h.memory.store_text hinside hshort
  obtain ⟨memory₂, hstore₂, hshown₂⟩ := hshown₁.store_last
  have hprint : vsnprintf m.memory s.strLength (toUnsigned 64 ((N : Int) - s.strLength)) out = some memory₁ := by
    rw [toUnsigned_room hN (by omega), vsnprintf, if_neg (by omega)]
    exact hstore₁
  have hnul : 0 ∉ s.buffer.take s.strLength ++ out.take (N - s.strLength - 1) := fun hm =>
    (List.mem_append.1 hm).elim (fun hm => h.noNul (List.mem_of_mem_take hm)) fun hm => hout (List.mem_of_mem_take hm)
  have hlength : (s.buffer.take s.strLength ++ out.take (N - s.strLength - 1)).length =
      s.strLength + min (N - s.strLength - 1) out.length := by
    rw [List.length_append, List.length_take_of_le hinside, List.length_take]
  simp only [h.size, h.size', h.len, hprint, hstore₂, Option.bind_eq_bind, Option.bind_some]
  by_cases hbig : intMax < out.length
  · rw [if_pos hbig, if_pos hbig]
    refine .some ⟨rfl, rfl, rfl, rfl, hshown₂, hnul, hbase, ?_⟩
    rw [hlength]
    exact Nat.le_add_right _ _
  rw [if_neg hbig, if_neg hbig]
  cases hadd : intAdd out.length s.strLength with
  | none => exact .none
  | some len =>
    obtain ⟨rfl, -⟩ := intAdd_eq_some hadd
    simp only
    by_cases hover : N ≤ out.length + s.strLength
    · rw [if_pos hover, if_pos hover]
      refine .some ⟨rfl, rfl, rfl, rfl, hshown₂, hnul, ?_, ?_⟩
      · show base ≤ N - 1
        omega
      · rw [hlength]
        show N - 1 ≤ _
        omega
    · rw [if_neg hover, if_neg hover]
      refine .some ⟨rfl, rfl, rfl, rfl, hshown₂, hnul, ?_, ?_⟩
      · show base ≤ out.length + s.strLength
        omega
      · rw [hlength]
        show out.length + s.strLength ≤ _
        omega

theorem Shows.cutAtLine (hN : N ≤ intMax) (h : Shows N base behind m s) {ix eol : Nat} (heol : ix + eol < 2 ^ 32)
    (hbase : base ≤ ix) (hcut : min (ix + eol) (N - 1) ≤ s.buffer.length) :
    Option.Rel (Shows N base behind) (m.cutAtLine ix eol) (some (Message.cutAtLine s ix eol)) := by
  unfold Area.cutAtLine Message.cutAtLine
  simp only [h.size, h.size', toSigned_newl hN heol]
  by_cases hroom : ix + eol < N
  · have hsigned : (toSigned 32 (ix + eol)).toNat = ix + eol := by
      have hmax : intMax < 2 ^ 31 := by decide
      rw [toSigned_of_lt (by omega), Int.toNat_natCast]
    have hin : ix + eol ≤ s.buffer.length := by omega
    obtain ⟨memory', hstore, hshown⟩ := h.memory.store_text hin
      (show ix + eol + ([] : Bytes).length < N from hroom)
    rw [List.nil_append] at hstore
    rw [List.append_nil] at hshown
    rw [if_pos hroom, if_pos hroom, hsigned, hstore]
    refine .some ⟨rfl, rfl, rfl, rfl, hshown, fun hm => h.noNul (List.mem_of_mem_take hm), ?_, ?_⟩
    · exact Nat.le_trans hbase (Nat.le_add_right _ _)
    · show ix + eol ≤ (s.buffer.take (ix + eol)).length
      rw [List.length_take_of_le hin]
  · rw [if_neg hroom, if_neg hroom]
    exact .some h

theorem Shows.replaceFrom (h : Shows N base behind m s) {ix : Nat} (hix : ix ≤ s.buffer.length) :
    Option.Rel (Shows N base behind) (m.replaceFrom ix) (some (Message.replaceFrom s ix)) := by
  obtain ⟨memory', hreplace, hshown⟩ := h.memory.replace h.noNul hix
  rw [Area.replaceFrom, hreplace]
  refine .some ⟨h.size, h.size', h.len, h.error, hshown, fun hm => ?_, h.base, ?_⟩
  · rcases List.mem_append.1 hm with hm | hm
    · exact h.noNul (List.mem_of_mem_take hm)
    · obtain ⟨c, hc, hzero⟩ := List.mem_map.1 hm
      exact replaceSpecial_ne_zero (fun he => h.noNul (by rw [← he]; exact List.mem_of_mem_drop hc)) hzero
  · have hinside := h.inside
    show s.strLength ≤ (s.buffer.take ix ++ (s.buffer.drop ix).map replaceSpecial).length
    rw [List.length_append, List.length_map, List.length_take_of_le hix, List.length_drop]
    omega

/-- How far the buffer shows what was printed, and where it ends after an error. -/
theorem Shows.reaches (h : Shows N base behind m s) (herr : s.isError = true → s.strLength + 1 = N)
    (hout : out.length ≤ intMax) (hm : Message.mysprintf s out = some s') :
    min (s.strLength + out.length) (N - 1) ≤ s'.buffer.length ∧ (s'.isError = true → s'.strLength + 1 = N) := by
  have hinside := h.inside
  have hlt := h.memory.lt
  unfold Message.mysprintf at hm
  by_cases hfailed : s.isError = true
  · rw [if_pos hfailed] at hm
    obtain rfl := Option.some.inj hm
    have hend := herr hfailed
    exact ⟨by omega, herr⟩
  rw [if_neg hfailed, if_neg (Nat.not_lt_of_le hout)] at hm
  have hlength : (s.buffer.take s.strLength ++ out.take (N - s.strLength - 1)).length =
      s.strLength + min (N - s.strLength - 1) out.length := by
    rw [List.length_append, List.length_take_of_le hinside, List.length_take]
  cases hadd : intAdd out.length s.strLength with
  | none =>
    rw [hadd] at hm
    cases hm
  | some len =>
    simp only [hadd, h.size'] at hm
    by_cases hover : N ≤ len
    · rw [if_pos hover] at hm
      obtain rfl := Option.some.inj hm
      exact ⟨by rw [hlength]; omega, fun _ => Nat.sub_add_cancel (Nat.lt_of_le_of_lt (Nat.zero_le _) hlt)⟩
    · rw [if_neg hover] at hm
      obtain rfl := Option.some.inj hm
      exact ⟨by rw [hlength]; omega, fun herr' => absurd herr' hfailed⟩

/-- Results that show the same; behind a string an error leaves no room. -/
def SameField (N base : Nat) (behind : Bytes) (a : Option Nat × Area) (b : Option Nat × Mysprintf) : Prop :=
  a.1 = b.1 ∧ Shows N base behind a.2 b.2 ∧ (b.2.isError = true → b.1.isSome = true → b.2.strLength + 1 = N)

variable {D : Type} (dt : DoubleText D) {split : Int} {sol : Option CString}

/-- No string is longer than an `int` counts. -/
def ShortStrings (values : List (FieldValue D)) : Prop :=
  ∀ v, FieldValue.string (some v) ∈ values → v.vString.1.length ≤ intMax

/-- The cut of a field, on strings. -/
def cutFieldAt (s : Mysprintf) (ix : Nat) : Option Nat → Mysprintf
  | some eol => Message.cutAtLine s ix eol
  | none     => s

theorem Shows.cutField (hN : N ≤ intMax) (h : Shows N base behind m s) (herr : s.isError = true → s.strLength + 1 = N)
    {ix length : Nat} (hbase : base ≤ ix) (hix : ix < N) (hlength : length ≤ intMax)
    (hreach : min (ix + length) (N - 1) ≤ s.buffer.length) (eol : Option Nat) (heol : ∀ e ∈ eol, e < length) :
    ∃ m', m.cutField ix eol = some m' ∧ Shows N base behind m' (cutFieldAt s ix eol) ∧
      ix ≤ (cutFieldAt s ix eol).buffer.length ∧
      ((cutFieldAt s ix eol).isError = true → (cutFieldAt s ix eol).strLength + 1 = N) := by
  have hmax : intMax + intMax < 2 ^ 32 := by decide
  cases eol with
  | none => exact ⟨m, rfl, h, by simp only [cutFieldAt]; omega, herr⟩
  | some eol =>
    have hlast := heol eol rfl
    obtain ⟨m', hm', hshows⟩ := agree_some (h.cutAtLine hN (show ix + eol < 2 ^ 32 by omega) hbase (by omega))
    refine ⟨m', hm', hshows, ?_⟩
    simp only [cutFieldAt, Message.cutAtLine, h.size', toSigned_newl hN (show ix + eol < 2 ^ 32 by omega)]
    by_cases hroom : ix + eol < N
    · have hsigned : (toSigned 32 (ix + eol)).toNat = ix + eol := by
        have hmax' : intMax < 2 ^ 31 := by decide
        rw [toSigned_of_lt (by omega), Int.toNat_natCast]
      rw [if_pos hroom, hsigned, List.length_take_of_le (by omega)]
      exact ⟨Nat.le_add_right _ _, fun hfalse => absurd hfalse Bool.false_ne_true⟩
    · rw [if_neg hroom]
      exact ⟨by omega, herr⟩

/-- **A string field**: printed, cut at the end of its line, and the special characters replaced. -/
theorem Shows.string (hN : N ≤ intMax) (h : Shows N base behind m s) (herr : s.isError = true → s.strLength + 1 = N)
    (str : CString) (hstr : str.1.length ≤ intMax) (eol : Option Nat) (heol : ∀ e ∈ eol, e < str.1.length) :
    Option.Rel (SameField N base behind)
      ((m.mysprintf str.1).bind fun a =>
        (a.cutField s.strLength eol).bind fun a => (a.replaceFrom s.strLength).map fun a => (some s.strLength, a))
      ((Message.mysprintf s str.1).map fun b =>
        (some s.strLength, Message.replaceFrom (cutFieldAt b s.strLength eol) s.strLength)) := by
  have hlt := h.memory.lt
  have hinside := h.inside
  rw [Option.map_eq_bind]
  refine agree_bind (h.mysprintf hN str.2) fun a b _ hb hab => ?_
  obtain ⟨hreach, hend⟩ := h.reaches herr hstr hb
  obtain ⟨a', ha', hcut, hix, hend'⟩ := hab.cutField hN hend h.base (by omega) hstr hreach eol heol
  obtain ⟨a'', ha'', hreplaced⟩ := agree_some (hcut.replaceFrom hix)
  rw [ha', Option.bind_some, ha'']
  exact .some ⟨rfl, hreplaced, fun herr' _ => hend' herr'⟩

theorem eolOf_lt {sol : Option CString} {eol : Nat} (h : eolOf sol = some eol) : ∃ str ∈ sol, eol < str.1.length := by
  obtain ⟨str, rfl, hs, -⟩ := eolOf_eq_some h
  obtain ⟨heq, -, hlen⟩ := strchr_eq_some hs
  have hlt := congrArg List.length heq
  rw [List.length_append, List.length_cons] at hlt
  exact ⟨str, rfl, by omega⟩

/-- **A field.** -/
theorem Shows.field (hN : N ≤ intMax) (h : Shows N base behind m s) (herr : s.isError = true → s.strLength + 1 = N)
    {v : FieldValue D} (hv : ShortStrings [v]) (hsol : ∀ str ∈ sol, str.1.length ≤ intMax) (i : Nat) :
    Option.Rel (SameField N base behind) (Area.encodeField dt split sol i m v)
      (Message.encodeField dt split sol i s v) := by
  have number : ∀ out : Bytes, 0 ∉ out → Option.Rel (SameField N base behind)
      ((m.mysprintf out).map fun a => (none, a)) ((Message.mysprintf s out).map fun b => (none, b)) := fun out hout =>
    agree_map (h.mysprintf hN hout) fun a b _ _ hab => ⟨rfl, hab, fun _ hnone => absurd hnone Bool.false_ne_true⟩
  have nothing : Option.Rel (SameField N base behind) (some (none, m)) (some (none, s)) :=
    .some ⟨rfl, h, fun _ hnone => absurd hnone Bool.false_ne_true⟩
  have hplain := fun hzero => (valueText_plain dt v 0 hzero).1 rfl
  cases v with
  | int v => cases v with
    | none => exact nothing
    | some n => exact number _ hplain
  | double v => cases v with
    | none => exact nothing
    | some d => exact number _ hplain
  | string v => cases v with
    | none => exact nothing
    | some v =>
      simp only [Area.encodeField, Message.encodeField, h.len]
      by_cases hi : (i : Int) = split
      · simp only [if_pos hi]
        cases sol with
        | none => exact .some ⟨rfl, h, fun herr' _ => herr herr'⟩
        | some str =>
          have hstring := h.string hN herr str (hsol str rfl) (eolOf (some str)) fun e he => by
            obtain ⟨str', hstr', hlt⟩ := eolOf_lt he
            obtain rfl := Option.some.inj hstr'
            exact hlt
          cases he : eolOf (some str) with
          | none =>
            rw [he] at hstring
            exact hstring
          | some eol =>
            rw [he] at hstring
            exact hstring
      · simp only [if_neg hi]
        exact h.string hN herr v.vString (hv v List.mem_cons_self) none fun e he => by cases he

/-- What the loop over the fields gives; behind a string an error leaves no room. -/
def SameFields (N base : Nat) (behind : Bytes) (a : Nat × Option Nat × Area) (b : Nat × Option Nat × Mysprintf) :
    Prop :=
  a.1 = b.1 ∧ SameField N base behind a.2 b.2

/-- **The fields.** -/
theorem Shows.fields (hN : N ≤ intMax) (hsol : ∀ str ∈ sol, str.1.length ≤ intMax) :
    ∀ (vs : List (FieldValue D)) (i : Nat) (ix : Option Nat) (m : Area) (s : Mysprintf), ShortStrings vs →
      Shows N base behind m s → (s.isError = true → s.strLength + 1 = N) →
      Option.Rel (SameFields N base behind) (Area.encodeFields dt split sol i ix m vs)
        (Message.encodeFields dt split sol i ix s vs)
  | [], i, ix, m, s, _, h, herr => .some ⟨rfl, rfl, h, fun herr' _ => herr herr'⟩
  | v :: vs, i, ix, m, s, hvs, h, herr => by
    refine agree_bind (h.mysprintf hN (by decide)) fun a b _ hb hab => ?_
    have hend := (h.reaches herr (by decide) hb).2
    have hv : ShortStrings [v] := fun x hx => hvs x (by rw [List.mem_singleton.1 hx]; exact List.mem_cons_self)
    refine agree_bind (hab.field dt hN hend hv hsol i) fun r r' _ _ hsame => ?_
    obtain ⟨ix, a⟩ := r
    obtain ⟨ix', b⟩ := r'
    obtain ⟨rfl, hab, hend⟩ := hsame
    have herror : a.isError = b.isError := hab.error
    simp only [herror]
    by_cases herr' : b.isError = true
    · rw [if_pos herr', if_pos herr']
      exact .some ⟨rfl, rfl, hab, hend⟩
    · rw [if_neg herr', if_neg herr']
      exact Shows.fields hN hsol vs (i + 1) ix a b (fun x hx => hvs x (List.mem_cons_of_mem _ hx)) hab
        fun hfalse => absurd hfalse herr'

/-- Where the text goes that ends a record cut off: in what the buffer shows. -/
theorem ixTruncateMsg_le {numberOfFields i : Nat} {ix good : Option Nat} (hgood : ∀ g ∈ good, g ≤ s.buffer.length)
    (hix : ix.isSome = true → N < s.buffer.length + sizeofTruncateMsg) :
    (ixTruncateMsg numberOfFields N i ix good).toNat ≤ s.buffer.length := by
  have hlast : ∀ x : Int, x = -1 ∨ (ix.isSome = true ∧ x = (N : Int) - sizeofTruncateMsg) → x.toNat ≤ s.buffer.length ∧
      ∀ g ∈ good, (if x < 0 then (g : Int) - 1 else x).toNat ≤ s.buffer.length := by
    intro x hx
    have hle : x.toNat ≤ s.buffer.length := by
      rcases hx with rfl | ⟨hsome, rfl⟩
      · exact Nat.zero_le _
      · have hroom := hix hsome
        omega
    refine ⟨hle, fun g hg => ?_⟩
    have hlength := hgood g hg
    split <;> omega
  unfold ixTruncateMsg
  cases ix with
  | none => cases good with
    | none => exact (hlast (-1) (.inl rfl)).1
    | some g => exact (hlast (-1) (.inl rfl)).2 g rfl
  | some x =>
    have hx : ∀ p : Prop, [Decidable p] → (if p then (N : Int) - sizeofTruncateMsg else -1) = -1 ∨
        ((some x).isSome = true ∧
          (if p then (N : Int) - sizeofTruncateMsg else -1) = (N : Int) - sizeofTruncateMsg) := by
      intro p _
      split
      · exact .inr ⟨rfl, rfl⟩
      · exact .inl rfl
    cases good with
    | none => exact (hlast _ (hx _)).1
    | some g => exact (hlast _ (hx _)).2 g rfl

theorem Area.encodeLoop_line {msg : Msg D} {str : CString} {e : Nat} {good : Option Nat}
    (hr : Area.encodeRecord dt msg split (some str) good m = some (m', 0, false))
    (h : strchr str.1 newline = some e) :
    Area.encodeLoop dt msg split good m (some str) =
      Area.encodeLoop dt msg split (some m'.strLength) m' (some (str.drop (e + 1))) := lineLoop_line hr h

theorem Area.encodeLoop_last {msg : Msg D} {str : CString} {good : Option Nat}
    (hr : Area.encodeRecord dt msg split (some str) good m = some (m', 0, false)) (h : strchr str.1 newline = none) :
    Area.encodeLoop dt msg split good m (some str) = some (0, m'.memory) := lineLoop_last hr h

/-- What a turn of the loop over the lines gives. -/
def SameRecord (N : Nat) (behind : Bytes) (a : Area × Nat × Bool) (b : Mysprintf × Nat × Bool) : Prop :=
  a.2 = b.2 ∧ Shows N 0 behind a.1 b.1

theorem Shows.rebase (h : Shows N base behind m s) {base' : Nat} (hbase : base' ≤ s.strLength) :
    Shows N base' behind m s :=
  ⟨h.size, h.size', h.len, h.error, h.memory, h.noNul, hbase, h.inside⟩

/-- **A record.** -/
theorem Shows.record (split : Int) (hN : N ≤ intMax) {msg : Msg D} (hversion : 0 ∉ msg.protocol.version)
    (hv : msg.protocol.version.length < intMax) (hvs : ShortStrings msg.values)
    (hsol : ∀ str ∈ sol, str.1.length ≤ intMax) {good : Option Nat} (hgood : ∀ g ∈ good, g ≤ s.strLength)
    (h : Shows N 0 behind m s) (hok : s.isError = false) :
    Option.Rel (SameRecord N behind) (Area.encodeRecord dt msg split sol good m)
      (Message.encodeRecord dt msg split sol good s) := by
  have h := h.rebase (Nat.le_refl s.strLength)
  have hnul : 0 ∉ star :: msg.protocol.version := fun hm => by
    rcases List.mem_cons.1 hm with hm | hm
    · exact absurd hm (by decide)
    · exact hversion hm
  refine agree_bind (h.mysprintf hN hnul) fun a b _ hb hab => ?_
  have hend := (h.reaches (fun hfailed => by rw [hok] at hfailed; cases hfailed)
    (by rw [List.length_cons]; exact hv) hb).2
  refine agree_bind (hab.fields dt hN hsol msg.values 0 none a b hvs hend) fun r r' _ _ hsame => ?_
  obtain ⟨i, ix, a⟩ := r
  obtain ⟨i', ix', b⟩ := r'
  obtain ⟨rfl, rfl, hab, hix⟩ := hsame
  replace hab : Shows N s.strLength behind a b := hab
  replace hix : b.isError = true → ix.isSome = true → b.strLength + 1 = N := hix
  refine agree_bind (hab.mysprintf hN (by decide)) fun a' b' _ hb' hab' => ?_
  have hinside := hab'.inside
  have hbase := hab'.base
  simp only [hab'.size, hab'.size', hab'.len, hab'.error]
  by_cases hcut :
    b'.isError = true ∨ ((eolOf sol).isSome = true ∧ (N : Int) < toSigned 32 (b'.strLength + sizeofTruncateMsg))
  · rw [if_pos hcut, if_pos hcut]
    have hroom : ix.isSome = true → N < b'.buffer.length + sizeofTruncateMsg := by
      intro hsome
      have hsizeof : sizeofTruncateMsg = 8 := rfl
      rcases hcut with hfailed | ⟨-, hover⟩
      · -- the error came with a field, or with the newline
        by_cases hbefore : b.isError = true
        · rw [mysprintf_failed hbefore] at hb'
          obtain rfl := Option.some.inj hb'
          have hlast := hix hbefore hsome
          omega
        · have hlast := (hab.reaches (fun hfailed => absurd hfailed hbefore) (by decide) hb').2 hfailed
          omega
      · have := toSigned_le 32 (b'.strLength + sizeofTruncateMsg)
        omega
    have hle : (ixTruncateMsg msg.protocol.fields.length N i ix good).toNat ≤ b'.buffer.length :=
      ixTruncateMsg_le (fun g hg => Nat.le_trans (hgood g hg) (Nat.le_trans hbase hinside)) hroom
    split
    · exact .some ⟨rfl, hab'.rebase (Nat.zero_le _)⟩
    · have hset : Shows N 0 behind
          { a' with isError := false, strLength := (ixTruncateMsg msg.protocol.fields.length N i ix good).toNat }
          { b' with isError := false, strLength := (ixTruncateMsg msg.protocol.fields.length N i ix good).toNat } :=
        ⟨hab'.size, hab'.size', rfl, rfl, hab'.memory, hab'.noNul, Nat.zero_le _, hle⟩
      rw [hab'.size, hab'.size'] at hset
      refine agree_bind (hset.mysprintf hN (by decide)) fun a'' b'' _ _ hab'' => ?_
      rw [hab''.error]
      exact .some ⟨rfl, hab''⟩
  · rw [if_neg hcut, if_neg hcut]
    exact .some ⟨rfl, hab'.rebase (Nat.zero_le _)⟩

/-- A result, and a memory that shows the string. -/
def SameResult (N : Nat) (behind : Bytes) (a b : Int × Bytes) : Prop :=
  a.1 = b.1 ∧ Terminated N behind a.2 b.2 ∧ 0 ∉ b.2

/-- **The loop over the lines.** -/
theorem Shows.loop (hN : N ≤ intMax) {msg : Msg D} (hversion : 0 ∉ msg.protocol.version)
    (hv : msg.protocol.version.length < intMax) (hvs : ShortStrings msg.values) :
    ∀ (n : Nat) (sol : Option CString) (good : Option Nat) (m : Area) (s : Mysprintf),
      sol.elim 0 (fun s => s.1.length) = n → (∀ str ∈ sol, str.1.length ≤ intMax) → (∀ g ∈ good, g ≤ s.strLength) →
      Shows N 0 behind m s → s.isError = false →
      Option.Rel (SameResult N behind) (Area.encodeLoop dt msg split good m sol)
        (Message.encodeLoop dt msg split good s sol) := by
  -- by the length of what is left of the split field
  intro n
  induction n using Nat.strong_induction_on with | _ n ih => ?_
  intro sol good m s hn hsol hgood h hok
  have hrecord := h.record dt split hN hversion hv hvs hsol hgood hok
  cases hm : Area.encodeRecord dt msg split sol good m with
  | none =>
    rw [hm] at hrecord
    cases hs : Message.encodeRecord dt msg split sol good s with
    | none =>
      rw [Area.encodeLoop, lineLoop, hm, Message.encodeLoop, lineLoop, hs]
      exact .none
    | some r =>
      rw [hs] at hrecord
      cases hrecord
  | some r =>
    rw [hm] at hrecord
    obtain ⟨r', hs, hsame⟩ := agree_some_left hrecord
    obtain ⟨m', isError, truncated⟩ := r
    obtain ⟨s', isError', truncated'⟩ := r'
    obtain ⟨hflags, hshows⟩ := hsame
    obtain ⟨rfl, rfl⟩ := Prod.mk.inj hflags
    replace hshows : Shows N 0 behind m' s' := hshows
    have hshown : ∀ code : Int, SameResult N behind (code, m'.memory) (code, s'.buffer) := fun code =>
      ⟨rfl, hshows.memory, hshows.noNul⟩
    cases truncated with
    | true =>
      rw [Area.encodeLoop, lineLoop, hm, Message.encodeLoop, lineLoop, hs]
      exact .some (hshown (-1))
    | false =>
      by_cases herr : isError = 0
      · obtain rfl := herr
        cases sol with
        | none =>
          rw [Area.encodeLoop, lineLoop, hm, Message.encodeLoop, lineLoop, hs]
          exact .some (hshown 0)
        | some str =>
          cases heol : strchr str.1 newline with
          | none =>
            rw [Area.encodeLoop_last dt hm heol, Message.encodeLoop_last dt hs heol]
            exact .some (hshown 0)
          | some eol =>
            obtain ⟨_, _, _, _, _, hok'⟩ := encodeRecord_cases dt hs
            rw [Area.encodeLoop_line dt hm heol, Message.encodeLoop_line dt hs heol, hshows.len]
            refine ih _ (hn ▸ CString.length_drop_lt heol) (some (str.drop (eol + 1))) _ m' s' rfl ?_
              (fun g hg => Nat.le_of_eq (Option.some.inj hg).symm) hshows hok'
            intro str' hstr'
            obtain rfl := Option.some.inj hstr'
            exact Nat.le_trans (Nat.le_of_lt (CString.length_drop_lt heol)) (hsol str rfl)
      · rw [Area.encodeLoop, lineLoop, hm, Message.encodeLoop, lineLoop, hs]
        simp only [Bool.false_eq_true, if_false, ne_eq, herr, not_false_eq_true, if_true]
        exact .some (hshown isError)

theorem shows_init (hpos : 0 < N) {memory : Bytes} (hlength : N ≤ memory.length) :
    ∃ m, Area.init memory N = some m ∧ Shows N 0 (memory.drop N) m (mysprintfInit N) := by
  have hstore : store memory 0 [0] = some (0 :: memory.drop 1) := by
    rw [store, if_pos (by rw [List.length_singleton]; omega)]
    rfl
  rw [Area.init, hstore]
  refine ⟨_, rfl, rfl, rfl, rfl, rfl, ⟨(memory.take N).drop 1, ?_, ?_⟩, List.not_mem_nil, Nat.le_refl _, Nat.le_refl _⟩
  · have hwhole : memory.drop 1 = (memory.take N).drop 1 ++ memory.drop N := by
      rw [← List.drop_append_of_le_length (by rw [List.length_take_of_le hlength]; exact hpos), List.take_append_drop]
    rw [hwhole]
    rfl
  · rw [List.length_drop, List.length_take_of_le hlength]
    show 0 + 1 + (N - 1) = N
    omega

/-- **The encoder in memory** has a result when the string level has one, the same, and shows the string; what is behind
the buffer stays. -/
theorem infoLogMsgEncode_shows {msg : Msg D} (hversion : 0 ∉ msg.protocol.version)
    (hv : msg.protocol.version.length < intMax) (hvs : ShortStrings msg.values) {memory old : Bytes} {bufferSize : Int}
    (hpos : 0 < bufferSize) (hN : bufferSize ≤ intMax) (hlength : bufferSize ≤ memory.length)
    (hsplit : split = -1 ∨ ∃ k : Nat, split = k ∧ k < msg.protocol.fields.length ∧
      ∃ v, msg.values[k]? = some (.string v)) :
    Option.Rel (SameResult bufferSize.toNat (memory.drop bufferSize.toNat))
      (Area.infoLogMsgEncode dt msg memory bufferSize split)
        (Message.infoLogMsgEncode dt msg old bufferSize split) := by
  obtain ⟨m, hinit, hshows⟩ := shows_init (show 0 < bufferSize.toNat by omega)
    (show bufferSize.toNat ≤ memory.length by omega)
  have loop : ∀ sol : Option CString, (∀ str ∈ sol, str.1.length ≤ intMax) →
      Option.Rel (SameResult bufferSize.toNat (memory.drop bufferSize.toNat))
        ((Area.init memory bufferSize.toNat).bind fun s => Area.encodeLoop dt msg split none s sol)
        (Message.encodeLoop dt msg split none (mysprintfInit bufferSize.toNat) sol) := by
    intro sol hsol
    rw [hinit, Option.bind_some]
    exact Shows.loop dt (by omega) hversion hv hvs _ sol none m _ rfl hsol (fun g hg => by cases hg) hshows rfl
  unfold Area.infoLogMsgEncode Message.infoLogMsgEncode
  rw [if_neg (Int.not_le.2 hpos), if_neg (Int.not_le.2 hpos)]
  rcases hsplit with rfl | ⟨k, rfl, hk, v, hvalue⟩
  · exact loop none fun str hstr => by cases hstr
  · rw [if_neg (by omega), if_neg (by omega), if_neg (by omega), if_neg (by omega), if_neg (by omega),
      if_neg (by omega), Int.toNat_natCast, hvalue]
    refine loop _ fun str hstr => ?_
    obtain ⟨value, rfl, rfl⟩ := Option.map_eq_some_iff.1 hstr
    exact hvs value (List.mem_of_getElem? hvalue)

end Message
end Flp
