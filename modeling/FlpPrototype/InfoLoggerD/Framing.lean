import FlpPrototype.Lib.Lines
import FlpPrototype.Lib.CString
/-!
# Framing — how `InfoLoggerD::doLoop` cuts a client's bytes into messages

The loop over the bytes of one `read` keeps an index `ix` from which nothing was pushed yet, and moves it only when it
pushes.  So a newline at that index is not skipped: it stays in front of what is pushed next, or is forgotten with the
chunk.  `feed` is the loop with the bytes from `ix` on in hand; it frames a chunk as the whole stream is framed exactly
when no newline is met there but as the last byte of the chunk and with an empty buffer.
-/
namespace Flp
namespace InfoLoggerD

/-- The variables of the loop: the index, `client.buffer`, the messages handed to `TR_client_send_msg`, as `c_str`
shows them. -/
structure Pushing where
  ix : Nat
  buffer : Bytes
  sent : List Bytes

/-- The body of the loop for the byte at `i`. -/
def pushStep (newData : Bytes) (s : Pushing) (i : Nat) : Pushing :=
  let endOfLine := newData[i]? = some newline
  let endOfBuffer := i + 1 = newData.length
  let nToPush := if endOfLine then i - s.ix else if endOfBuffer then i - s.ix + 1 else 0
  if nToPush = 0 then s
  else
    let buffer := s.buffer ++ (newData.drop s.ix).take nToPush
    if endOfLine then ⟨i + 1, [], s.sent ++ [cStr buffer]⟩ else ⟨i + 1, buffer, s.sent⟩

/-- The loop over what one `read` returned: the messages so far and the buffer. -/
def processRead (s : List Bytes × Bytes) (newData : Bytes) : List Bytes × Bytes :=
  let r := (List.range newData.length).foldl (pushStep newData) ⟨0, s.2, s.1⟩
  (r.sent, r.buffer)

/-- What a client's reads leave: the messages sent and the buffer. -/
def received (chunks : List Bytes) : List Bytes × Bytes := chunks.foldl processRead ([], [])

/-- The framing of a stream: its non-empty lines, and the bytes after the last newline. -/
def frame (stream : Bytes) : List Bytes × Bytes :=
  ((cutLines newline stream).1.filter (fun l => decide (l ≠ [])), (cutLines newline stream).2)

/-- How a chunk may be cut off behind `before`: it starts with a newline only when it is that newline and no line is
under way; two newlines in a row end it. -/
def CutsWell (before chunk : Bytes) : Prop :=
  (∀ tail, chunk = newline :: tail → tail = [] ∧ (frame before).2 = []) ∧
  (∀ pre tail, chunk = pre ++ newline :: newline :: tail → tail = [])

def AllCutWell : Bytes → List Bytes → Prop
  | _, []           => True
  | before, c :: cs => CutsWell before c ∧ AllCutWell (before ++ c) cs

/-! ## The loop with the bytes from `ix` on in hand -/

/-- The loop over the bytes left, `pend` being those from `ix` on already passed; messages are kept whole. -/
def feed : Bytes → Bytes → List Bytes × Bytes → List Bytes × Bytes
  | _, [], s           => s
  | pend, c :: cs, s =>
    if c = newline then
      if pend = [] then feed [c] cs s else feed [] cs (s.1 ++ [s.2 ++ pend], [])
    else if cs = [] then (s.1, s.2 ++ (pend ++ [c])) else feed (pend ++ [c]) cs s

/-- The messages as `c_str` shows them. -/
def shown (s : List Bytes × Bytes) : List Bytes × Bytes := (s.1.map cStr, s.2)

theorem pushStep_eq (pre pend cs : Bytes) (c : UInt8) (buffer : Bytes) (sent : List Bytes) :
    pushStep (pre ++ pend ++ c :: cs) ⟨pre.length, buffer, sent⟩ (pre.length + pend.length) =
      if c = newline then
        if pend = [] then ⟨pre.length, buffer, sent⟩
        else ⟨(pre ++ pend ++ [c]).length, [], sent ++ [cStr (buffer ++ pend)]⟩
      else if cs = [] then ⟨(pre ++ pend ++ [c]).length, buffer ++ (pend ++ [c]), sent⟩
      else ⟨pre.length, buffer, sent⟩ := by
  have hget : (pre ++ pend ++ c :: cs)[pre.length + pend.length]? = some c := by
    rw [List.getElem?_append_right (by simp)]
    simp
  have hdrop : (pre ++ pend ++ c :: cs).drop pre.length = pend ++ c :: cs := by
    rw [List.append_assoc]
    exact List.drop_left' rfl
  have hlast : pre.length + pend.length + 1 = (pre ++ pend ++ c :: cs).length ↔ cs = [] := by
    rw [← List.length_eq_zero_iff]
    simp only [List.length_append, List.length_cons]
    omega
  have hlen : (pre ++ pend ++ [c]).length = pre.length + pend.length + 1 := by simp [Nat.add_assoc]
  have hpend : pend.length = 0 ↔ pend = [] := List.length_eq_zero_iff
  unfold pushStep
  simp only [hget, hdrop, hlast, hlen, Option.some.injEq, Nat.add_sub_cancel_left]
  by_cases hc : c = newline
  · simp only [hc, if_true, hpend]
    by_cases hp : pend = []
    · rw [if_pos hp, if_pos hp]
    · rw [if_neg hp, if_neg hp, List.take_left]
  · simp only [if_neg hc]
    by_cases hcs : cs = []
    · simp only [hcs, if_true, Nat.add_one_ne_zero, if_false]
      rw [List.take_of_length_le (by simp)]
    · simp only [if_neg hcs, if_true]

theorem pushStep_foldl : ∀ (rest pre pend : Bytes) (sent : List Bytes) (buffer : Bytes),
    ((List.range' (pre.length + pend.length) rest.length).foldl (pushStep (pre ++ pend ++ rest))
        ⟨pre.length, buffer, sent.map cStr⟩).sent = (shown (feed pend rest (sent, buffer))).1 ∧
      ((List.range' (pre.length + pend.length) rest.length).foldl (pushStep (pre ++ pend ++ rest))
        ⟨pre.length, buffer, sent.map cStr⟩).buffer = (shown (feed pend rest (sent, buffer))).2
  | [], _, _, _, _ => ⟨rfl, rfl⟩
  | c :: cs, pre, pend, sent, buffer => by
    rw [List.length_cons, List.range'_succ, List.foldl_cons, pushStep_eq]
    by_cases hc : c = newline
    · by_cases hp : pend = []
      · have ih := pushStep_foldl cs pre [c] sent buffer
        simp only [feed, hc, hp, if_true] at ih ⊢
        simpa using ih
      · have ih := pushStep_foldl cs (pre ++ pend ++ [c]) [] (sent ++ [buffer ++ pend]) []
        simp only [feed, hc, hp, if_true, if_false] at ih ⊢
        simpa [Nat.add_assoc] using ih
    · by_cases hcs : cs = []
      · simp [feed, hc, hcs, shown]
      · have ih := pushStep_foldl cs pre (pend ++ [c]) sent buffer
        simp only [feed, if_neg hc, if_neg hcs] at ih ⊢
        simpa [Nat.add_assoc] using ih

theorem processRead_shown (s : List Bytes × Bytes) (c : Bytes) : processRead (shown s) c = shown (feed [] c s) := by
  obtain ⟨h1, h2⟩ := pushStep_foldl c [] [] s.1 s.2
  simp only [List.length_nil, Nat.add_zero, List.nil_append, ← List.range_eq_range'] at h1 h2
  exact Prod.ext h1 h2

/-- **The reads of a client**, messages kept whole. -/
theorem received_eq (chunks : List Bytes) :
    received chunks = shown (chunks.foldl (fun s c => feed [] c s) ([], [])) := by
  have : ∀ (chunks : List Bytes) (s : List Bytes × Bytes),
      chunks.foldl processRead (shown s) = shown (chunks.foldl (fun s c => feed [] c s) s) := by
    intro chunks
    induction chunks with
    | nil => exact fun _ => rfl
    | cons c cs ih => exact fun s => by rw [List.foldl_cons, processRead_shown, ih, List.foldl_cons]
  exact this chunks ([], [])

/-! ## Chunks that are cut well -/

/-- No newline is met with nothing in hand, but the last byte when the buffer is empty. -/
def Good : Bytes → Bytes → Bytes → Prop
  | _, _, []              => True
  | buffer, pend, c :: cs =>
    if c = newline then if pend = [] then cs = [] ∧ buffer = [] else Good [] [] cs else Good buffer (pend ++ [c]) cs

theorem good_iff : ∀ (cs buffer pend : Bytes), Good buffer pend cs ↔
    (pend = [] → ∀ tail, cs = newline :: tail → tail = [] ∧ buffer = []) ∧
      (∀ pre tail, cs = pre ++ newline :: newline :: tail → tail = [])
  | [], buffer, pend => by simp [Good]
  | c :: cs, buffer, pend => by
    by_cases hc : c = newline
    · subst hc
      by_cases hp : pend = []
      · simp only [Good, hp, if_true]
        constructor
        · rintro ⟨rfl, hb⟩
          refine ⟨fun _ tail ht => ?_, fun pre tail ht => ?_⟩
          · obtain ⟨-, rfl⟩ := List.cons.inj ht
            exact ⟨rfl, hb⟩
          · have := congrArg List.length ht
            simp at this
            omega
        · exact fun h => h.1 trivial cs rfl
      · have ih := good_iff cs [] []
        simp only [Good, if_true, if_neg hp, ih]
        constructor
        · rintro ⟨h1, h2⟩
          refine ⟨fun h => absurd h hp, fun pre tail ht => ?_⟩
          cases pre with
          | nil =>
            obtain ⟨-, ht⟩ := List.cons.inj ht
            exact (h1 trivial tail ht).1
          | cons x pre =>
            obtain ⟨-, ht⟩ := List.cons.inj ht
            exact h2 pre tail ht
        · rintro ⟨-, h2⟩
          refine ⟨fun _ tail ht => ⟨h2 [] tail (by rw [ht]; rfl), trivial⟩, fun pre tail ht => ?_⟩
          exact h2 (newline :: pre) tail (by rw [ht]; rfl)
    · have ih := good_iff cs buffer (pend ++ [c])
      simp only [Good, if_neg hc, ih]
      constructor
      · rintro ⟨-, h2⟩
        refine ⟨fun _ tail ht => absurd (List.cons.inj ht).1 hc, fun pre tail ht => ?_⟩
        cases pre with
        | nil => exact absurd (List.cons.inj ht).1 hc
        | cons x pre =>
          obtain ⟨-, ht⟩ := List.cons.inj ht
          exact h2 pre tail ht
      · rintro ⟨-, h2⟩
        exact ⟨fun h => absurd h (by simp), fun pre tail ht => h2 (c :: pre) tail (by rw [ht]; rfl)⟩

theorem cutsWell_iff (before chunk : Bytes) : CutsWell before chunk ↔ Good (frame before).2 [] chunk := by
  rw [good_iff]
  exact ⟨fun h => ⟨fun _ => h.1, h.2⟩, fun h => ⟨h.1 rfl, h.2⟩⟩

/-! ## The framing, byte by byte -/

theorem frame_newline (s : Bytes) : frame (s ++ [newline]) =
    if (frame s).2 = [] then frame s else ((frame s).1 ++ [(frame s).2], []) := by
  have h : cutLines newline (s ++ [newline]) = ((cutLines newline s).1 ++ [(cutLines newline s).2], []) := by
    rw [cutLines_append_singleton, cutStep, if_pos rfl]
  unfold frame
  rw [h, List.filter_append]
  by_cases hd : (cutLines newline s).2 = []
  · simp [hd]
  · simp [hd]

theorem frame_byte (s : Bytes) {c : UInt8} (hc : c ≠ newline) :
    frame (s ++ [c]) = ((frame s).1, (frame s).2 ++ [c]) := by
  have h : cutLines newline (s ++ [c]) = ((cutLines newline s).1, (cutLines newline s).2 ++ [c]) := by
    rw [cutLines_append_singleton, cutStep, if_neg hc]
  unfold frame
  rw [h]

/-- **A chunk cut well is framed as the stream is.** -/
theorem feed_good : ∀ (cs pend before buffer : Bytes) (sent : List Bytes), frame before = (sent, buffer ++ pend) →
    (cs = [] → pend = []) → Good buffer pend cs → feed pend cs (sent, buffer) = frame (before ++ cs)
  | [], pend, before, buffer, sent, hf, hp, _ => by
    rw [feed, List.append_nil, hf, hp rfl, List.append_nil]
  | c :: cs, pend, before, buffer, sent, hf, _, hg => by
    rw [show before ++ c :: cs = before ++ [c] ++ cs by simp]
    by_cases hc : c = newline
    · subst hc
      by_cases hp : pend = []
      · simp only [Good, hp, if_true] at hg
        obtain ⟨rfl, rfl⟩ := hg
        rw [feed, if_pos rfl, if_pos hp, feed, List.append_nil, frame_newline, hf, hp]
        rfl
      · simp only [Good, if_true, if_neg hp] at hg
        rw [feed, if_pos rfl, if_neg hp]
        refine feed_good cs [] _ [] _ ?_ (fun _ => rfl) hg
        rw [frame_newline, hf, if_neg (by simp [hp])]
        rfl
    · simp only [Good, if_neg hc] at hg
      have hf' : frame (before ++ [c]) = (sent, buffer ++ (pend ++ [c])) := by
        rw [frame_byte _ hc, hf, List.append_assoc]
      rw [feed, if_neg hc]
      by_cases hcs : cs = []
      · rw [if_pos hcs, hcs, List.append_nil, hf']
      · rw [if_neg hcs]
        exact feed_good cs _ _ _ _ hf' (fun h => absurd h hcs) hg

/-! ## Chunks that are not -/

/-- A newline is in what was pushed. -/
def Pushed (s : List Bytes × Bytes) : Prop := newline ∈ s.2 ∨ ∃ m ∈ s.1, newline ∈ m

/-- A newline in hand is pushed with the next byte; one pushed stays. -/
theorem feed_pushed : ∀ (cs pend : Bytes) (s : List Bytes × Bytes), Pushed s ∨ (newline ∈ pend ∧ cs ≠ []) →
    Pushed (feed pend cs s)
  | [], pend, s, h => by
    rcases h with h | ⟨-, h⟩
    · exact h
    · exact absurd rfl h
  | c :: cs, pend, s, h => by
    rw [feed]
    by_cases hc : c = newline
    · rw [if_pos hc]
      by_cases hp : pend = []
      · rw [if_pos hp]
        refine feed_pushed cs [c] s (.inl ?_)
        rcases h with h | ⟨h, -⟩
        · exact h
        · rw [hp] at h
          cases h
      · rw [if_neg hp]
        refine feed_pushed cs [] _ (.inl (.inr ?_))
        rcases h with (h | ⟨m, hm, hnl⟩) | ⟨h, -⟩
        · exact ⟨s.2 ++ pend, by simp, List.mem_append_left _ h⟩
        · exact ⟨m, List.mem_append_left _ hm, hnl⟩
        · exact ⟨s.2 ++ pend, by simp, List.mem_append_right _ h⟩
    · rw [if_neg hc]
      by_cases hcs : cs = []
      · rw [if_pos hcs]
        rcases h with (h | h) | ⟨h, -⟩
        · exact .inl (List.mem_append_left _ h)
        · exact .inr h
        · exact .inl (by simp [h])
      · rw [if_neg hcs]
        refine feed_pushed cs _ s ?_
        rcases h with h | ⟨h, -⟩
        · exact .inl h
        · exact .inr ⟨List.mem_append_left _ h, hcs⟩

/-- A line was lost. -/
def Behind (s : List Bytes × Bytes) (before : Bytes) : Prop := Pushed s ∨ s.1.length < (frame before).1.length

theorem feed_behind : ∀ (cs pend before : Bytes) (s : List Bytes × Bytes), s.1.length < (frame before).1.length →
    (pend ≠ [] → (frame before).2 ≠ []) → Behind (feed pend cs s) (before ++ cs)
  | [], pend, before, s, h, _ => .inr (by rw [feed, List.append_nil]; exact h)
  | c :: cs, pend, before, s, h, hp => by
    rw [show before ++ c :: cs = before ++ [c] ++ cs by simp, feed]
    by_cases hc : c = newline
    · subst hc
      have hgrow : (frame before).1.length ≤ (frame (before ++ [newline])).1.length := by
        rw [frame_newline]
        split <;> simp
      rw [if_pos rfl]
      by_cases hpend : pend = []
      · rw [if_pos hpend]
        by_cases hcs : cs = []
        · rw [hcs, feed, List.append_nil]
          exact .inr (Nat.lt_of_lt_of_le h hgrow)
        · exact .inl (feed_pushed cs [newline] s (.inr ⟨by simp, hcs⟩))
      · rw [if_neg hpend]
        refine feed_behind cs [] _ _ ?_ (fun hn => absurd rfl hn)
        rw [frame_newline, if_neg (hp hpend)]
        simpa using h
    · have hsame : (frame (before ++ [c])).1 = (frame before).1 := by rw [frame_byte _ hc]
      rw [if_neg hc]
      by_cases hcs : cs = []
      · rw [if_pos hcs, hcs, List.append_nil]
        exact .inr (by rw [hsame]; exact h)
      · rw [if_neg hcs]
        refine feed_behind cs _ _ s (by rw [hsame]; exact h) (fun _ => ?_)
        rw [frame_byte _ hc]
        simp

/-- **A chunk that is not cut well** loses a line or pushes a newline. -/
theorem feed_not_good : ∀ (cs pend before buffer : Bytes) (sent : List Bytes),
    frame before = (sent, buffer ++ pend) → ¬ Good buffer pend cs → Behind (feed pend cs (sent, buffer)) (before ++ cs)
  | [], _, _, _, _, _, hg => absurd trivial hg
  | c :: cs, pend, before, buffer, sent, hf, hg => by
    rw [show before ++ c :: cs = before ++ [c] ++ cs by simp, feed]
    by_cases hc : c = newline
    · subst hc
      rw [if_pos rfl]
      by_cases hp : pend = []
      · rw [if_pos hp]
        by_cases hcs : cs = []
        · have hb : buffer ≠ [] := fun hb => hg (by simp [Good, hp, hcs, hb])
          rw [hcs, feed, List.append_nil, Behind, frame_newline, hf, if_neg (by simp [hb])]
          exact .inr (by simp)
        · exact .inl (feed_pushed cs [newline] _ (.inr ⟨by simp, hcs⟩))
      · simp only [Good, if_true, if_neg hp] at hg
        rw [if_neg hp]
        refine feed_not_good cs [] _ [] _ ?_ hg
        rw [frame_newline, hf, if_neg (by simp [hp])]
        rfl
    · simp only [Good, if_neg hc] at hg
      rw [if_neg hc]
      by_cases hcs : cs = []
      · rw [hcs] at hg
        exact absurd trivial hg
      · rw [if_neg hcs]
        refine feed_not_good cs _ _ _ _ ?_ hg
        rw [frame_byte _ hc, hf, List.append_assoc]

theorem feed_still_behind {s : List Bytes × Bytes} {before : Bytes} (h : Behind s before) (c : Bytes) :
    Behind (feed [] c s) (before ++ c) := by
  rcases h with h | h
  · exact .inl (feed_pushed c [] s (.inl h))
  · exact feed_behind c [] before s h (fun hn => absurd rfl hn)

/-! ## What is sent holds no NUL -/

/-- The bytes of a message come before a newline of the stream. -/
def FromLines (stream m : Bytes) : Prop := ∃ s, s ++ [newline] <+: stream ∧ ∀ y ∈ m, y ∈ s

theorem feed_fromLines : ∀ (cs pend before : Bytes) (s : List Bytes × Bytes),
    (∀ m ∈ s.1, FromLines before m) → (∀ y ∈ s.2 ++ pend, y ∈ before) →
    (∀ m ∈ (feed pend cs s).1, FromLines (before ++ cs) m) ∧ ∀ y ∈ (feed pend cs s).2, y ∈ before ++ cs
  | [], pend, before, s, hm, hb => by
    rw [feed, List.append_nil]
    exact ⟨hm, fun y hy => hb y (List.mem_append_left _ hy)⟩
  | c :: cs, pend, before, s, hm, hb => by
    have hm' : ∀ m ∈ s.1, FromLines (before ++ [c]) m := fun m hmem => by
      obtain ⟨x, hx, hy⟩ := hm m hmem
      exact ⟨x, hx.trans (List.prefix_append _ _), hy⟩
    rw [show before ++ c :: cs = before ++ [c] ++ cs by simp, feed]
    by_cases hc : c = newline
    · subst hc
      rw [if_pos rfl]
      by_cases hp : pend = []
      · rw [if_pos hp]
        refine feed_fromLines cs [newline] _ s hm' (fun y hy => ?_)
        rcases List.mem_append.1 hy with hy | hy
        · exact List.mem_append_left _ (hb y (List.mem_append_left _ hy))
        · exact List.mem_append_right _ hy
      · rw [if_neg hp]
        refine feed_fromLines cs [] _ _ (fun m hmem => ?_) (fun y hy => (by simp at hy))
        rcases List.mem_append.1 hmem with hmem | hmem
        · exact hm' m hmem
        · rw [List.mem_singleton.1 hmem]
          exact ⟨before, List.prefix_rfl, hb⟩
    · rw [if_neg hc]
      have hb' : ∀ y ∈ s.2 ++ (pend ++ [c]), y ∈ before ++ [c] := fun y hy => by
        rw [← List.append_assoc] at hy
        rcases List.mem_append.1 hy with hy | hy
        · exact List.mem_append_left _ (hb y hy)
        · exact List.mem_append_right _ hy
      by_cases hcs : cs = []
      · rw [if_pos hcs, hcs, List.append_nil]
        exact ⟨hm', hb'⟩
      · rw [if_neg hcs]
        exact feed_fromLines cs _ _ s hm' hb'

theorem foldl_fromLines : ∀ (chunks : List Bytes) (before : Bytes) (s : List Bytes × Bytes),
    (∀ m ∈ s.1, FromLines before m) → (∀ y ∈ s.2, y ∈ before) →
    ∀ m ∈ (chunks.foldl (fun s c => feed [] c s) s).1, FromLines (before ++ chunks.flatten) m
  | [], before, s, hm, _ => by
    rw [List.flatten_nil, List.append_nil]
    exact hm
  | c :: cs, before, s, hm, hb => by
    obtain ⟨hm', hb'⟩ := feed_fromLines c [] before s hm (by simpa using hb)
    rw [List.flatten_cons, ← List.append_assoc, List.foldl_cons]
    exact foldl_fromLines cs _ _ hm' hb'

/-- Complete lines without NUL: no message is cut by `c_str`. -/
theorem cStr_of_fromLines {stream m : Bytes} (hl : ∀ l ∈ (frame stream).1, 0 ∉ l) (hm : FromLines stream m) :
    cStr m = m := by
  obtain ⟨s, ⟨t, rfl⟩, hs⟩ := hm
  have hzero : (0 : UInt8) ∉ s := fun h0 => by
    have hline : ∃ l ∈ (cutLines newline (s ++ [newline])).1, (0 : UInt8) ∈ l := by
      rcases mem_cutLines newline (show (0 : UInt8) ∈ s ++ [newline] from List.mem_append_left _ h0)
        (by decide) with h | h
      · exact h
      · rw [cutLines_append_singleton, cutStep, if_pos rfl] at h
        cases h
    obtain ⟨l, hlm, h0l⟩ := hline
    refine hl l ?_ h0l
    unfold frame
    refine List.mem_filter.2 ⟨(cutLines_mono newline _ t).subset hlm, ?_⟩
    simpa using List.ne_nil_of_mem h0l
  exact cStr_eq_self (fun h => hzero (hs 0 h))

/-! ## The framing of a client -/

theorem foldl_behind : ∀ (chunks : List Bytes) (before : Bytes) (s : List Bytes × Bytes), Behind s before →
    Behind (chunks.foldl (fun s c => feed [] c s) s) (before ++ chunks.flatten)
  | [], _, _, h => by simpa using h
  | c :: cs, before, s, h => by
    rw [List.foldl_cons, List.flatten_cons, ← List.append_assoc]
    exact foldl_behind cs _ _ (feed_still_behind h c)

theorem foldl_frame : ∀ (chunks : List Bytes) (before : Bytes), (AllCutWell before chunks →
      chunks.foldl (fun s c => feed [] c s) (frame before) = frame (before ++ chunks.flatten)) ∧
    (¬ AllCutWell before chunks →
      Behind (chunks.foldl (fun s c => feed [] c s) (frame before)) (before ++ chunks.flatten))
  | [], before => ⟨fun _ => by simp, fun h => absurd trivial h⟩
  | c :: cs, before => by
    have hstart : frame before = ((frame before).1, (frame before).2 ++ []) := by simp
    rw [List.foldl_cons, List.flatten_cons, ← List.append_assoc]
    by_cases hc : CutsWell before c
    · have hgood := feed_good c [] before (frame before).2 (frame before).1 hstart (fun _ => rfl)
        ((cutsWell_iff before c).1 hc)
      obtain ⟨ih1, ih2⟩ := foldl_frame cs (before ++ c)
      rw [show feed [] c (frame before) = frame (before ++ c) from hgood]
      exact ⟨fun h => ih1 h.2, fun h => ih2 (fun h' => h ⟨hc, h'⟩)⟩
    · have hbad := feed_not_good c [] before (frame before).2 (frame before).1 hstart
        (fun h => hc ((cutsWell_iff before c).2 h))
      exact ⟨fun h => absurd h.1 hc, fun _ => foldl_behind cs _ _ hbad⟩

/-- **The messages of a client are the non-empty lines of its stream, and the buffer is what is left**, exactly when
every read is cut well; complete lines hold no NUL. -/
theorem received_iff (chunks : List Bytes) (hnul : ∀ l ∈ (frame chunks.flatten).1, 0 ∉ l) :
    received chunks = frame chunks.flatten ↔ AllCutWell [] chunks := by
  have hframe : frame [] = ([], []) := rfl
  obtain ⟨hgood, hbad⟩ := foldl_frame chunks []
  rw [hframe, List.nil_append] at hgood hbad
  have hshown : shown (chunks.foldl (fun s c => feed [] c s) ([], [])) =
      chunks.foldl (fun s c => feed [] c s) ([], []) := by
    have hfrom := foldl_fromLines chunks [] ([], []) (by simp) (by simp)
    refine Prod.ext ?_ rfl
    conv => rhs; rw [← List.map_id (chunks.foldl (fun s c => feed [] c s) ([], [])).1]
    exact List.map_congr_left (fun m hm => cStr_of_fromLines hnul (by simpa using hfrom m hm))
  rw [received_eq, hshown]
  refine ⟨fun heq => ?_, hgood⟩
  by_contra hn
  have hb := hbad hn
  rw [heq] at hb
  rcases hb with (h | ⟨m, hm, h⟩) | h
  · exact (not_mem_cutLines newline _).2 h
  · exact (not_mem_cutLines newline _).1 m (List.mem_filter.1 hm).1 h
  · exact Nat.lt_irrefl _ h

/-- `A`, then `B` and the newline, then an empty line that ends its read. -/
theorem received_iff_three_reads :
    received [[65], [66, newline], [67, newline, newline]] =
        frame [[65], [66, newline], [67, newline, newline]].flatten ↔
      AllCutWell [] [[65], [66, newline], [67, newline, newline]] :=
  received_iff [[65], [66, newline], [67, newline, newline]] (by decide)

/-- A read that starts with the newline of the line before it: one message for two lines. -/
theorem newline_first_merges_lines :
    received [[65], [newline, 66, newline]] = ([[65, newline, 66]], []) ∧
      frame [[65], [newline, 66, newline]].flatten = ([[65], [66]], []) := by
  decide

end InfoLoggerD
end Flp
