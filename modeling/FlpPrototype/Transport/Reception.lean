import FlpPrototype.Lib.Lines
import FlpPrototype.Transport.ClientWire
import FlpPrototype.Transport.Server
/-!
# Reception — what a client sends, the server receives

The server finds the files in the stream of a connection, however `read` cuts it: what it has in hand and what is still
to come always make the rest of the stream (`Awaits`).  This needs room for a NUL behind the data of each file, so the
largest size is out, and room in the server's counters for all files (`roundTrip_iff`, `largestFile_not_received`).
-/
namespace Flp
namespace Transport

/-! ## Files that can be sent -/

/-- What is received of a file. -/
def TrFile.contents (f : TrFile) : Option CString × Int × Int × Bytes × Int :=
  (f.id.source, f.id.majId, f.id.minId, f.blobs.flatten, f.size)

/-- The header line, without its end. -/
def TrFile.headerText (f : TrFile) : Bytes :=
  ascii "File ".toList ++ (f.id.source.getD unknown).1 ++ ascii [' '] ++ printInt f.id.minId ++ ascii [' '] ++
    printInt f.id.majId ++ ascii [' '] ++ printInt f.size

/-- A file with a source of one word, of the size of its blobs, the header of which fits the buffer it is printed
into. -/
structure TrFile.Sendable (f : TrFile) : Prop where
  source : ∃ s, f.id.source = some s ∧ s.1 ≠ [] ∧ ∀ c ∈ s.1, isSpace c = false
  minId : -2 ^ 31 ≤ f.id.minId ∧ f.id.minId < 2 ^ 31
  majId : -2 ^ 31 ≤ f.id.majId ∧ f.id.majId < 2 ^ 31
  data : (f.blobs.flatten.length : Int) = f.size
  size : 0 < f.size ∧ f.size < 2 ^ 31
  header : f.headerText.length + 1 < TR_BUFFER_SIZE

/-- The opening line, without its end. -/
def TrClient.iniText (c : TrClient) : Bytes :=
  ascii "INI ".toList ++ c.clientName.1 ++ ascii [' '] ++ printInt c.proxyState

/-- A client whose opening is one line, and fits the buffer it is printed into. -/
structure TrClient.Opens (c : TrClient) : Prop where
  line : newline ∉ c.clientName.1
  fits : c.iniText.length + 1 < TR_BUFFER_SIZE

variable {f : TrFile} {c : TrClient}

theorem TrClient.iniLine_eq (h : c.Opens) : c.iniLine = c.iniText ++ [newline] := by
  have hlen : (c.iniText ++ [newline]).length ≤ TR_BUFFER_SIZE - 1 := by
    have := h.fits
    rw [List.length_append, List.length_singleton]
    omega
  exact List.take_of_length_le hlen

theorem TrFile.Sendable.header_eq (h : f.Sendable) : f.header = f.headerText ++ [newline] := by
  have hlen : (f.headerText ++ [newline]).length ≤ TR_BUFFER_SIZE - 1 := by
    have := h.header
    rw [List.length_append, List.length_singleton]
    omega
  exact List.take_of_length_le hlen

theorem printInt_ne {n : Int} {x : UInt8} (hx : x ∈ printInt n) : x ≠ newline ∧ x ≠ 0 := by
  rcases mem_printInt hx with rfl | hd
  · decide
  · obtain ⟨h48, -⟩ := isDigit_iff.1 hd
    refine ⟨fun h => ?_, fun h => ?_⟩
    · rw [h] at h48
      exact absurd h48 (by decide)
    · rw [h] at h48
      exact absurd h48 (by decide)

theorem one_line_of_all {b : Bytes} (h : (b.all fun x => decide (x ≠ newline ∧ x ≠ 0)) = true) :
    ∀ x ∈ b, x ≠ newline ∧ x ≠ 0 := fun x hx => of_decide_eq_true (List.all_eq_true.1 h x hx)

/-- Neither line has an end or a NUL in it. -/
theorem TrClient.Opens.one_line (h : c.Opens) : newline ∉ c.iniText ∧ 0 ∉ c.iniText := by
  have hall : ∀ x ∈ c.iniText, x ≠ newline ∧ x ≠ 0 := by
    intro x hx
    simp only [TrClient.iniText, List.mem_append] at hx
    rcases hx with ((hx | hx) | hx) | hx
    · exact one_line_of_all (by decide) x hx
    · exact ⟨fun e => h.line (e ▸ hx), fun e => c.clientName.2 (e ▸ hx)⟩
    · exact one_line_of_all (by decide) x hx
    · exact printInt_ne hx
  exact ⟨fun hm => (hall _ hm).1 rfl, fun hm => (hall _ hm).2 rfl⟩

theorem TrFile.Sendable.one_line (h : f.Sendable) : newline ∉ f.headerText ∧ 0 ∉ f.headerText := by
  obtain ⟨s, hs, -, hword⟩ := h.source
  have hall : ∀ x ∈ f.headerText, x ≠ newline ∧ x ≠ 0 := by
    intro x hx
    simp only [TrFile.headerText, hs, Option.getD_some, List.mem_append] at hx
    rcases hx with ((((((hx | hx) | hx) | hx) | hx) | hx) | hx) | hx
    · exact one_line_of_all (by decide) x hx
    · refine ⟨fun e => ?_, fun e => s.2 (e ▸ hx)⟩
      have hblank := hword x hx
      rw [e] at hblank
      exact absurd hblank (by decide)
    · exact one_line_of_all (by decide) x hx
    · exact printInt_ne hx
    · exact one_line_of_all (by decide) x hx
    · exact printInt_ne hx
    · exact one_line_of_all (by decide) x hx
    · exact printInt_ne hx
  exact ⟨fun hm => (hall _ hm).1 rfl, fun hm => (hall _ hm).2 rfl⟩

/-- **The header is read back.** -/
theorem scanHeader_headerText (h : f.Sendable) : ∃ s, f.id.source = some s ∧
    scanHeader f.headerText = some (s.1, f.id.minId, f.id.majId, f.size) := by
  obtain ⟨s, hs, hne, hword⟩ := h.source
  have hblank : ∀ x ∈ [(32 : UInt8)], isSpace x = true := fun x hx => by rw [List.mem_singleton.1 hx]; decide
  have hno : ∀ rest, NoDigit ((32 : UInt8) :: rest) := fun rest => noDigit_cons (by decide)
  have htext : f.headerText = ascii "File".toList ++ ([32] ++ (s.1 ++ 32 :: (printInt f.id.minId ++
      32 :: (printInt f.id.majId ++ 32 :: (printInt f.size ++ []))))) := by
    simp [TrFile.headerText, hs, ascii]
  have hfile : (ascii "File".toList).isPrefixOf f.headerText = true := by
    rw [htext]
    exact List.isPrefixOf_iff_prefix.2 (List.prefix_append _ _)
  have hdrop : f.headerText.drop 4 = [32] ++ (s.1 ++ 32 :: (printInt f.id.minId ++
      32 :: (printInt f.id.majId ++ 32 :: (printInt f.size ++ [])))) := by
    rw [htext]
    exact List.drop_left' rfl
  have hsource :=
    @scanWord_word _ _ (printInt f.id.minId ++ 32 :: (printInt f.id.majId ++ 32 :: (printInt f.size ++ []))) _
    hblank hne hword (show isSpace 32 = true by decide)
  have hmin := scanInt_printInt f.id.minId hblank (hno (printInt f.id.majId ++ 32 :: (printInt f.size ++ [])))
  have hmaj := scanInt_printInt f.id.majId hblank (hno (printInt f.size ++ []))
  have hsize := scanInt_printInt f.size hblank noDigit_nil
  refine ⟨s, hs, ?_⟩
  rw [scanHeader, if_pos hfile, hdrop, hsource, Option.bind_some]
  rw [List.singleton_append] at hmin hmaj hsize
  rw [hmin, Option.bind_some, hmaj, Option.bind_some, hsize, Option.map_some, intOf_eq h.minId.1 h.minId.2,
    intOf_eq h.majId.1 h.majId.2, intOf_eq (by have := h.size.1; omega) h.size.2]

/-! ## Lines of the buffer -/

theorem cStr_line {l t : Bytes} (hnul : 0 ∉ l) : cStr (l ++ newline :: t) = l ++ newline :: cStr t := by
  have hl : ∀ x ∈ l, decide (x ≠ 0) = true := fun x hx => decide_eq_true fun e => hnul (e ▸ hx)
  rw [cStr, List.takeWhile_append_of_pos hl, List.takeWhile_cons_of_pos (by decide)]
  rfl

theorem firstLine_line {l t : Bytes} (hline : newline ∉ l) (hnul : 0 ∉ l) :
    firstLine (l ++ newline :: t) = some (l, t) := by
  rw [firstLine, cStr_line hnul, strchr_append hline, Option.map_some, List.take_left' rfl]
  have hdrop : (l ++ newline :: t).drop (l.length + 1) = t := by
    rw [List.append_cons]
    exact List.drop_left' (by simp)
  rw [hdrop]

theorem firstLine_none {text : Bytes} (h : newline ∉ text) : firstLine text = none := by
  have hnone : strchr (cStr text) newline = none :=
    strchr_eq_none.2 fun hm => h ((List.takeWhile_prefix _).subset hm)
  rw [firstLine, hnone]
  rfl

/-! ## What is still to come -/

def encodes (fs : List TrFile) : Bytes := fs.flatMap TrFile.encode

/-- The file under way is this one. -/
structure Incoming.Of (f : Incoming) (g : TrFile) : Prop where
  source : f.id.source = g.id.source
  minId : f.id.minId = g.id.minId
  majId : f.id.majId = g.id.majId
  size : f.size = g.size

/-- **What the server awaits**: in a state, this text and these files. -/
inductive Awaits (c : TrClient) : Receiving → Bytes → List TrFile → Prop
  | init {fs} : Awaits c .init (c.iniText ++ newline :: encodes fs) fs
  | begin {fs} : Awaits c .waitingFileBegin (encodes fs) fs
  | data {f g fs text} : f.Of g → f.value ++ text = g.blobs.flatten ++ (trailer ++ encodes fs) →
      (f.value.length : Int) < f.size → Awaits c (.receivingFile f) text (g :: fs)
  | ending {f g fs} :
      f.Of g → f.value = g.blobs.flatten → Awaits c (.waitingFileEnd f) (trailer ++ encodes fs) (g :: fs)

/-- Whether the data of a file is read directly to its place. -/
def Receiving.Direct : Receiving → Prop
  | .receivingFile _ => True
  | _                => False

/-- With some text to parse and the rest of the stream still to come, these files are left; the others were
delivered. -/
structure Parsing (c : TrClient) (files : List TrFile) (cx : TrDataConnection) (text rest : Bytes) (fs : List TrFile) :
    Prop where
  awaits : Awaits c cx.state (text ++ rest) fs
  direct : cx.state.Direct → text = []
  delivered : ∃ done, files = done ++ fs ∧ cx.outputQueue.map TrFile.contents = done.map TrFile.contents

/-- The server can make room for a file. -/
def Fits (f : TrFile) : Prop := f.size < intMax

def totalSize (fs : List TrFile) : Nat := (fs.map (·.size.toNat)).sum

/-- **The counters have room** for these files, if each takes so many tries. -/
structure TrStatistics.Room (stat : TrStatistics) (tries : Nat) (fs : List TrFile) : Prop where
  bytes : stat.bytesReceived + tries * totalSize fs ≤ intMax
  files : stat.filesReceived + tries * fs.length ≤ intMax

/-- What was counted meanwhile, of the files that were left: nothing, or the first one. -/
def TrStatistics.Counts (tries : Nat) (stat : TrStatistics) (fs : List TrFile) (stat' : TrStatistics)
    (fs' : List TrFile) :
    Prop :=
  stat' = stat ∧ fs' = fs ∨ ∃ f, ∃ n ≤ tries, fs = f :: fs' ∧ stat' = stat.counted f n

variable {fs : List TrFile} {text rest : Bytes} {s : Receiving} {stat stat' : TrStatistics} {tries : Nat}

namespace TrStatistics

theorem Room.head (h : stat.Room tries (f :: fs)) : stat.Takes f tries := by
  obtain ⟨hbytes, hfiles⟩ := h
  rw [totalSize, List.map_cons, List.sum_cons, Nat.mul_add] at hbytes
  rw [List.length_cons, Nat.mul_succ] at hfiles
  exact ⟨by omega, by omega⟩

theorem Room.counts {fs' : List TrFile} (h : stat.Room tries fs) (hcounts : Counts tries stat fs stat' fs') :
    stat'.Room tries fs' := by
  rcases hcounts with ⟨rfl, rfl⟩ | ⟨f, n, hn, rfl, rfl⟩
  · exact h
  · have hmul := Nat.mul_le_mul_right f.size.toNat hn
    obtain ⟨hbytes, hfiles⟩ := h
    rw [totalSize, List.map_cons, List.sum_cons, Nat.mul_add] at hbytes
    rw [List.length_cons, Nat.mul_succ] at hfiles
    refine ⟨?_, ?_⟩
    · show stat.bytesReceived + n * f.size.toNat + tries * totalSize fs' ≤ intMax
      unfold totalSize
      omega
    · show stat.filesReceived + n + tries * fs'.length ≤ intMax
      omega

/-- Statistics that were printed have room as well. -/
theorem Room.printStats (h : stat.Room tries fs) (printed : Bool) :
    (Reception.printStats printed stat).Room tries fs := by
  obtain ⟨hbytes, hfiles⟩ := h
  cases printed with
  | false => exact ⟨hbytes, hfiles⟩
  | true =>
    refine ⟨?_, ?_⟩
    · show 0 + tries * totalSize fs ≤ intMax
      omega
    · show 0 + tries * fs.length ≤ intMax
      omega

end TrStatistics

theorem trailer_append (text : Bytes) : trailer ++ text = ascii "END".toList ++ newline :: text := by
  rw [show trailer = ascii "END".toList ++ [newline] by decide, List.append_assoc, List.singleton_append]

theorem encodes_cons (h : f.Sendable) : encodes (f :: fs) =
    f.headerText ++ newline :: (f.blobs.flatten ++ (trailer ++ encodes fs)) := by
  unfold encodes
  rw [List.flatMap_cons, TrFile.encode, h.header_eq]
  simp

/-- A text without a line end is short: the line it begins would fit. -/
theorem Awaits.short (h : Awaits c s (text ++ rest) fs) (hopens : c.Opens) (hsend : ∀ f ∈ fs, f.Sendable)
    (hdirect : s.Direct → text = []) (hline : newline ∉ text) : text.length + 1 < TR_BUFFER_SIZE := by
  have short : ∀ {l tail : Bytes}, text ++ rest = l ++ newline :: tail → l.length + 1 < TR_BUFFER_SIZE →
      text.length + 1 < TR_BUFFER_SIZE := by
    intro l tail heq hfits
    rcases append_eq_line heq with ⟨m, rfl, -⟩ | ⟨t, rfl, -⟩
    · rw [List.length_append] at hfits
      omega
    · exact absurd (List.mem_append_right _ List.mem_cons_self) hline
  generalize hall : text ++ rest = all at h short
  cases h with
  | init => exact short rfl hopens.fits
  | begin =>
    cases fs with
    | nil =>
      obtain ⟨rfl, -⟩ := List.append_eq_nil_iff.1 hall
      decide
    | cons f fs => exact short (encodes_cons (hsend f List.mem_cons_self)) (hsend f List.mem_cons_self).header
  | data =>
    rw [hdirect trivial]
    decide
  | ending => exact short (trailer_append _) (by decide)

namespace Parsing

variable {files : List TrFile} {cx : TrDataConnection}

theorem isOpen (h : Parsing c files cx text rest fs) : cx.state ≠ .closed := by
  intro hclosed
  have hawaits := h.awaits
  rw [hclosed] at hawaits
  cases hawaits

theorem of_files (h : Parsing c files cx text rest fs) {P : TrFile → Prop} (hfiles : ∀ f ∈ files, P f) :
    ∀ f ∈ fs, P f := by
  obtain ⟨done, hsplit, -⟩ := h.delivered
  intro f hf
  exact hfiles f (by rw [hsplit]; exact List.mem_append_right _ hf)

end Parsing

namespace TrDataConnection

/-! ## A line -/

variable {files : List TrFile} {cx : TrDataConnection} {e : ServerEnv}

/-- The data of a file is taken from the text as far as it is there. -/
theorem begin_step {t : Bytes} (hstate : cx.state = .waitingFileBegin) (hsend : f.Sendable) (hfits : Fits f)
    (hdone : ∃ done, files = done ++ f :: fs ∧ cx.outputQueue.map TrFile.contents = done.map TrFile.contents)
    (htext : t ++ rest = f.blobs.flatten ++ (trailer ++ encodes fs)) :
    ∃ cx' t', processLine e stat cx f.headerText t = some (0, stat, cx', t') ∧ Parsing c files cx' t' rest (f :: fs) ∧
      t'.length ≤ t.length := by
  obtain ⟨s, hs, hscan⟩ := scanHeader_headerText hsend
  have hpos := hsend.size.1
  have hroom : intPlus f.size 1 = some (f.size + 1) := intPlus_of_le (by omega) (by unfold Fits at hfits; omega)
  have hdata := hsend.data
  have hprocess : ∃ g : Incoming, g.Of f ∧ g.value = t.take f.size.toNat ∧
      processLine e stat cx f.headerText t = some (0, stat, { cx with
        state := if f.size ≤ t.length then .waitingFileEnd g else .receivingFile g
        allocated := cx.allocated + 1 }, t.drop f.size.toNat) := by
    refine ⟨⟨cx.allocated, ⟨some (CString.at s.1), f.id.majId, f.id.minId, cx.cxId⟩, f.size, t.take f.size.toNat, hpos⟩,
      ⟨by rw [CString.at_coe, hs], rfl, rfl, rfl⟩, rfl, ?_⟩
    rw [processLine, hstate]
    simp only [hscan, dif_neg (Int.not_le.2 hpos), TrDataConnection.beginFile, hroom, Option.map_some]
  obtain ⟨g, hof, hvalue, hprocess⟩ := hprocess
  refine ⟨_, _, hprocess, ?_, by rw [List.length_drop]; omega⟩
  by_cases hall : f.size ≤ t.length
  · -- the whole data is there
    obtain ⟨t', rfl⟩ : ∃ t', t = f.blobs.flatten ++ t' := by
      rcases List.append_eq_append_iff.1 htext with ⟨m, hm, -⟩ | ⟨m, hm, -⟩
      · have hlen := congrArg List.length hm
        rw [List.length_append] at hlen
        obtain rfl : m = [] := List.length_eq_zero_iff.1 (by omega)
        exact ⟨[], by rw [hm, List.append_nil, List.append_nil]⟩
      · exact ⟨m, hm⟩
    rw [List.append_assoc, List.append_cancel_left_eq] at htext
    have hsize : f.size.toNat = f.blobs.flatten.length := by omega
    rw [hsize, List.take_left' rfl] at hvalue
    rw [hsize, List.drop_left' rfl, if_pos hall]
    exact ⟨htext ▸ .ending hof hvalue, fun h => h.elim, hdone⟩
  · -- more of it is to come
    have hshort : t.length ≤ f.size.toNat := by omega
    rw [List.take_of_length_le hshort] at hvalue
    rw [List.drop_of_length_le hshort, if_neg hall]
    refine ⟨.data hof ?_ ?_, fun _ => rfl, hdone⟩
    · rw [hvalue, List.nil_append, htext]
    · rw [hvalue, hof.size]
      omega

/-- **The file is at its end**: the queue takes it, at one of the tries that can be counted. -/
theorem ending_step {t : Bytes} {g : Incoming} (hstate : cx.state = .waitingFileEnd g) (haccepts : e.Accepts tries)
    (htries : tries ≤ 11) (htakes : stat.Takes f tries) (hof : g.Of f) (hvalue : g.value = f.blobs.flatten)
    (hdone : ∃ done, files = done ++ f :: fs ∧ cx.outputQueue.map TrFile.contents = done.map TrFile.contents)
    (htext : t ++ rest = encodes fs) :
    ∃ cx', ∃ n ≤ tries, processLine e stat cx (ascii "END".toList) t = some (0, stat.counted f n, cx', t) ∧
      Parsing c files cx' t rest fs := by
  obtain ⟨j, hj, hwrite⟩ := haccepts.2 g.file
  have hsize : g.file.size = f.size := hof.size
  have hle : e.tries g.file 11 0 ≤ j + 1 := ServerEnv.tries_le (by rw [Nat.zero_add]; exact hwrite)
  have htakes' : stat.Takes g.file tries := by
    unfold TrStatistics.Takes
    rw [hsize]
    exact htakes
  obtain ⟨taken, htaken⟩ := writeFile_of_takes (htakes'.mono (hle.trans hj))
  obtain rfl : taken = true := (writeFile_eq_some htaken).2.2.2 ⟨j, by omega, by rw [Nat.zero_add]; exact hwrite⟩
  refine ⟨{ cx with state := .waitingFileBegin, outputQueue := cx.outputQueue ++ [g.file] }, e.tries g.file 11 0,
    hle.trans hj, ?_, ?_⟩
  · rw [processLine, hstate]
    simp only
    rw [if_pos (by decide), htaken, Option.map_some]
    unfold TrStatistics.counted
    rw [hsize]
  · obtain ⟨done, hfiles, hqueue⟩ := hdone
    have hcontents : g.file.contents = f.contents := by
      simp [TrFile.contents, Incoming.file, hof.source, hof.minId, hof.majId, hof.size, hvalue]
    refine ⟨?_, fun h => h.elim, done ++ [f], ?_, ?_⟩
    · rw [htext]
      exact .begin
    · rw [hfiles, List.append_assoc, List.singleton_append]
    · rw [List.map_append, hqueue, List.map_append, List.map_singleton, List.map_singleton, hcontents]

/-- **A line of the buffer**: there is none yet, or it is what is awaited. -/
theorem line_step {text : Bytes} (h : Parsing c files cx text rest fs) (hopens : c.Opens)
    (hfiles : ∀ f ∈ files, f.Sendable ∧ Fits f) (haccepts : e.Accepts tries) (htries : tries ≤ 11)
    (htakes : ∀ f ∈ fs.head?, stat.Takes f tries) : newline ∉ text ∨
      ∃ l t stat' cx' t' fs', firstLine text = some (l, t) ∧ processLine e stat cx l t = some (0, stat', cx', t') ∧
        Parsing c files cx' t' rest fs' ∧ t'.length < text.length ∧ TrStatistics.Counts tries stat fs stat' fs' := by
  have hawaits := h.awaits
  have hstate : ∃ s, cx.state = s := ⟨_, rfl⟩
  obtain ⟨s, hstate⟩ := hstate
  -- the line that is awaited, if the text has its end
  have first : ∀ {l tail : Bytes}, text ++ rest = l ++ newline :: tail → newline ∉ l → 0 ∉ l →
      newline ∉ text ∨ ∃ t, text.length = l.length + 1 + t.length ∧ firstLine text = some (l, t) ∧
        t ++ rest = tail := by
    intro l tail heq hline hnul
    rcases append_eq_line heq with ⟨m, rfl, -⟩ | ⟨t, rfl, htail⟩
    · exact .inl fun hm => hline (List.mem_append_left _ hm)
    · refine .inr ⟨t, ?_, firstLine_line hline hnul, htail.symm⟩
      rw [List.length_append, List.length_cons]
      omega
  generalize hall : text ++ rest = all at hawaits first
  rw [hstate] at hawaits
  cases hawaits with
  | init =>
    refine (first rfl hopens.one_line.1 hopens.one_line.2).imp_right ?_
    rintro ⟨t, hlen, hfirst, htail⟩
    refine ⟨_, t, stat, { cx with state := .waitingFileBegin }, t, fs, hfirst, ?_,
      ⟨?_, fun h => h.elim, h.delivered⟩, by omega, .inl ⟨rfl, rfl⟩⟩
    · rw [processLine, hstate]
      simp only [if_pos haccepts.1]
    · rw [htail]
      exact .begin
  | begin =>
    cases fs with
    | nil =>
      obtain ⟨rfl, -⟩ := List.append_eq_nil_iff.1 hall
      exact .inl List.not_mem_nil
    | cons f fs =>
      obtain ⟨hsend, hfits⟩ := h.of_files hfiles f List.mem_cons_self
      refine (first (encodes_cons hsend) hsend.one_line.1 hsend.one_line.2).imp_right ?_
      rintro ⟨t, hlen, hfirst, htail⟩
      obtain ⟨cx', t', hprocess, hparsing, hle⟩ := begin_step hstate hsend hfits h.delivered htail
      exact ⟨_, t, stat, cx', t', f :: fs, hfirst, hprocess, hparsing, by omega, .inl ⟨rfl, rfl⟩⟩
  | data =>
    have hdirect : cx.state.Direct := by
      rw [hstate]
      exact trivial
    rw [h.direct hdirect]
    exact .inl List.not_mem_nil
  | @ending g f fs hof hvalue =>
    refine (first (trailer_append _) (by decide) (by decide)).imp_right ?_
    rintro ⟨t, hlen, hfirst, htail⟩
    obtain ⟨cx', n, hn, hprocess, hparsing⟩ :=
      ending_step hstate haccepts htries (htakes f rfl) hof hvalue h.delivered htail
    exact ⟨_, t, stat.counted f n, cx', t, fs, hfirst, hprocess, hparsing, by omega, .inr ⟨f, n, hn, rfl, rfl⟩⟩

/-! ## A call -/

/-- Between the calls the buffer has no whole line. -/
def Between (c : TrClient) (files : List TrFile) (cx : TrDataConnection) (rest : Bytes) (fs : List TrFile) : Prop :=
  Parsing c files cx cx.buffer rest fs ∧ newline ∉ cx.buffer

/-- **The loop** ends with no whole line left. -/
theorem parseBuffer_between (hopens : c.Opens) (hfiles : ∀ f ∈ files, f.Sendable ∧ Fits f)
    (haccepts : e.Accepts tries) (htries : tries ≤ 11) :
    ∀ (fuel : Nat) (stat : TrStatistics) (cx : TrDataConnection) (text : Bytes) (behind : Bool) (fs : List TrFile),
      text.length < fuel → Parsing c files cx text rest fs → stat.Room tries fs → (behind = false → cx.buffer = text) →
      ∃ stat' cx' fs', parseBuffer e fuel stat cx text behind = some (0, stat', cx') ∧
        Between c files cx' rest fs' ∧ stat'.Room tries fs'
  | 0, _, _, _, _, _, hfuel, _, _, _ => absurd hfuel (Nat.not_lt_zero _)
  | fuel + 1, stat, cx, text, behind, fs, hfuel, h, hroom, hbuffer => by
    have htakes : ∀ f ∈ fs.head?, stat.Takes f tries := fun f hf => by
      obtain ⟨fs', rfl⟩ := List.head?_eq_some_iff.1 hf
      exact hroom.head
    rw [parseBuffer, if_neg h.isOpen]
    rcases line_step h hopens hfiles haccepts htries htakes with hline |
      ⟨l, t, stat', cx', t', fs', hfirst, hprocess, h', hlt, hcounts⟩
    · rw [firstLine_none hline]
      cases behind with
      | true =>
        exact ⟨stat, { cx with buffer := text }, fs, rfl, ⟨⟨h.awaits, h.direct, h.delivered⟩, hline⟩, hroom⟩
      | false =>
        have hbuffer := hbuffer rfl
        have hshort := h.awaits.short hopens (fun f hf => (h.of_files hfiles f hf).1) h.direct hline
        have hfree : ¬TR_SERVER_BUFFER_SIZE - 1 ≤ cx.buffer.length := by
          rw [hbuffer]
          unfold TR_SERVER_BUFFER_SIZE
          unfold TR_BUFFER_SIZE at hshort
          omega
        simp only [Bool.false_eq_true, if_false, if_neg hfree]
        exact ⟨stat, cx, fs, rfl, ⟨by rw [hbuffer]; exact h, by rw [hbuffer]; exact hline⟩, hroom⟩
    · rw [hfirst]
      simp only [hprocess, ne_eq, not_true_eq_false, if_false]
      exact parseBuffer_between hopens hfiles haccepts htries fuel stat' cx' t' true fs' (by omega) h'
        (hroom.counts hcounts) fun hb => by cases hb

theorem exists_of_direct (h : cx.state.Direct) : ∃ g, cx.state = .receivingFile g := by
  cases hs : cx.state with
  | receivingFile g => exact ⟨g, rfl⟩
  | init | waitingFileBegin | waitingFileEnd | closed =>
    rw [hs] at h
    exact h.elim

/-- Data that is not read directly to its place is put in the buffer. -/
theorem connectionRead_buffered {data : Bytes} (hopen : cx.state ≠ .closed) (hne : data ≠ [])
    (hdirect : ¬cx.state.Direct) :
    connectionRead e stat cx data = parseBuffer e ((cx.buffer ++ data).length + 1) stat
      { cx with buffer := cx.buffer ++ data } (cx.buffer ++ data) false := by
  rw [connectionRead, if_neg hopen, if_neg hne]
  cases hs : cx.state with
  | receivingFile g => exact absurd (by rw [hs]; exact trivial) hdirect
  | init | waitingFileBegin | waitingFileEnd | closed => rfl

theorem asked_buffered (hdirect : ¬cx.state.Direct) : cx.asked = TR_SERVER_BUFFER_SIZE - cx.buffer.length - 1 := by
  unfold asked
  cases hs : cx.state with
  | receivingFile g => exact absurd (by rw [hs]; exact trivial) hdirect
  | init | waitingFileBegin | waitingFileEnd | closed => rfl

/-- Data that is read directly to its place. -/
theorem direct_step {g : Incoming} {data : Bytes} (hfiles : ∀ f ∈ files, f.Sendable ∧ Fits f)
    (hstate : cx.state = .receivingFile g) (hne : data ≠ []) (hlen : data.length ≤ cx.asked)
    (h : Between c files cx (data ++ rest) fs) :
    ∃ cx', connectionRead e stat cx data = some (0, stat, cx') ∧ Between c files cx' rest fs := by
  have hbuffer : cx.buffer = [] := h.1.direct (by rw [hstate]; exact trivial)
  have hawaits := h.1.awaits
  rw [hstate, hbuffer, List.nil_append] at hawaits
  have hasked : cx.asked = g.size.toNat - g.value.length := by
    rw [asked, hstate]
  rw [hasked] at hlen
  cases hawaits with
  | @data _ f fs _ hof hvalue hshort =>
    refine ⟨{ cx with state := if ((g.value ++ data).length : Int) = g.size then
        .waitingFileEnd { g with value := g.value ++ data } else .receivingFile { g with value := g.value ++ data } },
      ?_, ?_, h.2⟩
    · rw [connectionRead, if_neg h.1.isOpen, if_neg hne, hstate]
    · have hof' : Incoming.Of { g with value := g.value ++ data } f := ⟨hof.source, hof.minId, hof.majId, hof.size⟩
      rw [← List.append_assoc] at hvalue
      by_cases hall : ((g.value ++ data).length : Int) = g.size
      · have hdata := (h.1.of_files hfiles f List.mem_cons_self).1.data
        have hsize := hof.size
        obtain ⟨hvalue, hrest⟩ := List.append_inj hvalue (by omega)
        rw [if_pos hall]
        refine ⟨?_, fun h => h.elim, h.1.delivered⟩
        rw [hbuffer, List.nil_append, hrest]
        exact .ending hof' hvalue
      · rw [if_neg hall]
        refine ⟨?_, fun _ => hbuffer, h.1.delivered⟩
        rw [hbuffer, List.nil_append]
        have hle : ((g.value ++ data).length : Int) ≤ g.size := by
          rw [List.length_append]
          omega
        exact .data hof' hvalue (lt_of_le_of_ne hle hall)

/-- **A call** takes what it reads from the stream. -/
theorem read_step {data : Bytes} (hopens : c.Opens) (hfiles : ∀ f ∈ files, f.Sendable ∧ Fits f)
    (haccepts : e.Accepts tries) (htries : tries ≤ 11) (hne : data ≠ []) (hlen : data.length ≤ cx.asked)
    (hroom : stat.Room tries fs) (h : Between c files cx (data ++ rest) fs) :
    ∃ stat' cx' fs', connectionRead e stat cx data = some (0, stat', cx') ∧ Between c files cx' rest fs' ∧
      stat'.Room tries fs' := by
  by_cases hdirect : cx.state.Direct
  · obtain ⟨g, hstate⟩ := exists_of_direct hdirect
    obtain ⟨cx', hread, h'⟩ := direct_step hfiles hstate hne hlen h
    exact ⟨stat, cx', fs, hread, h', hroom⟩
  · rw [connectionRead_buffered h.1.isOpen hne hdirect]
    refine parseBuffer_between hopens hfiles haccepts htries _ _ _ _ _ fs (Nat.lt_succ_self _)
      ⟨?_, ?_, h.1.delivered⟩ hroom fun _ => rfl
    · rw [List.append_assoc]
      exact h.1.awaits
    · exact fun hd => absurd hd hdirect

/-! ## Runs -/

theorem between_start (hopens : c.Opens) (cxId : Nat) :
    Between c files (start cxId) (c.iniLine ++ encodes files) files := by
  refine ⟨⟨?_, fun h => h.elim, [], rfl, rfl⟩, List.not_mem_nil⟩
  rw [TrClient.iniLine_eq hopens, List.append_assoc]
  exact .init

/-- At the end of the stream no file is left. -/
theorem Between.done (h : Between c files cx [] fs) (hfiles : ∀ f ∈ files, f.Sendable ∧ Fits f) : fs = [] := by
  have hawaits := h.1.awaits
  have hdirect := h.1.direct
  rw [List.append_nil] at hawaits
  generalize hs : cx.state = s at hawaits hdirect
  generalize hb : cx.buffer = b at hawaits hdirect
  have hline : newline ∉ b := hb ▸ h.2
  have whole : ∀ {l tail : Bytes}, b = l ++ newline :: tail → False := fun heq =>
    hline (heq ▸ List.mem_append_right _ List.mem_cons_self)
  cases hawaits with
  | init => exact (whole rfl).elim
  | begin =>
    cases fs with
    | nil => rfl
    | cons f fs => exact (whole (encodes_cons (h.1.of_files hfiles f List.mem_cons_self).1)).elim
  | @data g f fs _ hof hvalue hshort =>
    rw [hdirect trivial, List.append_nil] at hvalue
    have hdata := (h.1.of_files hfiles f List.mem_cons_self).1.data
    have hlen := congrArg List.length hvalue
    have hsize := hof.size
    rw [List.length_append] at hlen
    omega
  | ending => exact (whole (trailer_append _)).elim

theorem run_between (hopens : c.Opens) (hfiles : ∀ f ∈ files, f.Sendable ∧ Fits f) (htries : tries ≤ 11) :
    ∀ (calls : List Reception.Call) (s : Reception) (fs : List TrFile),
      Between c files s.cx (calls.map (·.data)).flatten fs → s.stat.Room tries fs →
      Legal Reception.step (Reception.Reads tries) s calls →
      ∃ s' fs', run Reception.step s calls = some s' ∧ Between c files s'.cx [] fs'
  | [], s, fs, h, _, _ => ⟨s, fs, rfl, h⟩
  | a :: calls, s, fs, h, hroom, hl => by
    obtain ⟨haccepts, hne, hlen⟩ := hl.1
    obtain ⟨stat, cx, fs₁, hread, h₁, hroom₁⟩ :=
      read_step hopens hfiles haccepts htries hne (hlen h.1.isOpen) (hroom.printStats a.printed) h
    have hs : s.step a = some ⟨stat, cx⟩ := by
      rw [Reception.step, hread]
      rfl
    obtain ⟨s', fs', hr, h'⟩ := run_between hopens hfiles htries calls ⟨stat, cx⟩ fs₁ h₁ hroom₁ (hl.2 _ hs)
    exact ⟨s', fs', by rw [run_cons hs]; exact hr, h'⟩

/-! ## Room -/

/-- There was room for the file under way, and not all of its data is there while more of it is awaited. -/
def Sized : Receiving → Prop
  | .receivingFile f => (f.value.length : Int) < f.size ∧ f.size < intMax
  | .waitingFileEnd f => f.size < intMax
  | _ => True

/-- **There was room for every file**, and there is for what is read next. -/
structure Roomy (cx : TrDataConnection) : Prop where
  current : Sized cx.state
  queued : ∀ f ∈ cx.outputQueue, f.size < intMax
  buffer : cx.state ≠ .closed → cx.buffer.length < TR_SERVER_BUFFER_SIZE - 1

theorem Roomy.asked_pos (h : cx.Roomy) (hopen : cx.state ≠ .closed) : 0 < cx.asked := by
  have hcurrent := h.current
  have hbuffer := h.buffer hopen
  unfold asked
  cases hs : cx.state with
  | receivingFile f =>
    rw [hs] at hcurrent
    have hlt := hcurrent.1
    show 0 < f.size.toNat - f.value.length
    omega
  | init | waitingFileBegin | waitingFileEnd | closed =>
    show 0 < TR_SERVER_BUFFER_SIZE - cx.buffer.length - 1
    omega

/-- What a line changes: room was made for a file that begins, and files are passed on as they are. -/
theorem processLine_sized {line t t' : Bytes} {r : Int} {cx' : TrDataConnection}
    (h : processLine e stat cx line t = some (r, stat', cx', t')) (hcurrent : Sized cx.state)
    (hqueued : ∀ f ∈ cx.outputQueue, f.size < intMax) :
    Sized cx'.state ∧ (∀ f ∈ cx'.outputQueue, f.size < intMax) ∧ t'.length ≤ t.length ∧
      (r ≠ 0 → cx'.state = .closed) := by
  unfold processLine at h
  cases hs : cx.state with
  | waitingFileBegin =>
    rw [hs] at h
    simp only at h
    split at h
    · cases h
      exact ⟨trivial, hqueued, Nat.le_refl _, fun hr => absurd rfl hr⟩
    · rename_i source minId majId size _
      split at h
      · cases h
        exact ⟨trivial, hqueued, Nat.le_refl _, fun hr => absurd rfl hr⟩
      · rename_i hpos
        unfold beginFile at h
        cases hroom : intPlus size 1 with
        | none =>
          rw [hroom] at h
          cases h
        | some n =>
          have hfits : size < intMax := by
            by_contra hlarge
            rw [intPlus_overflow (by omega)] at hroom
            cases hroom
          rw [hroom] at h
          cases h
          refine ⟨?_, hqueued, by rw [List.length_drop]; omega, fun hr => absurd rfl hr⟩
          simp only
          split
          · exact hfits
          · refine ⟨?_, hfits⟩
            simp only [List.length_take]
            omega
  | waitingFileEnd f =>
    rw [hs] at h hcurrent
    simp only at h
    split at h
    · obtain ⟨⟨taken, stat₁⟩, -, hcx⟩ := Option.map_eq_some_iff.1 h
      cases taken with
      | true =>
        cases hcx
        refine ⟨trivial, fun g hg => ?_, Nat.le_refl _, fun hr => absurd rfl hr⟩
        rcases List.mem_append.1 hg with hg | hg
        · exact hqueued g hg
        · rw [List.mem_singleton.1 hg]
          exact hcurrent
      | false =>
        cases hcx
        exact ⟨trivial, hqueued, Nat.le_refl _, fun _ => rfl⟩
    · cases h
      exact ⟨trivial, hqueued, Nat.le_refl _, fun hr => absurd rfl hr⟩
  | init =>
    rw [hs] at h
    cases h
    split
    · exact ⟨trivial, hqueued, Nat.le_refl _, fun hr => absurd rfl hr⟩
    · exact ⟨trivial, hqueued, Nat.le_refl _, fun hr => absurd rfl hr⟩
  | receivingFile f =>
    rw [hs] at h
    cases h
    exact ⟨hcurrent, hqueued, Nat.le_refl _, fun hr => absurd rfl hr⟩
  | closed =>
    rw [hs] at h
    cases h
    exact ⟨hcurrent, hqueued, Nat.le_refl _, fun hr => absurd rfl hr⟩

theorem firstLine_lt {text l t : Bytes} (h : firstLine text = some (l, t)) : t.length < text.length := by
  obtain ⟨n, hn, hlt⟩ := Option.map_eq_some_iff.1 h
  obtain ⟨-, rfl⟩ := Prod.mk.inj hlt
  obtain ⟨hsplit, -, hlen⟩ := strchr_eq_some hn
  have hall := congrArg List.length hsplit
  have hle := length_cStr_le text
  rw [List.length_append, List.length_cons, hlen] at hall
  rw [List.length_drop]
  omega

theorem parseBuffer_roomy : ∀ (fuel : Nat) (stat : TrStatistics) (cx : TrDataConnection) (text : Bytes) (behind : Bool)
    (r : Int) (stat' : TrStatistics) (cx' : TrDataConnection),
    parseBuffer e fuel stat cx text behind = some (r, stat', cx') → Sized cx.state →
    (∀ f ∈ cx.outputQueue, f.size < intMax) → text.length ≤ TR_SERVER_BUFFER_SIZE - 1 →
    (behind = true → text.length < TR_SERVER_BUFFER_SIZE - 1) → Roomy cx'
  | 0, _, _, _, _, _, _, _, h, _, _, _, _ => by cases h
  | fuel + 1, stat, cx, text, behind, r, stat', cx', h, hcurrent, hqueued, hlen, hbehind => by
    rw [parseBuffer] at h
    split at h
    · rename_i hclosed
      cases h
      exact ⟨hcurrent, hqueued, fun hopen => absurd hclosed hopen⟩
    · split at h
      · split at h
        · rename_i hb
          cases h
          exact ⟨hcurrent, hqueued, fun _ => hbehind hb⟩
        · split at h
          · cases h
            exact ⟨trivial, hqueued, fun hopen => absurd rfl hopen⟩
          · rename_i hroom
            cases h
            exact ⟨hcurrent, hqueued, fun _ => Nat.lt_of_not_le hroom⟩
      · rename_i line t hfirst
        have hlt := firstLine_lt hfirst
        split at h
        · cases h
        · rename_i r₁ stat₁ cx₁ t₁ hprocess
          obtain ⟨hcurrent₁, hqueued₁, hle, hclosed⟩ := processLine_sized hprocess hcurrent hqueued
          split at h
          · rename_i hr
            cases h
            exact ⟨hcurrent₁, hqueued₁, fun hopen => absurd (hclosed hr) hopen⟩
          · exact parseBuffer_roomy fuel stat₁ cx₁ t₁ true r stat' cx' h hcurrent₁ hqueued₁ (by omega) fun _ => by omega

theorem roomy_start (cxId : Nat) : Roomy (start cxId) :=
  ⟨trivial, fun _ hf => absurd hf List.not_mem_nil, fun _ => (by decide : 0 < TR_SERVER_BUFFER_SIZE - 1)⟩

/-- **Every call** keeps the room. -/
theorem roomy_read {data : Bytes} {r : Int} (h : cx.Roomy) (hne : data ≠ []) (hlen : data.length ≤ cx.asked)
    (hread : connectionRead e stat cx data = some (r, stat', cx')) : cx'.Roomy := by
  have hopen : cx.state ≠ .closed := by
    intro hclosed
    rw [connectionRead, if_pos hclosed] at hread
    cases hread
  have hbuffer := h.buffer hopen
  by_cases hdirect : cx.state.Direct
  · obtain ⟨f, hstate⟩ := exists_of_direct hdirect
    have hcurrent := h.current
    rw [hstate] at hcurrent
    obtain ⟨hshort, hfits⟩ := hcurrent
    have hasked : cx.asked = f.size.toNat - f.value.length := by
      rw [asked, hstate]
    rw [connectionRead, if_neg hopen, if_neg hne, hstate] at hread
    cases hread
    refine ⟨?_, h.queued, fun _ => hbuffer⟩
    simp only
    split
    · exact hfits
    · rename_i hall
      have hle : ((f.value ++ data).length : Int) ≤ f.size := by
        rw [List.length_append]
        omega
      exact ⟨lt_of_le_of_ne hle hall, hfits⟩
  · rw [connectionRead_buffered hopen hne hdirect] at hread
    rw [asked_buffered hdirect] at hlen
    have hfits : (cx.buffer ++ data).length ≤ TR_SERVER_BUFFER_SIZE - 1 := by
      rw [List.length_append]
      omega
    exact parseBuffer_roomy _ _ _ _ false r _ _ hread h.current h.queued hfits fun hb => by cases hb

/-! ## The files counted -/

/-- The `READY` line is sent, and the queue takes every file at once. -/
def willing : ServerEnv := ⟨6, fun _ _ => 0⟩

theorem willing_accepts : willing.Accepts 1 := ⟨rfl, fun _ => ⟨0, Nat.one_pos, rfl⟩⟩

/-- The `READY` line is sent, and the queue takes every file at this try. -/
def reluctant (tries : Nat) : ServerEnv := ⟨6, fun _ i => if i + 1 < tries then -1 else 0⟩

theorem reluctant_write (tries : Nat) (f : TrFile) (i : Nat) :
    (reluctant tries).queueWrite f i = if i + 1 < tries then -1 else 0 := rfl

theorem reluctant_accepts (hpos : 1 ≤ tries) : (reluctant tries).Accepts tries :=
  ⟨rfl, fun _ => ⟨tries - 1, by omega, if_neg (by omega)⟩⟩

theorem tries_reluctant (f : TrFile) : ∀ {n i : Nat}, i < tries → tries ≤ i + n →
    (reluctant tries).tries f n i = tries - i
  | 0, i, hi, hn => absurd hn (by omega)
  | n + 1, i, hi, hn => by
    rw [ServerEnv.tries]
    by_cases hlast : i + 1 < tries
    · rw [if_neg (by rw [reluctant_write, if_pos hlast]; decide), tries_reluctant f hlast (by omega)]
      omega
    · rw [if_pos (by rw [reluctant_write, if_neg hlast])]
      omega

/-- **The files of the queue were counted**, at so many tries each, from some numbers on. -/
structure Counted (tries : Nat) (stat₀ stat : TrStatistics) (queue : List TrFile) : Prop where
  bytes : stat.bytesReceived = stat₀.bytesReceived + tries * totalSize queue
  files : stat.filesReceived = stat₀.filesReceived + tries * queue.length
  room : stat₀.Room tries queue

variable {stat₀ : TrStatistics}

theorem Counted.append {queue : List TrFile} (h : Counted tries stat₀ stat queue) (htakes : stat.Takes f tries) :
    Counted tries stat₀ (stat.counted f tries) (queue ++ [f]) := by
  obtain ⟨hbytes, hfiles, -⟩ := h
  have hsize : totalSize (queue ++ [f]) = totalSize queue + f.size.toNat := by
    simp only [totalSize, List.map_append, List.sum_append, List.map_cons, List.map_nil, List.sum_cons, List.sum_nil,
      Nat.add_zero]
  have hlen : tries * (queue ++ [f]).length = tries * queue.length + tries := by
    rw [List.length_append, List.length_singleton, Nat.mul_succ]
  unfold TrStatistics.Takes at htakes
  refine ⟨?_, ?_, ?_, ?_⟩
  · show stat.bytesReceived + tries * f.size.toNat = _
    rw [hsize, Nat.mul_add, hbytes, Nat.add_assoc]
  · show stat.filesReceived + tries = _
    rw [hlen, hfiles, Nat.add_assoc]
  · rw [hsize, Nat.mul_add]
    omega
  · rw [hlen]
    omega

/-- **A line** counts the file it ends. -/
theorem processLine_counted {line t t' : Bytes} {r : Int} (hpos : 1 ≤ tries) (htries : tries ≤ 11)
    (h : processLine (reluctant tries) stat cx line t = some (r, stat', cx', t'))
    (hcounted : Counted tries stat₀ stat cx.outputQueue) : Counted tries stat₀ stat' cx'.outputQueue := by
  unfold processLine at h
  cases hs : cx.state with
  | waitingFileBegin =>
    rw [hs] at h
    simp only at h
    split at h
    · cases h
      exact hcounted
    · split at h
      · cases h
        exact hcounted
      · obtain ⟨⟨cx₁, t₁⟩, hbegin, hcx⟩ := Option.map_eq_some_iff.1 h
        obtain ⟨n, -, hn⟩ := Option.map_eq_some_iff.1 hbegin
        cases hn
        cases hcx
        exact hcounted
  | waitingFileEnd f =>
    rw [hs] at h
    simp only at h
    split at h
    · obtain ⟨⟨taken, stat₁⟩, hwrite, hcx⟩ := Option.map_eq_some_iff.1 h
      obtain ⟨rfl, htakes, htaken⟩ := writeFile_eq_some hwrite
      have htries' : (reluctant tries).tries f.file 11 0 = tries := tries_reluctant f.file hpos (by omega)
      obtain rfl : taken = true := htaken.2 ⟨tries - 1, by omega, if_neg (by omega)⟩
      cases hcx
      rw [htries'] at htakes ⊢
      exact hcounted.append (htakes (by decide))
    · cases h
      exact hcounted
  | init =>
    rw [hs] at h
    cases h
    split
    · exact hcounted
    · exact hcounted
  | receivingFile f =>
    rw [hs] at h
    cases h
    exact hcounted
  | closed =>
    rw [hs] at h
    cases h
    exact hcounted

theorem parseBuffer_counted (hpos : 1 ≤ tries) (htries : tries ≤ 11) : ∀ (fuel : Nat) (stat : TrStatistics)
    (cx : TrDataConnection) (text : Bytes) (behind : Bool) (r : Int) (stat' : TrStatistics) (cx' : TrDataConnection),
    parseBuffer (reluctant tries) fuel stat cx text behind = some (r, stat', cx') →
    Counted tries stat₀ stat cx.outputQueue → Counted tries stat₀ stat' cx'.outputQueue
  | 0, _, _, _, _, _, _, _, h, _ => by cases h
  | fuel + 1, stat, cx, text, behind, r, stat', cx', h, hcounted => by
    rw [parseBuffer] at h
    split at h
    · cases h
      exact hcounted
    · split at h
      · split at h
        · cases h
          exact hcounted
        · split at h
          · cases h
            exact hcounted
          · cases h
            exact hcounted
      · split at h
        · cases h
        · rename_i r₁ stat₁ cx₁ t₁ hprocess
          have hcounted₁ := processLine_counted hpos htries hprocess hcounted
          split at h
          · cases h
            exact hcounted₁
          · exact parseBuffer_counted hpos htries fuel stat₁ cx₁ t₁ true r stat' cx' h hcounted₁

theorem counted_read {data : Bytes} {r : Int} (hpos : 1 ≤ tries) (htries : tries ≤ 11)
    (hread : connectionRead (reluctant tries) stat cx data = some (r, stat', cx'))
    (hcounted : Counted tries stat₀ stat cx.outputQueue) : Counted tries stat₀ stat' cx'.outputQueue := by
  rw [connectionRead] at hread
  split at hread
  · cases hread
  · split at hread
    · cases hread
      exact hcounted
    · split at hread
      · cases hread
        exact hcounted
      · exact parseBuffer_counted hpos htries _ _ _ _ _ _ _ _ hread hcounted

/-! ## The stream byte by byte -/

/-- Reads of one byte each; the statistics are not printed. -/
def byByte (tries : Nat) (text : Bytes) : List Reception.Call := text.map fun b => ⟨false, reluctant tries, [b]⟩

theorem flatten_byByte (tries : Nat) (text : Bytes) : ((byByte tries text).map (·.data)).flatten = text := by
  induction text with
  | nil => rfl
  | cons b text ih => exact congrArg (b :: ·) ih

/-- What holds in such a run. -/
structure ByByte (tries : Nat) (stat₀ : TrStatistics) (s : Reception) : Prop where
  roomy : s.cx.Roomy
  counted : Counted tries stat₀ s.stat s.cx.outputQueue

theorem ByByte.step {s s' : Reception} {b : UInt8} (h : ByByte tries stat₀ s) (hpos : 1 ≤ tries) (htries : tries ≤ 11)
    (hs : s.step ⟨false, reluctant tries, [b]⟩ = some s') : ByByte tries stat₀ s' := by
  obtain ⟨⟨r, stat, cx⟩, hread, rfl⟩ := Option.map_eq_some_iff.1 hs
  have hopen : s.cx.state ≠ .closed := by
    intro hclosed
    rw [connectionRead, if_pos hclosed] at hread
    cases hread
  exact ⟨roomy_read h.roomy (List.cons_ne_nil b []) (h.roomy.asked_pos hopen) hread,
    counted_read hpos htries hread h.counted⟩

theorem legal_byByte (hpos : 1 ≤ tries) (htries : tries ≤ 11) : ∀ (text : Bytes) (s : Reception),
    ByByte tries stat₀ s → Legal Reception.step (Reception.Reads tries) s (byByte tries text)
  | [], _, _ => trivial
  | _ :: text, _, h =>
    ⟨⟨reluctant_accepts hpos, List.cons_ne_nil _ _, h.roomy.asked_pos⟩,
      fun s' hs => legal_byByte hpos htries text s' (h.step hpos htries hs)⟩

theorem run_byByte (hpos : 1 ≤ tries) (htries : tries ≤ 11) : ∀ (text : Bytes) (s s' : Reception),
    ByByte tries stat₀ s → run Reception.step s (byByte tries text) = some s' → ByByte tries stat₀ s'
  | [], s, s', h, hr => Option.some.inj hr ▸ h
  | b :: text, s, s', h, hr => by
    obtain ⟨s₁, hs, hr⟩ := Option.bind_eq_some_iff.1 hr
    exact run_byByte hpos htries text s₁ s' (h.step hpos htries hs) hr

/-! ## Round trip -/

/-- **The server receives what the client sends**, however it is read: these files in this order, and the connection is
open then; it does not open again when it was closed.  The output queue takes each file at one of so many tries, and the
server has counted so much before. -/
def Received (c : TrClient) (files : List TrFile) (tries : Nat) (stat : TrStatistics) : Prop :=
  ∀ (cxId : Nat) (calls : List Reception.Call),
    (calls.map (·.data)).flatten = c.iniLine ++ files.flatMap TrFile.encode →
    Legal Reception.step (Reception.Reads tries) ⟨stat, start cxId⟩ calls →
    ∃ s, run Reception.step ⟨stat, start cxId⟩ calls = some s ∧
      s.cx.outputQueue.map TrFile.contents = files.map TrFile.contents ∧ s.cx.state ≠ .closed

theorem received_of_fits (hopens : c.Opens) (hfiles : ∀ f ∈ files, f.Sendable ∧ Fits f) (htries : tries ≤ 11)
    (hroom : stat.Room tries files) : Received c files tries stat := by
  intro cxId calls hflatten hl
  have hstart : Between c files (start cxId) (calls.map (·.data)).flatten files := by
    rw [hflatten]
    exact between_start hopens cxId
  obtain ⟨s, fs, hr, h⟩ := run_between hopens hfiles htries calls ⟨stat, start cxId⟩ files hstart hroom hl
  obtain rfl := h.done hfiles
  obtain ⟨done, hsplit, hqueue⟩ := h.1.delivered
  rw [List.append_nil] at hsplit
  exact ⟨s, hr, by rw [hsplit]; exact hqueue, h.1.isOpen⟩

/-- Files of the same contents are of the same size in total. -/
theorem totalSize_congr {fs gs : List TrFile} (h : fs.map TrFile.contents = gs.map TrFile.contents) :
    totalSize fs = totalSize gs := by
  have hsize : ∀ fs : List TrFile, totalSize fs = ((fs.map TrFile.contents).map (·.2.2.2.2.toNat)).sum := fun fs => by
    rw [List.map_map]
    rfl
  rw [hsize, hsize, h]

/-- **What is received fits**: there was room for each file, and all could be counted. -/
theorem fits_of_received (h : Received c files tries stat) (hpos : 1 ≤ tries) (htries : tries ≤ 11)
    (hstat : stat.Room tries []) : (∀ f ∈ files, Fits f) ∧ stat.Room tries files := by
  have hstart : ByByte tries stat ⟨stat, start 0⟩ := ⟨roomy_start 0, rfl, rfl, hstat⟩
  obtain ⟨s, hr, hqueue, -⟩ := h 0 (byByte tries _) (flatten_byByte tries _) (legal_byByte hpos htries _ _ hstart)
  obtain ⟨hroomy, -, -, hroom⟩ := run_byByte hpos htries _ _ s hstart hr
  refine ⟨fun f hf => ?_, ?_, ?_⟩
  · have hmem : f.contents ∈ s.cx.outputQueue.map TrFile.contents := by
      rw [hqueue]
      exact List.mem_map_of_mem hf
    obtain ⟨g, hg, hcontents⟩ := List.mem_map.1 hmem
    have hsize : g.size = f.size := congrArg (·.2.2.2.2) hcontents
    unfold Fits
    rw [← hsize]
    exact hroomy.queued g hg
  · rw [← totalSize_congr hqueue]
    exact hroom.bytes
  · have hlen := congrArg List.length hqueue
    rw [List.length_map, List.length_map] at hlen
    rw [← hlen]
    exact hroom.files

/-- **The round trip** holds exactly for the files the data of which, with a NUL behind it, has a size that is an `int`,
if the server's counters have room for all of them, at every try the output queue needs. -/
theorem roundTrip_iff (c : TrClient) (files : List TrFile) (tries : Nat) (stat : TrStatistics) (hopens : c.Opens)
    (hsend : ∀ f ∈ files, f.Sendable) (htries : 1 ≤ tries ∧ tries ≤ 11)
    (hstat : stat.bytesReceived < 2 ^ 31 ∧ stat.filesReceived < 2 ^ 31) :
    Received c files tries stat ↔ (∀ f ∈ files, f.size < 2 ^ 31 - 1) ∧
      stat.bytesReceived + tries * totalSize files < 2 ^ 31 ∧ stat.filesReceived + tries * files.length < 2 ^ 31 := by
  have hmax : intMax = 2 ^ 31 - 1 := rfl
  constructor
  · intro h
    have hnone : stat.Room tries [] := by
      refine ⟨?_, ?_⟩
      · show stat.bytesReceived + tries * 0 ≤ intMax
        omega
      · show stat.filesReceived + tries * 0 ≤ intMax
        omega
    obtain ⟨hfits, hroom⟩ := fits_of_received h htries.1 htries.2 hnone
    have hbytes := hroom.bytes
    have hcount := hroom.files
    exact ⟨hfits, by omega, by omega⟩
  · rintro ⟨hfits, hbytes, hcount⟩
    exact received_of_fits hopens (fun f hf => ⟨hsend f hf, hfits f hf⟩) htries.2 ⟨by omega, by omega⟩

/-- A client without a name. -/
def plainClient : TrClient := .start 10 ⟨[], List.not_mem_nil⟩ 0 none

/-- A file of two blobs that look like lines, with a NUL between. -/
def oddFile : TrFile := ⟨0, ⟨some unknown, -1, 7, 0⟩, [ascii "END\n".toList, [0, newline]], 6⟩

theorem unknown_word : ∀ c ∈ unknown.1, isSpace c = false := by
  have hall : (unknown.1.all fun c => decide (isSpace c = false)) = true := by decide
  exact fun c hc => of_decide_eq_true (List.all_eq_true.1 hall c hc)

theorem oddFile_sendable : oddFile.Sendable where
  source := ⟨unknown, rfl, by decide, unknown_word⟩
  minId := by decide
  majId := by decide
  data := by decide
  size := by decide
  header := by decide +kernel

theorem roundTrip_iff_oddFile :
    (plainClient.Opens ∧ (∀ f ∈ [oddFile, oddFile], f.Sendable) ∧ (1 ≤ 2 ∧ 2 ≤ 11)) ∧
      (Received plainClient [oddFile, oddFile] 2 ⟨0, 0⟩ ↔ (∀ f ∈ [oddFile, oddFile], f.size < 2 ^ 31 - 1) ∧
        0 + 2 * totalSize [oddFile, oddFile] < 2 ^ 31 ∧ 0 + 2 * [oddFile, oddFile].length < 2 ^ 31) := by
  have hopens : plainClient.Opens := ⟨List.not_mem_nil, by decide +kernel⟩
  have hsend : ∀ f ∈ [oddFile, oddFile], f.Sendable := by
    intro f hf
    rw [List.eq_of_mem_replicate (n := 2) hf]
    exact oddFile_sendable
  exact ⟨⟨hopens, hsend, by decide⟩,
    roundTrip_iff plainClient [oddFile, oddFile] 2 ⟨0, 0⟩ hopens hsend (by decide) ⟨by decide, by decide⟩⟩

/-! ## The largest size -/

/-- A file of the largest size an `int` holds. -/
def largestFile : TrFile := ⟨0, ⟨some unknown, 1, 1, 0⟩, [List.replicate (2 ^ 31 - 1) 65], 2 ^ 31 - 1⟩

theorem largestFile_sendable : largestFile.Sendable where
  source := ⟨unknown, rfl, by decide, unknown_word⟩
  minId := by decide
  majId := by decide
  data := by
    unfold largestFile
    rw [List.flatten_cons, List.flatten_nil, List.append_nil, List.length_replicate]
    decide
  size := by decide
  header := by decide +kernel

/-- **The largest file is not received**: at its header line, the number of bytes asked for overflows. -/
theorem largestFile_not_received : plainClient.Opens ∧ largestFile.Sendable ∧
    run Reception.step ⟨⟨0, 0⟩, start 0⟩
      [⟨false, willing, plainClient.iniLine⟩, ⟨false, willing, largestFile.header⟩] = none ∧
      ¬Received plainClient [largestFile] 1 ⟨0, 0⟩ := by
  refine ⟨⟨List.not_mem_nil, by decide +kernel⟩, largestFile_sendable, by decide +kernel, fun h => ?_⟩
  have hnone : TrStatistics.Room ⟨0, 0⟩ 1 [] := ⟨by decide, by decide⟩
  have hfits : largestFile.size < intMax :=
    (fits_of_received h (Nat.le_refl 1) (by decide) hnone).1 largestFile List.mem_cons_self
  exact absurd hfits (by decide)

end TrDataConnection
end Transport
end Flp
