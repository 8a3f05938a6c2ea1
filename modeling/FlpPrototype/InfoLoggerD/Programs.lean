import FlpPrototype.InfoLoggerD.Logging
import FlpPrototype.Message.Log
/-!
# Programs — from the calls of `log` to the dispatchers

What a program's calls send goes through its socket to the daemon in reads of any size.  The daemon finds the records in
them exactly when no read begins with a newline (`allCutWell_iff`), and then each comes to where the messages of the
server are as the one message that was logged, in the order of the calls (`logged_arrives`).
-/
namespace Flp
namespace Logging

open InfoLoggerD (Served on received frame CutsWell AllCutWell received_iff)
open InfoLoggerServer (Server Outcome msgList)
open Transport (TrClient)
open Transport.System (FreshOn)
open Message

variable {D : Type} (dt : DoubleText D)

/-! ## Reads of a stream without empty lines -/

/-- Two newlines with nothing between them. -/
theorem nil_mem_cutLines {before : Bytes} (h : (cutLines newline before).2 = []) (rest : Bytes) :
    [] ∈ (cutLines newline (before ++ newline :: rest)).1 := by
  rw [List.append_cons]
  refine (cutLines_mono newline (before ++ [newline]) rest).subset ?_
  rw [cutLines_append_singleton, cutStep, if_pos rfl, h]
  exact List.mem_append_right _ (List.mem_singleton_self _)

theorem cutsWell_iff_head {before chunk rest : Bytes}
    (h : ∀ l ∈ (cutLines newline (before ++ (chunk ++ rest))).1, l ≠ []) :
    CutsWell before chunk ↔ chunk.head? ≠ some newline := by
  constructor
  · rintro ⟨hfirst, -⟩ hhead
    obtain ⟨tail, rfl⟩ : ∃ tail, chunk = newline :: tail := by
      cases chunk with
      | nil => cases hhead
      | cons c tail => exact ⟨tail, by rw [Option.some.inj hhead]⟩
    exact h [] (nil_mem_cutLines (hfirst tail rfl).2 _) rfl
  · intro hhead
    refine ⟨fun tail htail => absurd (by rw [htail]; rfl) hhead, fun pre tail htail => ?_⟩
    have hempty : (cutLines newline (before ++ pre ++ [newline])).2 = [] := by
      rw [cutLines_append_singleton, cutStep, if_pos rfl]
    refine absurd rfl (h [] ?_)
    have hmem := nil_mem_cutLines hempty (tail ++ rest)
    rw [htail]
    simpa [List.append_assoc] using hmem

/-- **Reads are cut well** when none begins with a newline, if no line is empty. -/
theorem allCutWell_iff : ∀ (chunks : List Bytes) (before : Bytes),
    (∀ l ∈ (cutLines newline (before ++ chunks.flatten)).1, l ≠ []) →
    (AllCutWell before chunks ↔ ∀ chunk ∈ chunks, chunk.head? ≠ some newline)
  | [], _, _ => ⟨fun _ _ h => absurd h List.not_mem_nil, fun _ => trivial⟩
  | c :: cs, before, h => by
    rw [List.flatten_cons] at h
    rw [AllCutWell, cutsWell_iff_head h, allCutWell_iff cs (before ++ c) (by rwa [List.append_assoc]),
      List.forall_mem_cons]

/-! ## What a program sends -/

/-- A call of `log`: the time it finds, its severity and the text its format makes. -/
structure Call (D : Type) where
  now : Option D
  severity : Severity
  text : CString

variable {dt}

/-- The buffer handed to the socket. -/
def Call.bytes (dt : DoubleText D) (info : ProcessInfo) (call : Call D) : Option Bytes :=
  (logV dt info call.now call.severity call.text).map Prod.snd

/-- Its records. -/
def Call.lines (dt : DoubleText D) (info : ProcessInfo) (call : Call D) : List Bytes :=
  ((call.bytes dt info).map fun b => (cutLines newline b).1).getD []

/-- What the calls of a program send, one behind the other. -/
def logged (dt : DoubleText D) (info : ProcessInfo) : List (Call D) → Option Bytes
  | []            => some []
  | call :: calls => (call.bytes dt info).bind fun b => (logged dt info calls).map (b ++ ·)

/-- The head of a call's records leaves room in the buffer. -/
def Call.Fits (dt : DoubleText D) (info : ProcessInfo) (call : Call D) : Prop :=
  (logHead dt info call.now call.severity).length + 8 ≤ LOG_MAX_SIZE

variable {info : ProcessInfo} {calls : List (Call D)}

theorem headText_plain (info : ProcessInfo) (now : Option D) (severity : Severity) :
    ∀ c ∈ logHead dt info now severity, c ≠ 0 ∧ c ≠ newline := by
  intro c hc
  rcases List.mem_append.1 hc with hc | hc
  · rcases List.mem_append.1 hc with hc | hc
    · have hall : (star :: protocol14.version).all (fun c => decide (c ≠ 0 ∧ c ≠ newline)) = true := by decide
      exact of_decide_eq_true (List.all_eq_true.1 hall c hc)
    · obtain ⟨v, -, hc⟩ := List.mem_flatMap.1 hc
      rcases List.mem_cons.1 hc with rfl | hc
      · decide
      · have hplain := valueText_plain dt v c hc
        exact ⟨hplain.1, hplain.2.2.2⟩
  · rw [List.mem_singleton.1 hc]
    decide

/-- A line sent for a call: the head of its records and a text. -/
def LineOf (dt : DoubleText D) (info : ProcessInfo) (call : Call D) (line : Bytes) : Prop :=
  ∃ text : CString, line = logHead dt info call.now call.severity ++ text.1 ∧ ∀ c ∈ text.1, Plain c

theorem LineOf.bytes {call : Call D} {line : Bytes} (h : LineOf dt info call line) :
    line ≠ [] ∧ 0 ∉ line ∧ newline ∉ line := by
  obtain ⟨text, rfl, hplain⟩ := h
  have hmem : ∀ c ∈ logHead dt info call.now call.severity ++ text.1, c ≠ 0 ∧ c ≠ newline := fun c hc => by
    rcases List.mem_append.1 hc with hc | hc
    · exact headText_plain _ _ _ c hc
    · exact ⟨(hplain c hc).1, (hplain c hc).2.2.2⟩
  refine ⟨?_, fun h => (hmem 0 h).1 rfl, fun h => (hmem newline h).2 rfl⟩
  rw [logHead, List.append_assoc, List.cons_append]
  exact List.cons_ne_nil _ _

/-- What a call sends are lines with its head. -/
theorem Call.bytes_lines {call : Call D} (h : call.Fits dt info) :
    call.bytes dt info = some ((call.lines dt info).flatMap fun line => line ++ [newline]) ∧
      ∀ line ∈ call.lines dt info, LineOf dt info call line := by
  obtain ⟨code, texts, hsent, hshown⟩ := logV_shown dt h call.text
  have hlines : ∀ line ∈ texts.map (logHead dt info call.now call.severity ++ ·), LineOf dt info call line :=
    fun line hl => by
    obtain ⟨text, htext, rfl⟩ := List.mem_map.1 hl
    exact ⟨⟨text, fun h => (hshown.plain text htext 0 h).1 rfl⟩, rfl, hshown.plain text htext⟩
  have hbytes : call.bytes dt info =
      some ((texts.map (logHead dt info call.now call.severity ++ ·)).flatMap fun line => line ++ [newline]) := by
    rw [Call.bytes, hsent, Option.map_some, List.flatMap_map]
    rfl
  have heq : call.lines dt info = texts.map (logHead dt info call.now call.severity ++ ·) := by
    rw [Call.lines, hbytes, Option.map_some, Option.getD_some,
      cutLines_flatMap newline fun l hl => (hlines l hl).bytes.2.2]
  rw [heq]
  exact ⟨hbytes, hlines⟩

theorem logged_lines : ∀ {calls : List (Call D)}, (∀ call ∈ calls, call.Fits dt info) →
    logged dt info calls = some ((calls.flatMap (Call.lines dt info)).flatMap fun line => line ++ [newline])
  | [], _ => rfl
  | call :: calls, h => by
    rw [logged, (Call.bytes_lines (h call List.mem_cons_self)).1, Option.bind_some,
      logged_lines fun c hc => h c (List.mem_cons_of_mem _ hc), Option.map_some, List.flatMap_cons, List.flatMap_append]

/-! ## The daemon and the server -/

variable {isInit : Bool} {size nBase n maxClients : Nat} {max : Int} {clients : Nat → TrClient} {s : Logging D}
  {c k : Nat}

/-- Where the records of a message of a program are: not handed over yet, or kept by the permanent FIFO, or decoded by
the server to the one message and in a queue of a dispatcher, or lost because all were full. -/
def Arrives (size n : Nat) (client : TrClient) (s : Logging D) (c i : Nat) (m : Msg D) : Prop :=
  (s.readers c).handed ≤ i ∨
    (∃ fifo r, (s.chain.transport.stations c).tracked.client.inputQueueMsg = some fifo ∧
      fifo.written[(recovered client).length + i]? = some r ∧
      ∀ x ∈ (s.chain.transport.stations c).tracked.permAcks, x < r.id) ∨
    ∃ (j : Nat) (o : Outcome (List (Msg D))), s.chain.server.outcomes[j]? = some o ∧
      ((∃ d e, o = .kept [m] d ∧ s.chain.server.dispatchEnginesDB[d]? = some e ∧
        some [m] ∈ e.input.pushed) ∨
        ∃ full, o = .lost [m] full ∧ Server.Full size n full)

theorem Accounted.arrives {client : TrClient} {i : Nat} {msg : Bytes} {m : Msg D}
    (h : Accounted dt isInit size n client s c i msg) (hmsg : msgList dt isInit [msg ++ [0]] = some [m]) :
    Arrives size n client s c i m := by
  rcases h with hleft | ⟨fifo, r, hfifo, hr, -, hacks | ⟨f, hblobs, j, o, -, ho, houtcome⟩⟩
  · exact .inl hleft
  · exact .inr (.inl ⟨fifo, r, hfifo, hr, hacks⟩)
  · rw [hblobs, hmsg] at houtcome
    exact .inr (.inr ⟨j, o, ho, houtcome⟩)

theorem msgList_line {call : Call D} {text : CString} (hplain : ∀ c ∈ text.1, Plain c) :
    msgList dt isInit [logHead dt info call.now call.severity ++ text.1 ++ [0]] =
      some [loggedMsg dt info call.now call.severity text] := by
  rw [msgList, infoLogDecode_one dt (decodeBlob_log dt isInit info call.now call.severity text hplain)]
  rfl

/-- What programs send has no empty line and no NUL in a line, and the lines of a part are the first records. -/
theorem logged_frame (hfits : ∀ call ∈ calls, call.Fits dt info) {bytes stream : Bytes}
    (hbytes : logged dt info calls = some bytes) (hstream : stream <+: bytes) :
    (frame stream).1 = (cutLines newline stream).1 ∧ (frame stream).1 <+: calls.flatMap (Call.lines dt info) ∧
      ∀ l ∈ (frame stream).1, l ≠ [] ∧ 0 ∉ l := by
  have hlines : ∀ line ∈ calls.flatMap (Call.lines dt info), line ≠ [] ∧ 0 ∉ line ∧ newline ∉ line :=
    fun line hline => by
    obtain ⟨call, hcall, hline⟩ := List.mem_flatMap.1 hline
    exact ((Call.bytes_lines (hfits call hcall)).2 line hline).bytes
  have hfirst : (cutLines newline stream).1 <+: calls.flatMap (Call.lines dt info) := by
    obtain ⟨rest, hrest⟩ := hstream
    have hmono := cutLines_mono newline stream rest
    rw [logged_lines hfits] at hbytes
    rwa [hrest, ← Option.some.inj hbytes, cutLines_flatMap newline fun l hl => (hlines l hl).2.2] at hmono
  have hframe : (frame stream).1 = (cutLines newline stream).1 :=
    List.filter_eq_self.2 fun l hl => decide_eq_true (hlines l (hfirst.subset hl)).1
  rw [hframe]
  exact ⟨rfl, hfirst, fun l hl => ⟨(hlines l (hfirst.subset hl)).1, (hlines l (hfirst.subset hl)).2.1⟩⟩

/-- **The daemon finds the records a program sent** exactly when no read begins with a newline. -/
theorem received_logged_iff (hfits : ∀ call ∈ calls, call.Fits dt info) {bytes : Bytes} {chunks : List Bytes}
    (hbytes : logged dt info calls = some bytes) (hreads : chunks.flatten <+: bytes) :
    received chunks = frame chunks.flatten ↔ ∀ chunk ∈ chunks, chunk.head? ≠ some newline := by
  obtain ⟨hframe, -, hlines⟩ := logged_frame hfits hbytes hreads
  rw [received_iff chunks fun l hl => (hlines l hl).2]
  refine allCutWell_iff chunks [] fun l hl => (hlines l ?_).1
  rw [hframe]
  exact hl

/-- **What programs log arrives**, in any run: when the reads of a connection are what a program's calls send, none
beginning with a newline, the daemon's messages for it are the records of the calls in their order, and each is where
the messages are as what was logged. -/
theorem logged_arrives (dt : DoubleText D) (isInit : Bool) (hsize : size < intMax) (clients : Nat → TrClient)
    (max : Int) (maxClients nBase n : Nat) (hfresh : ∀ c, FreshOn (clients c)) (s₀ : Logging D)
    (hs : start max clients maxClients size nBase n = some s₀) (as : List (Action D))
    (hl : Legal (step dt isInit size) Rule s₀ as) (hr : run (step dt isInit size) s₀ as = some s)
    (hfits : ∀ call ∈ calls, call.Fits dt info) (bytes : Bytes) (hbytes : logged dt info calls = some bytes)
    (hreads : (on k (s.readers c).served.reads).flatten <+: bytes)
    (hhead : ∀ chunk ∈ on k (s.readers c).served.reads, chunk.head? ≠ some newline) :
    on k (s.readers c).served.sent = (cutLines newline (on k (s.readers c).served.reads).flatten).1 ∧
      on k (s.readers c).served.sent <+: calls.flatMap (Call.lines dt info) ∧
      ∀ (i : Nat) x, (s.readers c).served.sent[i]? = some x → x.1 = k → ∃ call ∈ calls, ∃ text : CString,
        x.2 = logHead dt info call.now call.severity ++ text.1 ∧
        Arrives size n (clients c) s c i (loggedMsg dt info call.now call.severity text) := by
  obtain ⟨hkept, haccounted⟩ := message_accounted dt isInit hsize clients max maxClients nBase n hfresh s₀ hs as hl hr c
  obtain ⟨hframe, hfirst, -⟩ := logged_frame hfits hbytes hreads
  have hsent : on k (s.readers c).served.sent = (frame (on k (s.readers c).served.reads).flatten).1 := by
    rw [hkept.sent, (received_logged_iff hfits hbytes hreads).2 hhead]
  rw [← hsent] at hfirst
  refine ⟨hsent.trans hframe, hfirst, fun i x hx hk => ?_⟩
  have hmem : x.2 ∈ on k (s.readers c).served.sent :=
    List.mem_map_of_mem (List.mem_filter.2 ⟨List.mem_of_getElem? hx, decide_eq_true hk⟩)
  obtain ⟨call, hcall, hline⟩ := List.mem_flatMap.1 (hfirst.subset hmem)
  obtain ⟨text, htext, hplain⟩ := (Call.bytes_lines (hfits call hcall)).2 x.2 hline
  refine ⟨call, hcall, text, htext, (haccounted i x hx).arrives ?_⟩
  rw [htext]
  exact msgList_line hplain

/-- An error that is logged, and its record in two reads. -/
def failure : Call Nat := ⟨some 5, .error, CString.at (ascii ['h', 'i'])⟩

def failureBytes : Bytes := logHead wholeNumbers pcInfo (some 5) .error ++ ascii ['h', 'i', '\n']

def failureReads : List Bytes := [failureBytes.take 10, failureBytes.drop 10]

theorem logged_arrives_failure : ∃ fifo, ∃ s₀ s : Logging Nat,
    start 1 (Transport.System.messageClients fifo) 1 4 1 1 = some s₀ ∧
    run (step wholeNumbers false 4) s₀ (oneLine failureReads) = some s ∧ (s.readers 0).served.sent.length = 1 ∧
    on 0 (s.readers 0).served.sent <+: [failure].flatMap (Call.lines wholeNumbers pcInfo) ∧
    ∀ (i : Nat) x, (s.readers 0).served.sent[i]? = some x → x.1 = 0 → ∃ call ∈ [failure], ∃ text : CString,
      x.2 = logHead wholeNumbers pcInfo call.now call.severity ++ text.1 ∧
      Arrives 4 1 (Transport.System.messageClients fifo 0) s 0 i
        (loggedMsg wholeNumbers pcInfo call.now call.severity text) := by
  have hruns : (Perm.permFifoNew Perm.calm (Perm.dirOf .empty) 4).any (fun fifo =>
      (start 1 (Transport.System.messageClients fifo) 1 4 1 1 : Option (Logging Nat)).any fun s₀ =>
        decide (Legal (step wholeNumbers false 4) Fits s₀ (oneLine failureReads)) &&
        (run (step wholeNumbers false 4) s₀ (oneLine failureReads)).any fun s =>
          decide ((s.readers 0).served.sent.length = 1 ∧ on 0 (s.readers 0).served.reads = failureReads)) = true := by
    decide +kernel
  obtain ⟨fifo, hfifo, h⟩ := (Option.any_eq_true _ _).1 hruns
  obtain ⟨s₀, hs, h⟩ := (Option.any_eq_true _ _).1 h
  obtain ⟨hlegal, hrun⟩ := Bool.and_eq_true_iff.1 h
  obtain ⟨s, hr, h⟩ := (Option.any_eq_true _ _).1 hrun
  obtain ⟨hsent, hreads⟩ := of_decide_eq_true h
  have hbytes : logged wholeNumbers pcInfo [failure] = some failureBytes := by decide +kernel
  have hfits : ∀ call ∈ [failure], call.Fits wholeNumbers pcInfo := fun call hcall => by
    rw [List.mem_singleton.1 hcall, Call.Fits]
    decide +kernel
  obtain ⟨-, hfirst, harrives⟩ := logged_arrives (c := 0) (k := 0) wholeNumbers false (by decide)
    (Transport.System.messageClients fifo) 1 1 1 1 (Transport.System.messageClients_fresh hfifo) s₀ hs
      (oneLine failureReads)
    ((of_decide_eq_true hlegal).and fun a ha _ => oneLine_works _ a ha) hr hfits failureBytes hbytes
    (by rw [hreads]; decide +kernel) (by rw [hreads]; decide +kernel)
  exact ⟨fifo, s₀, s, hs, hr, hsent, hfirst, harrives⟩

end Logging
end Flp
