import FlpPrototype.Transport.Client
/-!
# ClientWire — what the socket is given

The thread sends a file in pieces: the header line, each blob, and the line behind the data.  `Part` says what is still
to be sent of the file under way, from the variables of the state machine.  What the socket has taken on a connection is
the line of the opening, the finished files, and the rest of the one under way less what is still to be sent (`Wired`).
-/
namespace Flp
namespace Transport

namespace TrClient

variable {c c' : TrClient} {f : TrFile} {s : Option TrFile} {r : Bytes}

/-- What is still to be sent of the file under way. -/
inductive Part (c : TrClient) : Option TrFile → Bytes → Prop
  | idle (h : c.dataDone) (hdeinit : c.fileTransfertDeinit = false) : Part c none []
  | header {f : TrFile} (hfile : c.currentFile = some f) (hempty : c.sendBuf.start = c.sendBuf.value.length)
      (hinit : c.fileTransfertInit = false) (hdeinit : c.fileTransfertDeinit = true) : Part c (some f) f.encode
  | data {f : TrFile} (hfile : c.currentFile = some f) (hstart : c.sendBuf.start ≤ c.sendBuf.value.length)
      (hinit : c.fileTransfertInit = true) (hdeinit : c.fileTransfertDeinit = true) :
      Part c (some f) (c.sendBuf.rest ++ (c.currentBlob.flatten ++ trailer))
  | tail {f : TrFile} (h : c.dataDone) (hdeinit : c.fileTransfertDeinit = true) : Part c (some f) trailer
  | last {f : TrFile} (hfile : c.currentFile = none) (hstart : c.sendBuf.start < c.sendBuf.value.length)
      (hdeinit : c.fileTransfertDeinit = false) : Part c (some f) c.sendBuf.rest

theorem Part.congr (h : Part c s r) (hfile : c'.currentFile = c.currentFile) (hblob : c'.currentBlob = c.currentBlob)
    (hbuf : c'.sendBuf = c.sendBuf) (hinit : c'.fileTransfertInit = c.fileTransfertInit)
    (hdeinit : c'.fileTransfertDeinit = c.fileTransfertDeinit) : Part c' s r := by
  have hdone : c.dataDone → c'.dataDone := fun h => ⟨hfile.trans h.1, by rw [hbuf]; exact h.2⟩
  cases h with
  | idle h h' => exact .idle (hdone h) (hdeinit.trans h')
  | header h h' h'' h''' =>
      exact .header (hfile.trans h) (by rw [hbuf]; exact h') (hinit.trans h'') (hdeinit.trans h''')
  | data h h' h'' h''' =>
    rw [← hbuf, ← hblob]
    exact .data (hfile.trans h) (by rw [hbuf]; exact h') (hinit.trans h'') (hdeinit.trans h''')
  | tail h h' => exact .tail (hdone h) (hdeinit.trans h')
  | last h h' h'' =>
    rw [← hbuf]
    exact .last (hfile.trans h) (by rw [hbuf]; exact h') (hdeinit.trans h'')

theorem rest_eq_nil {b : TrBuffer} (h : b.start = b.value.length) : b.rest = [] := by
  rw [TrBuffer.rest, h, List.drop_length]

theorem length_rest (b : TrBuffer) : b.rest.length = b.value.length - b.start := List.length_drop

/-- With nothing in the buffer and no file with data to send, the last file has been sent or its last line is to
come. -/
theorem Part.dataDone (h : Part c s r) (hdone : c.dataDone) :
    (s = none ∧ r = [] ∧ c.fileTransfertDeinit = false) ∨ (r = trailer ∧ c.fileTransfertDeinit = true) := by
  cases h with
  | idle _ hdeinit => exact .inl ⟨rfl, rfl, hdeinit⟩
  | header hfile => exact absurd (hfile.symm.trans hdone.1) (Option.some_ne_none _)
  | data hfile => exact absurd (hfile.symm.trans hdone.1) (Option.some_ne_none _)
  | tail _ hdeinit => exact .inr ⟨rfl, hdeinit⟩
  | last _ hstart => exact absurd hdone.2 (Nat.ne_of_lt hstart)

theorem Part.begin (f : TrFile) (hdone : c.dataDone) : Part (c.beginFile f) (some f) f.encode :=
  .header rfl hdone.2 rfl rfl

/-! ## The choice of the next file -/

theorem readMessage_step (e : Perm.Env) (m : Perm.Session) :
    m.step (e, .read) = (readMessage e m).map Prod.snd := by
  unfold readMessage
  simp only [Perm.Session.step, Option.map_map]
  refine congrArg (fun g => (Perm.permFifoRead e m.fifo).map g) (funext fun r => ?_)
  by_cases hcode : r.1 = 0
  · simp only [Function.comp, if_pos hcode]
  · simp only [Function.comp, if_neg hcode]

/-- The permanent FIFO is as before, or was read with nothing to take out. -/
def ReadNothing (e : Perm.Env) (c : TrClient) (m : Option Perm.Session) : Prop :=
  m = c.inputQueueMsg ∨ ∃ m₀ m', c.inputQueueMsg = some m₀ ∧ m = some m' ∧ readMessage e m₀ = some (none, m')

/-- **What the choice can come to**, and what it leaves alone. -/
inductive Chose (e : Perm.Env) (c : TrClient) : Choice → Prop
  | nothing {m : Option Perm.Session} (h : ReadNothing e c m) : Chose e c (.nothing { c with inputQueueMsg := m })
  | ended (hdone : c.dataDone) (hdeinit : c.fileTransfertDeinit = true) :
    Chose e c (.ended { c with fileTransfertDeinit := false, sendBuf := ⟨trailer, 0⟩ })
  | begun {f : TrFile} (hdone : c.dataDone) (hdeinit : c.fileTransfertDeinit = false)
    (hf : c.inputQueue.readIndex c.currentFileIndex = some f) : Chose e c (.begun f (c.beginFile f))
  | made {m₀ m : Perm.Session} {item : Perm.FifoItem} (hdone : c.dataDone) (hdeinit : c.fileTransfertDeinit = false)
    (hend : c.inputQueue.readIndex c.currentFileIndex = none) (hmessages : c.inputQueueMsg = some m₀)
    (hroom : c.inputQueue.isFull = false) (hread : readMessage e m₀ = some (some item, m)) :
    Chose e c (.made (c.messageFile item) (beginFile { c with
      inputQueueMsg := some m
      inputQueue := c.inputQueue.write (c.messageFile item)
      allocated := c.allocated + 1 } (c.messageFile item)))

theorem chooseFile_chose {e : Perm.Env} {choice : Choice} (h : c.chooseFile e = some choice) : Chose e c choice := by
  have hsame : Chose e c (.nothing c) := .nothing (.inl rfl)
  unfold chooseFile at h
  split at h
  · obtain rfl := Option.some.inj h
    exact hsame
  rename_i hdone
  have hdone := not_not.1 hdone
  split at h
  · rename_i hdeinit
    obtain rfl := Option.some.inj h
    exact .ended hdone hdeinit
  rename_i hdeinit
  have hdeinit := Bool.eq_false_iff.2 hdeinit
  split at h
  · rename_i f hf
    obtain rfl := Option.some.inj h
    exact .begun hdone hdeinit hf
  rename_i hend
  split at h
  · obtain rfl := Option.some.inj h
    exact hsame
  rename_i m₀ hmessages
  split at h
  · obtain rfl := Option.some.inj h
    exact hsame
  rename_i hroom
  split at h
  · cases h
  · rename_i m hread
    obtain rfl := Option.some.inj h
    exact .nothing (.inr ⟨m₀, m, hmessages, rfl, hread⟩)
  · rename_i item m hread
    obtain rfl := Option.some.inj h
    exact .made hdone hdeinit hend hmessages (Bool.eq_false_iff.2 hroom) hread

/-! ## Filling and flushing -/

theorem fillBuffer_same (c : TrClient) : c.fillBuffer.clientName = c.clientName ∧
    c.fillBuffer.proxyState = c.proxyState ∧ c.fillBuffer.inputQueue = c.inputQueue ∧ c.fillBuffer.ackId = c.ackId ∧
    c.fillBuffer.currentFileIndex = c.currentFileIndex ∧ c.fillBuffer.inputQueueMsg = c.inputQueueMsg ∧
    c.fillBuffer.outputQueue = c.outputQueue := by
  unfold fillBuffer
  repeat' split
  all_goals exact ⟨rfl, rfl, rfl, rfl, rfl, rfl, rfl⟩

/-- An empty buffer that is filled has the next piece of what is to be sent. -/
theorem Part.fill (h : Part c s r) : Part c.fillBuffer s r := by
  have hnone : c.currentFile = none → c.fillBuffer = c := fun hf => by rw [fillBuffer, hf]
  cases h with
  | idle hdone hdeinit =>
    rw [hnone hdone.1]
    exact .idle hdone hdeinit
  | tail hdone hdeinit =>
    rw [hnone hdone.1]
    exact .tail hdone hdeinit
  | last hfile hstart hdeinit =>
    rw [hnone hfile]
    exact .last hfile hstart hdeinit
  | @header f hfile hempty hinit hdeinit =>
    have hfill :
        c.fillBuffer = { c with sendBuf := ⟨f.header, 0⟩, currentBlob := f.blobs, fileTransfertInit := true } := by
      rw [fillBuffer, hfile]
      simp only [ne_eq, hempty, not_true_eq_false, if_false, hinit, if_true]
    rw [hfill]
    exact .data hfile (Nat.zero_le _) rfl hdeinit
  | @data f hfile hstart hinit hdeinit =>
    by_cases hempty : c.sendBuf.start = c.sendBuf.value.length
    · have hrest := rest_eq_nil hempty
      cases hblob : c.currentBlob with
      | nil =>
        have hfill : c.fillBuffer = { c with currentFile := none } := by
          rw [fillBuffer, hfile]
          simp only [ne_eq, hempty, not_true_eq_false, if_false, hinit, hblob, Bool.true_eq_false]
        rw [hfill, hrest, List.flatten_nil, List.nil_append, List.nil_append]
        exact .tail ⟨rfl, hempty⟩ hdeinit
      | cons blob blobs =>
        have hfill : c.fillBuffer = { c with sendBuf := ⟨blob, 0⟩, currentBlob := blobs } := by
          rw [fillBuffer, hfile]
          simp only [ne_eq, hempty, not_true_eq_false, if_false, hinit, hblob, Bool.true_eq_false]
        rw [hfill, hrest, List.flatten_cons, List.nil_append, List.append_assoc]
        exact .data hfile (Nat.zero_le _) hinit hdeinit
    · have hfill : c.fillBuffer = c := by
        rw [fillBuffer, hfile]
        simp only [ne_eq, hempty, not_false_eq_true, if_true]
      rw [hfill]
      exact .data hfile hstart hinit hdeinit

/-- **Flushing** takes bytes from the front of what is to be sent; the file is sent when none are left. -/
theorem Part.send (h : Part c s r) (n : Nat) : ∃ r', r = (c.bufferSend n).1 ++ r' ∧
    (((c.bufferSend n).2.dataDone ∧ (c.bufferSend n).2.fileTransfertDeinit = false ∧ r' = []) ∨
      (¬((c.bufferSend n).2.dataDone ∧ (c.bufferSend n).2.fileTransfertDeinit = false) ∧
        Part (c.bufferSend n).2 s r')) := by
  have hsplit : c.sendBuf.rest = (c.bufferSend n).1 ++ (c.bufferSend n).2.sendBuf.rest := by
    show c.sendBuf.rest = c.sendBuf.rest.take n ++
      c.sendBuf.value.drop (c.sendBuf.start + (c.sendBuf.rest.take n).length)
    have hdrop : c.sendBuf.value.drop (c.sendBuf.start + (c.sendBuf.rest.take n).length) =
        c.sendBuf.rest.drop (c.sendBuf.rest.take n).length := (List.drop_drop ..).symm
    rw [hdrop, List.length_take]
    by_cases hn : n ≤ c.sendBuf.rest.length
    · rw [Nat.min_eq_left hn, List.take_append_drop]
    · rw [Nat.min_eq_right (Nat.le_of_not_le hn), List.drop_length, List.append_nil,
        List.take_of_length_le (Nat.le_of_not_le hn)]
  have hle : c.sendBuf.start ≤ c.sendBuf.value.length →
      (c.bufferSend n).2.sendBuf.start ≤ (c.bufferSend n).2.sendBuf.value.length := fun hstart => by
    show c.sendBuf.start + (c.sendBuf.rest.take n).length ≤ c.sendBuf.value.length
    have := length_rest c.sendBuf
    have := List.length_take_le' n c.sendBuf.rest
    omega
  have hempty : c.sendBuf.start = c.sendBuf.value.length → (c.bufferSend n).1 = [] ∧ (c.bufferSend n).2 = c :=
    fun h => by
    have hrest := rest_eq_nil h
    unfold bufferSend
    rw [hrest, List.take_nil]
    exact ⟨rfl, rfl⟩
  cases h with
  | idle hdone hdeinit =>
    obtain ⟨h1, h2⟩ := hempty hdone.2
    rw [h1, h2]
    exact ⟨[], rfl, .inl ⟨hdone, hdeinit, rfl⟩⟩
  | tail hdone hdeinit =>
    obtain ⟨h1, h2⟩ := hempty hdone.2
    rw [h1, h2]
    exact ⟨trailer, rfl, .inr ⟨fun h => (Bool.eq_false_iff.1 h.2) hdeinit, .tail hdone hdeinit⟩⟩
  | header hfile hstart hinit hdeinit =>
    obtain ⟨h1, h2⟩ := hempty hstart
    rw [h1, h2]
    exact ⟨_, rfl, .inr ⟨fun h => (Bool.eq_false_iff.1 h.2) hdeinit, .header hfile hstart hinit hdeinit⟩⟩
  | data hfile hstart hinit hdeinit =>
    refine ⟨(c.bufferSend n).2.sendBuf.rest ++ (c.currentBlob.flatten ++ trailer), ?_,
      .inr ⟨fun h => (Bool.eq_false_iff.1 h.2) hdeinit, .data hfile (hle hstart) hinit hdeinit⟩⟩
    rw [hsplit, List.append_assoc]
  | last hfile hstart hdeinit =>
    by_cases hdone : (c.bufferSend n).2.sendBuf.start = (c.bufferSend n).2.sendBuf.value.length
    · refine ⟨[], ?_, .inl ⟨⟨hfile, hdone⟩, hdeinit, rfl⟩⟩
      rw [← rest_eq_nil hdone]
      exact hsplit
    · exact ⟨_, hsplit, .inr ⟨fun h => hdone h.1.2,
        .last hfile (Nat.lt_of_le_of_ne (hle (Nat.le_of_lt hstart)) hdone) hdeinit⟩⟩

end TrClient

namespace Tracked

variable {t t' : Tracked}

/-- **What the socket has taken**: the opening, the finished files, and the one under way but for what is to come. -/
def Wired (t : Tracked) : Prop := ∃ ini rest, (ini = t.client.iniLine ∨ ini = []) ∧ t.client.Part t.sending rest ∧
  t.wire ++ rest = ini ++ (t.finished ++ t.sending.toList).flatMap TrFile.encode

/-- What the steps that send nothing leave alone. -/
structure SameSending (t t' : Tracked) : Prop where
  name : t'.client.clientName = t.client.clientName
  proxyState : t'.client.proxyState = t.client.proxyState
  file : t'.client.currentFile = t.client.currentFile
  blob : t'.client.currentBlob = t.client.currentBlob
  buf : t'.client.sendBuf = t.client.sendBuf
  init : t'.client.fileTransfertInit = t.client.fileTransfertInit
  deinit : t'.client.fileTransfertDeinit = t.client.fileTransfertDeinit
  wire : t'.wire = t.wire
  sending : t'.sending = t.sending
  finished : t'.finished = t.finished

theorem Wired.same (h : Wired t) (hs : SameSending t t') : Wired t' := by
  obtain ⟨ini, rest, hini, hpart, hwire⟩ := h
  refine ⟨ini, rest, ?_, ?_, ?_⟩
  · unfold TrClient.iniLine
    rw [hs.name, hs.proxyState]
    exact hini
  · rw [hs.sending]
    exact hpart.congr hs.file hs.blob hs.buf hs.init hs.deinit
  · rw [hs.wire, hs.sending, hs.finished]
    exact hwire

theorem reply_same (t : Tracked) (line : Bytes) : SameSending t (t.reply line) :=
  ⟨rfl, rfl, rfl, rfl, rfl, rfl, rfl, rfl, rfl, rfl⟩

theorem SameSending.trans {t'' : Tracked} (h : SameSending t t') (h' : SameSending t' t'') : SameSending t t'' :=
  ⟨h'.name.trans h.name, h'.proxyState.trans h.proxyState, h'.file.trans h.file, h'.blob.trans h.blob,
    h'.buf.trans h.buf, h'.init.trans h.init, h'.deinit.trans h.deinit, h'.wire.trans h.wire,
    h'.sending.trans h.sending, h'.finished.trans h.finished⟩

theorem replies_same : ∀ (lines : List Bytes) (t : Tracked), SameSending t (lines.foldl reply t)
  | [], _ => ⟨rfl, rfl, rfl, rfl, rfl, rfl, rfl, rfl, rfl, rfl⟩
  | line :: lines, t => (reply_same t line).trans (replies_same lines (t.reply line))

/-- **What a turn of the removing loop does**: the loop is left, or the first file is taken out, which is acknowledged
and not under way. -/
inductive Removes (t : Tracked) : Tracked → Prop
  | stop : Removes t { t with client := t.client.endRemoving }
  | acked {f : TrFile} {m : Perm.Session} (hfirst : t.client.inputQueue.items.head? = some f)
    (hack : trFileIdCompare f.id t.client.ackId = false) (hmessages : t.client.inputQueueMsg = some m) :
    Removes t { t with
      client := { t.client with
        inputQueue := t.client.inputQueue.read.2
        currentFileIndex := t.client.currentFileIndex - 1
        inputQueueMsg := some { m with
          fifo := (Perm.permFifoAck m.fifo (toUnsigned 64 f.id.minId)).2
          acked := max m.acked (toUnsigned 64 f.id.minId) } }
      removed := t.removed ++ [f]
      permAcks := t.permAcks ++ [toUnsigned 64 f.id.minId] }
  | moved {f : TrFile} (hfirst : t.client.inputQueue.items.head? = some f)
    (hack : trFileIdCompare f.id t.client.ackId = false) (hmessages : t.client.inputQueueMsg = none)
    (hroom : t.client.outputQueue.isFull = false) :
    Removes t { t with
      client := { t.client with
        inputQueue := t.client.inputQueue.read.2
        currentFileIndex := t.client.currentFileIndex - 1
        outputQueue := t.client.outputQueue.write f }
      removed := t.removed ++ [f] }

theorem remove_removes (t : Tracked) : Removes t t.remove := by
  unfold remove
  split
  · exact .stop
  · rename_i f id client h
    unfold TrClient.removeTurn at h
    split at h
    · cases h
    rename_i f' hfirst
    split at h
    · cases h
    split at h
    · cases h
    rename_i hack
    split at h
    · rename_i m hmessages
      cases h
      exact .acked (by rw [List.head?_eq_getElem?]; exact hfirst) (Bool.eq_false_iff.2 hack) hmessages
    · split at h <;> cases h
  · rename_i f client h
    unfold TrClient.removeTurn at h
    split at h
    · cases h
    rename_i f' hfirst
    split at h
    · cases h
    split at h
    · cases h
    rename_i hack
    split at h
    · cases h
    · rename_i hmessages
      split at h
      · cases h
      · rename_i hroom
        cases h
        exact .moved (by rw [List.head?_eq_getElem?]; exact hfirst) (Bool.eq_false_iff.2 hack) hmessages
          (Bool.eq_false_iff.2 hroom)

theorem Removes.same (h : Removes t t') : SameSending t t' := by
  cases h with
  | stop => exact ⟨rfl, rfl, rfl, rfl, rfl, rfl, rfl, rfl, rfl, rfl⟩
  | acked => exact ⟨rfl, rfl, rfl, rfl, rfl, rfl, rfl, rfl, rfl, rfl⟩
  | moved => exact ⟨rfl, rfl, rfl, rfl, rfl, rfl, rfl, rfl, rfl, rfl⟩

theorem onMessages_same {call : Perm.Env × Perm.Call} (h : t.onMessages call = some t') : SameSending t t' := by
  unfold onMessages at h
  split at h
  · obtain rfl := Option.some.inj h
    exact ⟨rfl, rfl, rfl, rfl, rfl, rfl, rfl, rfl, rfl, rfl⟩
  · obtain ⟨m, -, rfl⟩ := Option.map_eq_some_iff.1 h
    exact ⟨rfl, rfl, rfl, rfl, rfl, rfl, rfl, rfl, rfl, rfl⟩

theorem queueAddFile_same (t : Tracked) (f : TrFile) : SameSending t (t.queueAddFile f) := by
  unfold queueAddFile
  split <;> exact ⟨rfl, rfl, rfl, rfl, rfl, rfl, rfl, rfl, rfl, rfl⟩

theorem Wired.connect (t : Tracked) (direct : Bool) : Wired { t with
    client := t.client.connect
    wire := if direct then t.client.iniLine else []
    sending := none
    finished := [] } := by
  refine ⟨if direct then t.client.iniLine else [], [], ?_, .idle ⟨rfl, rfl⟩ rfl, ?_⟩
  · cases direct with
    | true => exact .inl rfl
    | false => exact .inr rfl
  · rfl

/-- A file that is begun adds itself to what is to be sent. -/
theorem Wired.begin {f : TrFile} (h : Wired t) (hdone : t.client.dataDone)
    (hdeinit : t.client.fileTransfertDeinit = false) (hname : t'.client.iniLine = t.client.iniLine)
    (hpart : t'.client.Part (some f) f.encode) (hwire : t'.wire = t.wire) (hfinished : t'.finished = t.finished)
    (hsending : t'.sending = some f) : Wired t' := by
  obtain ⟨ini, rest, hini, hold, hsent⟩ := h
  rcases hold.dataDone hdone with ⟨hnone, rfl, -⟩ | ⟨-, htail⟩
  · refine ⟨ini, f.encode, by rw [hname]; exact hini, by rw [hsending]; exact hpart, ?_⟩
    rw [hnone, Option.toList_none, List.append_nil, List.append_nil] at hsent
    rw [hwire, hfinished, hsending, hsent, List.flatMap_append, List.append_assoc]
    simp only [Option.toList_some, List.flatMap_singleton]
  · exact absurd htail (Bool.eq_false_iff.1 hdeinit)

theorem Wired.select {e : Perm.Env} (h : Wired t) (hs : t.select e = some t') : Wired t' := by
  obtain ⟨choice, hchoice, rfl⟩ := Option.map_eq_some_iff.1 hs
  cases TrClient.chooseFile_chose hchoice with
  | nothing => exact h.same ⟨rfl, rfl, rfl, rfl, rfl, rfl, rfl, rfl, rfl, rfl⟩
  | begun hdone hdeinit =>
    exact h.begin hdone hdeinit rfl (.header rfl hdone.2 rfl rfl) rfl rfl rfl
  | made hdone hdeinit =>
    exact h.begin hdone hdeinit rfl (.header rfl hdone.2 rfl rfl) rfl rfl rfl
  | ended hdone hdeinit =>
    obtain ⟨ini, rest, hini, hold, hsent⟩ := h
    rcases hold.dataDone hdone with ⟨-, -, hfalse⟩ | ⟨rfl, -⟩
    · exact absurd hdeinit (Bool.eq_false_iff.1 hfalse)
    · refine ⟨ini, trailer, hini, ?_, hsent⟩
      show TrClient.Part _ t.sending trailer
      cases hsending : t.sending with
      | none =>
        rw [hsending] at hold
        cases hold
      | some f => exact .last hdone.1 (Nat.zero_lt_succ 3) rfl

/-- A turn of filling and flushing ends the file under way, or not. -/
theorem transmit_cases (t : Tracked) (n : Nat) :
    (((t.client.fillBuffer.bufferSend n).2.dataDone ∧
      (t.client.fillBuffer.bufferSend n).2.fileTransfertDeinit = false) ∧
      t.transmit n = (t.flushed (t.client.fillBuffer.bufferSend n).1 (t.client.fillBuffer.bufferSend n).2).finish) ∨
    (¬((t.client.fillBuffer.bufferSend n).2.dataDone ∧
        (t.client.fillBuffer.bufferSend n).2.fileTransfertDeinit = false) ∧
      t.transmit n = t.flushed (t.client.fillBuffer.bufferSend n).1 (t.client.fillBuffer.bufferSend n).2) := by
  by_cases hend : (t.client.fillBuffer.bufferSend n).2.dataDone ∧
      (t.client.fillBuffer.bufferSend n).2.fileTransfertDeinit = false
  · exact .inl ⟨hend, if_pos hend⟩
  · exact .inr ⟨hend, if_neg hend⟩

theorem Wired.transmit (h : Wired t) (n : Nat) : Wired (t.transmit n) := by
  obtain ⟨ini, rest, hini, hpart, hsent⟩ := h
  have hname : (t.client.fillBuffer.bufferSend n).2.iniLine = t.client.iniLine := by
    obtain ⟨hname, hproxy, -⟩ := t.client.fillBuffer_same
    unfold TrClient.iniLine
    rw [← hname, ← hproxy]
    rfl
  obtain ⟨rest', hsplit, hcase⟩ := hpart.fill.send n
  rw [← hname] at hini
  rcases t.transmit_cases n with ⟨hend, heq⟩ | ⟨hmore, heq⟩
  · rcases hcase with ⟨hdone, hdeinit, rfl⟩ | ⟨hnot, -⟩
    · rw [heq]
      refine ⟨ini, [], hini, .idle hdone hdeinit, ?_⟩
      rw [hsplit, List.append_nil] at hsent
      simp only [finish, flushed, Option.toList_none, List.append_nil]
      exact hsent
    · exact absurd hend hnot
  · rcases hcase with ⟨hdone, hdeinit, -⟩ | ⟨-, hpart'⟩
    · exact absurd ⟨hdone, hdeinit⟩ hmore
    · rw [heq]
      refine ⟨ini, rest', hini, hpart'.congr rfl rfl rfl rfl rfl, ?_⟩
      simp only [flushed]
      rw [List.append_assoc, ← hsplit]
      exact hsent

theorem onMessages_stage {call : Perm.Env × Perm.Call} (h : t.onMessages call = some t') :
    t'.client.stage = t.client.stage := by
  unfold onMessages at h
  split at h
  · rw [Option.some.inj h]
  · obtain ⟨m, -, rfl⟩ := Option.map_eq_some_iff.1 h
    rfl

theorem queueAddFile_stage (t : Tracked) (f : TrFile) : (t.queueAddFile f).client.stage = t.client.stage := by
  unfold queueAddFile
  split <;> rfl

/-- **Every step keeps it**, as long as there is a connection. -/
theorem wired_step (a : Action) (h : t.client.stage ≠ .notConnected → Wired t) (hs : t.step a = some t') :
    t'.client.stage ≠ .notConnected → Wired t' := by
  intro hstage
  cases a with
  | connect direct =>
    obtain ⟨-, hs⟩ := Option.ite_none_right_eq_some.1 hs
    obtain rfl := Option.some.inj hs
    exact Wired.connect t direct
  | lose =>
    obtain ⟨-, hs⟩ := Option.ite_none_right_eq_some.1 hs
    obtain rfl := Option.some.inj hs
    exact absurd rfl hstage
  | replies lines =>
    obtain ⟨hat, hs⟩ := Option.ite_none_right_eq_some.1 hs
    obtain rfl := Option.some.inj hs
    have hsame := replies_same lines t
    exact (h (by rw [hat]; decide)).same ⟨hsame.name, hsame.proxyState, hsame.file, hsame.blob, hsame.buf, hsame.init,
      hsame.deinit, hsame.wire, hsame.sending, hsame.finished⟩
  | remove =>
    obtain ⟨hat, hs⟩ := Option.ite_none_right_eq_some.1 hs
    obtain rfl := Option.some.inj hs
    exact (h (by rw [hat]; decide)).same (remove_removes t).same
  | select e =>
    obtain ⟨hat, hs⟩ := Option.ite_none_right_eq_some.1 hs
    exact (h (by rw [hat]; decide)).select hs
  | transmit n =>
    obtain ⟨hat, hs⟩ := Option.ite_none_right_eq_some.1 hs
    obtain rfl := Option.some.inj hs
    exact (h (by rw [hat]; decide)).transmit n
  | flush e =>
    obtain ⟨hat, hs⟩ := Option.ite_none_right_eq_some.1 hs
    exact absurd ((onMessages_stage hs).trans hat) hstage
  | sendMsg e msg => exact (h (by rw [← onMessages_stage hs]; exact hstage)).same (onMessages_same hs)
  | queueAddFile f =>
    obtain rfl := Option.some.inj hs
    exact (h (by rw [← queueAddFile_stage t f]; exact hstage)).same (queueAddFile_same t f)
  | getLastFileSent =>
    obtain rfl := Option.some.inj hs
    exact (h hstage).same ⟨rfl, rfl, rfl, rfl, rfl, rfl, rfl, rfl, rfl, rfl⟩

/-- **The stream of a connection**: when no file is under way, it is the opening and the finished files. -/
theorem wire_eq (client : TrClient) (as : List Action) (hstage : client.stage = .notConnected)
    (hr : run step (start client) as = some t) (hconnected : t.client.stage ≠ .notConnected)
    (hidle : t.sending = none) :
    t.wire = t.client.iniLine ++ t.finished.flatMap TrFile.encode ∨ t.wire = t.finished.flatMap TrFile.encode := by
  have hl : Legal step (fun _ _ => True) (start client) as := legal_true as (start client)
  obtain ⟨ini, rest, hini, hpart, hwire⟩ :=
    run_keeps (I := fun t => t.client.stage ≠ .notConnected → Wired t) (fun t a t' h _ hs => wired_step a h hs)
      as (start client) t (fun h => absurd hstage h) hl hr hconnected
  rw [hidle] at hpart hwire
  cases hpart with
  | idle =>
    rw [Option.toList_none, List.append_nil, List.append_nil] at hwire
    rcases hini with rfl | rfl
    · exact .inl hwire
    · exact .inr hwire

end Tracked
end Transport
end Flp
