import FlpPrototype.Transport.EndToEnd
import FlpPrototype.Transport.Messages
import Mathlib.Data.Nat.Digits.Lemmas
/-!
# MessagesEndToEnd — no message is dropped before the application has it

Clients in message mode, each on a permanent FIFO which may hold messages of former sessions.  What a client
acknowledges in its FIFO, which is what lets the FIFO forget it, covers only messages the server's application has, byte
by byte, under the client's name (`dropped_received`).  The only rules are that memory and file system do what they are
asked, that a message is a string one system call writes, and that the ids fit an `int`.
-/
namespace Flp
namespace Transport
namespace Tracked

variable {t t' : Tracked} {f : TrFile} {name : CString} {m : Perm.Session} {size : Nat}

/-! ## Files made of messages can be sent -/

/-- A name of one word that leaves room for the numbers in a header line. -/
structure NameOk (name : CString) : Prop where
  ne_nil : name.1 ≠ []
  word : ∀ c ∈ name.1, isSpace c = false
  length_le : name.1.length ≤ 2000

/-- What is known of the files of a client, besides what their keys say, and of its messages. -/
structure Sourced (name : CString) (t : Tracked) : Prop where
  client : t.client.clientName = name
  files : ∀ f ∈ t.queued, f.id.source = some name
  acks : ∀ x ∈ t.permAcks, ∃ f ∈ t.removed, x = toUnsigned 64 f.id.minId
  written : ∀ m, t.client.inputQueueMsg = some m → ∀ r ∈ m.written, r.data ≠ []

theorem length_printInt_le {n : Int} (h : -2 ^ 31 ≤ n ∧ n < 2 ^ 31) : (printInt n).length ≤ 11 := by
  have hnat : ∀ k : Nat, k < 10 ^ 10 → (printNat k).length ≤ 10 := fun k hk => by
    unfold printNat
    split
    · exact Nat.succ_le_succ (Nat.zero_le _)
    · rw [List.length_reverse, List.length_map]
      exact (Nat.digits_length_le_iff (by decide) k).2 hk
  cases n with
  | ofNat k => exact Nat.le_succ_of_le (hnat k (by have := h.2; simp only [Int.ofNat_eq_natCast] at this; omega))
  | negSucc k =>
    show (printNat (k + 1)).length + 1 ≤ 11
    have := hnat (k + 1) (by have := h.1; omega)
    omega

theorem made_sendable {e : Perm.Env} (h : OfMessages size t m) (hs : Sourced name t) (hname : NameOk name)
    (hsucceeds : e.Succeeds) {client : TrClient} (hchoose : t.client.chooseFile e = some (.made f client)) :
    f.Sendable ∧ Fits f := by
  cases TrClient.chooseFile_chose hchoose with
  | @made m₀ m' item hdone hdeinit hend hmessages hroom hread =>
    obtain rfl := Option.some.inj (hmessages.symm.trans h.messages)
    obtain ⟨hdr, p, hg⟩ := h.read hsucceeds hread
    obtain ⟨hdr₀, p₀, hg₀⟩ := h.good
    obtain ⟨hwritten, hdelivered, -⟩ := readMessage_some hread
    have hmem : item ∈ m'.delivered := by
      rw [hdelivered]
      exact List.mem_append_right _ List.mem_cons_self
    obtain ⟨r, hr, -, rfl⟩ := hg.mem_delivered.1 hmem
    have hr₀ : r ∈ m₀.written := hwritten ▸ hr
    have hok : r.Ok := hg.inv.readable.ok r (hg.written ▸ hr)
    have hne := hs.written m₀ h.messages r hr₀
    have hid : r.id < 2 ^ 31 := Nat.lt_of_le_of_lt (hg₀.id_le_current hr₀) h.fits
    have hlen : r.data.length < 2 ^ 31 - 1 := Nat.lt_of_le_of_lt hok.size_le (by decide)
    have hpos := List.length_pos_iff.2 hne
    have hfile : t.client.messageFile r.item =
        ⟨t.client.allocated, ⟨some name, 1, r.id, 0⟩, [r.data], r.data.length⟩ := by
      unfold TrClient.messageFile
      rw [show toSigned 32 r.item.id = (r.id : Int) from toSigned_of_lt hid,
        show toSigned 32 r.item.size = (r.data.length : Int) from toSigned_of_lt (Nat.lt_of_lt_of_le hlen (by decide)),
        hs.client]
      simp [Perm.Record.item]
    rw [hfile]
    refine ⟨⟨⟨name, rfl, hname.ne_nil, hname.word⟩, ?_, ?_, by simp, ?_, ?_⟩, ?_⟩
    · simp only
      omega
    · simp only
      omega
    · simp only
      omega
    · have h₁ := length_printInt_le (n := r.id) (by omega)
      have h₂ := length_printInt_le (n := 1) (by decide)
      have h₃ := length_printInt_le (n := r.data.length) (by omega)
      have hword := hname.length_le
      simp only [TrFile.headerText, Option.getD_some, List.length_append, TR_BUFFER_SIZE]
      have : (ascii "File ".toList).length = 5 := by decide
      have : (ascii [' ']).length = 1 := by decide
      omega
    · unfold Fits intMax
      simp only
      omega

/-! ## What a step leaves alone -/

theorem Sourced.congr (h : Sourced name t) (hname : t'.client.clientName = t.client.clientName)
    (hqueued : t'.queued = t.queued) (hacks : t'.permAcks = t.permAcks) (hremoved : t'.removed = t.removed)
    (hmessages : t'.client.inputQueueMsg = t.client.inputQueueMsg) : Sourced name t' where
  client := hname.trans h.client
  files := hqueued ▸ h.files
  acks := by
    rw [hacks, hremoved]
    exact h.acks
  written := by
    rw [hmessages]
    exact h.written

theorem Sourced.removes (h : Sourced name t) (hr : Removes t t') : Sourced name t' := by
  have more : ∀ {f}, ∀ x ∈ t.permAcks, ∃ g ∈ t.removed ++ [f], x = toUnsigned 64 g.id.minId := fun x hx => by
    obtain ⟨g, hg, hx⟩ := h.acks x hx
    exact ⟨g, List.mem_append_left _ hg, hx⟩
  cases hr with
  | stop => exact h.congr rfl rfl rfl rfl rfl
  | moved => exact ⟨h.client, h.files, more, h.written⟩
  | @acked f m hfirst hack hmessages =>
    refine ⟨h.client, h.files, fun x hx => ?_, fun m' hm' r hr => ?_⟩
    · rcases List.mem_append.1 hx with hx | hx
      · exact more x hx
      · exact ⟨f, List.mem_append_right _ List.mem_cons_self, List.mem_singleton.1 hx⟩
    · obtain rfl := Option.some.inj hm'
      exact h.written m hmessages r hr

theorem Sourced.select {e : Perm.Env} (h : Sourced name t) (hs : t.select e = some t') : Sourced name t' := by
  obtain ⟨choice, hchoice, rfl⟩ := Option.map_eq_some_iff.1 hs
  cases TrClient.chooseFile_chose hchoice with
  | nothing hread =>
    rcases hread with rfl | ⟨m₀, m', hmessages, rfl, hread⟩
    · exact h.congr rfl rfl rfl rfl rfl
    · refine ⟨h.client, h.files, h.acks, fun m hm r hr => h.written m₀ hmessages r ?_⟩
      obtain rfl := Option.some.inj hm
      exact (readMessage_none hread).1 ▸ hr
  | ended => exact h.congr rfl rfl rfl rfl rfl
  | begun => exact h.congr rfl rfl rfl rfl rfl
  | @made m₀ m' item hdone hdeinit hend hmessages hroom hread =>
    refine ⟨h.client, fun f hf => ?_, h.acks, fun m hm r hr => h.written m₀ hmessages r ?_⟩
    · rcases List.mem_append.1 hf with hf | hf
      · exact h.files f hf
      · rw [List.mem_singleton.1 hf]
        exact congrArg some h.client
    · obtain rfl := Option.some.inj hm
      exact (readMessage_some hread).1 ▸ hr

/-- What is written is not empty. -/
theorem Sourced.onMessages {call : Perm.Env × Perm.Call} (h : Sourced name t) (hs : t.onMessages call = some t') :
    Sourced name t' := by
  unfold Tracked.onMessages at hs
  split at hs
  · obtain rfl := Option.some.inj hs
    exact h
  · rename_i m₀ hmessages
    obtain ⟨m, hm, rfl⟩ := Option.map_eq_some_iff.1 hs
    refine ⟨h.client, h.files, h.acks, fun m' hm' r hr => ?_⟩
    obtain rfl := Option.some.inj hm'
    have hold := h.written m₀ hmessages
    cases hcall : call.2 with
    | write data n =>
      simp only [Perm.Session.step, hcall] at hm
      obtain ⟨q, -, rfl⟩ := Option.map_eq_some_iff.1 hm
      rcases List.mem_append.1 hr with hr | hr
      · exact hold r hr
      · obtain ⟨b, hb, rfl⟩ := Option.map_eq_some_iff.1 (Option.mem_toList.1 hr)
        unfold Perm.Call.payload at hb
        simp only at hb
        split at hb
        · cases hb
        · exact Perm.payload_ne_nil hb
    | read =>
      simp only [Perm.Session.step, hcall] at hm
      obtain ⟨q, -, hq⟩ := Option.map_eq_some_iff.1 hm
      have hw : m.written = m₀.written := by
        split at hq <;> rw [← hq]
      exact hold r (hw ▸ hr)
    | ack id =>
      simp only [Perm.Session.step, hcall] at hm
      obtain rfl := Option.some.inj hm
      exact hold r hr
    | flush n =>
      simp only [Perm.Session.step, hcall] at hm
      obtain ⟨q, -, rfl⟩ := Option.map_eq_some_iff.1 hm
      exact hold r hr

theorem Sourced.replies :
    ∀ (lines : List Bytes) {t : Tracked}, Sourced name t → Sourced name (lines.foldl Tracked.reply t)
  | [], _, h => h
  | _ :: lines, _, h => Sourced.replies lines (h.congr rfl rfl rfl rfl rfl)

theorem sourced_step (a : Action) (h : Sourced name t) (hproper : Proper a) (hs : t.step a = some t') :
    Sourced name t' := by
  cases a with
  | connect direct =>
    obtain ⟨-, hs⟩ := Option.ite_none_right_eq_some.1 hs
    obtain rfl := Option.some.inj hs
    exact h.congr rfl rfl rfl rfl rfl
  | lose =>
    obtain ⟨-, hs⟩ := Option.ite_none_right_eq_some.1 hs
    obtain rfl := Option.some.inj hs
    exact h.congr rfl rfl rfl rfl rfl
  | replies lines =>
    obtain ⟨-, hs⟩ := Option.ite_none_right_eq_some.1 hs
    obtain rfl := Option.some.inj hs
    exact (Sourced.replies lines h).congr rfl rfl rfl rfl rfl
  | remove =>
    obtain ⟨-, hs⟩ := Option.ite_none_right_eq_some.1 hs
    obtain rfl := Option.some.inj hs
    exact h.removes t.remove_removes
  | select e =>
    obtain ⟨-, hs⟩ := Option.ite_none_right_eq_some.1 hs
    exact h.select hs
  | transmit n =>
    obtain ⟨-, hs⟩ := Option.ite_none_right_eq_some.1 hs
    obtain rfl := Option.some.inj hs
    obtain ⟨hname, -, -, -, -, hmessages, -⟩ := t.client.fillBuffer_same
    rcases t.transmit_cases n with ⟨-, heq⟩ | ⟨-, heq⟩
    · rw [heq]
      exact h.congr hname rfl rfl rfl hmessages
    · rw [heq]
      exact h.congr hname rfl rfl rfl hmessages
  | flush e =>
    obtain ⟨-, hs⟩ := Option.ite_none_right_eq_some.1 hs
    exact h.onMessages hs
  | sendMsg e msg => exact h.onMessages hs
  | queueAddFile f => exact hproper.elim
  | getLastFileSent =>
    obtain rfl := Option.some.inj hs
    exact h.congr rfl rfl rfl rfl rfl

/-! ## What is written -/

/-- The string an action hands to the permanent FIFO. -/
def handed : Action → List Bytes
  | .sendMsg _ msg => (Perm.payload msg 0).toList
  | _              => []

theorem onMessages_written {call : Perm.Env × Perm.Call} (hm : t.client.inputQueueMsg = some m)
    (hs : t.onMessages call = some t') : ∃ m', t'.client.inputQueueMsg = some m' ∧
      m'.written.map Perm.Record.data = m.written.map Perm.Record.data ++ call.2.payload.toList := by
  simp only [onMessages, hm] at hs
  obtain ⟨m', hm', rfl⟩ := Option.map_eq_some_iff.1 hs
  have hrun := Perm.run_written [call] m m' (by rw [run_cons hm']; rfl)
  refine ⟨m', rfl, hrun.trans (congrArg _ ?_)⟩
  rw [Perm.handed, List.filterMap_cons]
  cases call.2.payload <;> rfl

theorem replies_messages : ∀ (lines : List Bytes) (t : Tracked),
    (lines.foldl Tracked.reply t).client.inputQueueMsg = t.client.inputQueueMsg
  | [], _         => rfl
  | _ :: lines, t => replies_messages lines (t.reply _)

/-- **The records behind a step**: those before it, and the message it hands over. -/
theorem step_written (b : Action) (hm : t.client.inputQueueMsg = some m) (hs : t.step b = some t') :
    ∃ m', t'.client.inputQueueMsg = some m' ∧
      m'.written.map Perm.Record.data = m.written.map Perm.Record.data ++ handed b := by
  cases b with
  | connect direct =>
    obtain ⟨-, hs⟩ := Option.ite_none_right_eq_some.1 hs
    obtain rfl := Option.some.inj hs
    exact ⟨m, hm, (List.append_nil _).symm⟩
  | lose =>
    obtain ⟨-, hs⟩ := Option.ite_none_right_eq_some.1 hs
    obtain rfl := Option.some.inj hs
    exact ⟨m, hm, (List.append_nil _).symm⟩
  | replies lines =>
    obtain ⟨-, hs⟩ := Option.ite_none_right_eq_some.1 hs
    obtain rfl := Option.some.inj hs
    exact ⟨m, (replies_messages lines t).trans hm, (List.append_nil _).symm⟩
  | remove =>
    obtain ⟨-, hs⟩ := Option.ite_none_right_eq_some.1 hs
    obtain rfl := Option.some.inj hs
    have hr := t.remove_removes
    generalize t.remove = t' at hr
    cases hr with
    | stop => exact ⟨m, hm, (List.append_nil _).symm⟩
    | acked hfirst hack hmessages =>
      obtain rfl := Option.some.inj (hmessages.symm.trans hm)
      exact ⟨_, rfl, (List.append_nil _).symm⟩
    | moved hfirst hack hmessages =>
      rw [hmessages] at hm
      cases hm
  | select e =>
    obtain ⟨-, hs⟩ := Option.ite_none_right_eq_some.1 hs
    obtain ⟨choice, hchoice, rfl⟩ := Option.map_eq_some_iff.1 hs
    cases TrClient.chooseFile_chose hchoice with
    | nothing hread =>
      rcases hread with rfl | ⟨m₀, m', hmessages, rfl, hread⟩
      · exact ⟨m, hm, (List.append_nil _).symm⟩
      · obtain rfl := Option.some.inj (hmessages.symm.trans hm)
        exact ⟨m', rfl, by rw [(readMessage_none hread).1]; exact (List.append_nil _).symm⟩
    | ended => exact ⟨m, hm, (List.append_nil _).symm⟩
    | begun => exact ⟨m, hm, (List.append_nil _).symm⟩
    | @made m₀ m' item hdone hdeinit hend hmessages hroom hread =>
      obtain rfl := Option.some.inj (hmessages.symm.trans hm)
      exact ⟨m', rfl, by rw [(readMessage_some hread).1]; exact (List.append_nil _).symm⟩
  | transmit n =>
    obtain ⟨-, hs⟩ := Option.ite_none_right_eq_some.1 hs
    obtain rfl := Option.some.inj hs
    obtain ⟨-, -, -, -, -, hmessages, -⟩ := t.client.fillBuffer_same
    rcases t.transmit_cases n with ⟨-, heq⟩ | ⟨-, heq⟩
    · rw [heq]
      exact ⟨m, hmessages.trans hm, (List.append_nil _).symm⟩
    · rw [heq]
      exact ⟨m, hmessages.trans hm, (List.append_nil _).symm⟩
  | flush e =>
    obtain ⟨-, hs⟩ := Option.ite_none_right_eq_some.1 hs
    exact onMessages_written hm hs
  | sendMsg e msg => exact onMessages_written hm hs
  | queueAddFile f =>
    obtain rfl := Option.some.inj hs
    unfold queueAddFile
    simp only
    split
    · exact ⟨m, hm, (List.append_nil _).symm⟩
    · exact ⟨m, hm, (List.append_nil _).symm⟩
  | getLastFileSent =>
    obtain rfl := Option.some.inj hs
    exact ⟨m, hm, (List.append_nil _).symm⟩

/-- What the network does to a client. -/
def OfNetwork : Action → Prop
  | .connect _ => True
  | .lose      => True
  | .replies _ => True
  | _          => False

theorem OfNetwork.rules {b : Action} (h : OfNetwork b) (t : Tracked) : Proper b ∧ IdsFit t b ∧ handed b = [] := by
  cases b <;> first | exact h.elim | exact ⟨trivial, trivial, rfl⟩

end Tracked

namespace System

open Tracked (Proper IdsFit OfMessages Sourced NameOk OfNetwork)

variable {s s' : System} {c : Nat} {t : Tracked} {name : CString} {size : Nat}

/-- Memory and file systems do what they are asked, and messages are strings one system call writes. -/
def ProperStep : Action → Prop
  | .client _ a => Proper a
  | _           => True

/-- The ids given to messages fit an `int`. -/
def IdsFitStep (s : System) : Action → Prop
  | .client c a => IdsFit (s.stations c).tracked a
  | _           => True

/-- A client just started on the permanent FIFO of a file, the records of which have bytes. -/
def FreshOn (client : TrClient) : Prop :=
  ∃ (F : Perm.FifoFile) (d : Dir Perm.FileName) (e : Perm.Env) (queueLength : Nat)
    (name : CString) (proxyState : Int) (fifo : Perm.PermFifo),
  (F.Counted ∧ Perm.HasFile d F ∧ 0 < queueLength ∧ F.clean.currentId < 2 ^ 31 ∧ ∀ r ∈ F.records, r.data ≠ []) ∧
  Perm.permFifoNew e d queueLength = some fifo ∧ client = .start queueLength name proxyState (some (.start fifo)) ∧
  NameOk name ∧ client.Opens

/-- A client in message mode. -/
def Messenger (name : CString) (t : Tracked) : Prop := NameOk name ∧ Sourced name t ∧ ∃ size m, OfMessages size t m

/-- A step of the system, seen from a client: nothing, or a step of its own. -/
def Moves (a : Action) (c : Nat) (t t' : Tracked) : Prop :=
  t' = t ∨ ∃ b, t.step b = some t' ∧ t.ServerAcks b ∧ (a = .client c b ∨ OfNetwork b)

theorem moves_setStation {a : Action} {c₀ : Nat} {station : Station}
    (h : Moves a c₀ (s.stations c₀).tracked station.tracked) (c : Nat) :
    Moves a c (s.stations c).tracked ((s.setStation c₀ station).stations c).tracked := by
  by_cases hc : c = c₀
  · subst hc
    rw [stations_setStation]
    exact h
  · rw [stations_other s _ hc]
    exact .inl rfl

/-- Only the connection of a client changes. -/
theorem moves_cx (s : System) (a : Action) (c₀ : Nat) (cx : Cx) (c : Nat) :
    Moves a c (s.stations c).tracked ((s.setStation c₀ ⟨(s.stations c₀).tracked, cx⟩).stations c).tracked := by
  have hsame : Moves a c₀ (s.stations c₀).tracked (Station.mk (s.stations c₀).tracked cx).tracked := .inl rfl
  exact moves_setStation hsame c

/-- **A step of the system is at most one step of a client**, and the server's acknowledgements are right. -/
theorem step_moves {a : Action} (h : Inv s) (hs : s.step a = some s') (c : Nat) :
    Moves a c (s.stations c).tracked (s'.stations c).tracked := by
  cases a with
  | dial c₀ =>
    obtain ⟨-, rfl⟩ := step_dial hs
    exact moves_cx s _ _ _ c
  | accept c₀ =>
    obtain ⟨-, server, -, ⟨-, rfl⟩ | ⟨-, rfl⟩⟩ := step_accept hs
    · exact moves_cx s _ _ _ c
    · exact moves_cx s _ _ _ c
  | hangUp c₀ =>
    obtain ⟨t', rfl, ⟨rfl, -⟩ | ht⟩ := step_hangUp hs
    · exact moves_cx s _ _ _ c
    · exact moves_setStation (.inr ⟨.lose, ht, trivial, .inr trivial⟩) c
  | ready c₀ =>
    obtain ⟨k, link, t', -, -, -, ht, rfl⟩ := step_ready hs
    exact moves_setStation (.inr ⟨.connect true, ht, trivial, .inr trivial⟩) c
  | replies c₀ n =>
    obtain ⟨k, link, t', hcx, hl, ht, rfl⟩ := step_replies hs
    refine moves_setStation (.inr ⟨.replies (link.replies.take n), ht, fun line hline r hr => ?_, .inr trivial⟩) c
    exact (h.acknowledged hl (h.station c₀).tracked (h.attached hcx hl).client (List.mem_of_mem_take hline) hr).1
  | client c₀ b =>
    obtain ⟨-, t', ht, rfl⟩ := step_client hs
    have hmoves : Moves (.client c₀ b) c₀ (s.stations c₀).tracked t' :=
      .inr ⟨b, ht, by cases b <;> trivial, .inl rfl⟩
    unfold goOn
    split <;> exact moves_setStation hmoves c
  | read i n =>
    obtain ⟨slot, link, data, -, -, -, -, rfl⟩ := step_read hs
    exact .inl rfl
  | parse e =>
    obtain ⟨i, text, behind, server, -, -, rfl⟩ := step_parse hs
    exact .inl rfl
  | ackFile k =>
    obtain ⟨g, server, -, -, rfl⟩ := step_ackFile hs
    exact .inl rfl
  | acknowledge i minNumber result =>
    obtain rfl := Option.some.inj hs
    exact .inl rfl
  | printStats =>
    obtain ⟨-, rfl⟩ := step_printStats hs
    exact .inl rfl

/-- What a step hands to the permanent FIFO of a client. -/
def handed (c : Nat) : Action → List Bytes
  | .client c' b => if c' = c then Tracked.handed b else []
  | _            => []

/-- **The records of a client behind a step of the system.** -/
theorem step_written {a : Action} (h : Inv s) (hs : s.step a = some s') {m : Perm.Session}
    (hm : (s.stations c).tracked.client.inputQueueMsg = some m) : ∃ m',
      (s'.stations c).tracked.client.inputQueueMsg = some m' ∧
        m'.written.map Perm.Record.data = m.written.map Perm.Record.data ++ handed c a := by
  by_cases hc : ∃ b, a = .client c b
  · obtain ⟨b, rfl⟩ := hc
    obtain ⟨-, t', ht, rfl⟩ := step_client hs
    have hstation : ((s.goOn c t').stations c).tracked = t' := by
      unfold goOn
      split <;> rw [stations_setStation]
    rw [hstation, handed, if_pos rfl]
    exact Tracked.step_written b hm ht
  · have hnone : handed c a = [] := by
      cases a with
      | client c' b => exact if_neg fun e => hc ⟨b, by rw [e]⟩
      | dial | accept | hangUp | ready | replies | read | parse | ackFile | acknowledge | printStats => rfl
    rw [hnone]
    rcases step_moves h hs c with heq | ⟨b, ht, -, hb⟩
    · exact ⟨m, by rw [heq]; exact hm, (List.append_nil _).symm⟩
    · have hnetwork := (hb.resolve_left fun e => hc ⟨b, e⟩).rules (s.stations c).tracked
      rw [← hnetwork.2.2]
      exact Tracked.step_written b hm ht

/-- **A client in message mode adds files that can be sent**, with increasing ids. -/
theorem messenger_addsWell {names : Nat → CString} {a : Action} (hrule : IdsFitStep s a ∧ ProperStep a)
    (hm : ∀ c, Messenger (names c) (s.stations c).tracked) : AddsWell s a := by
  cases a with
  | client c b =>
    obtain ⟨-, hproper⟩ := hrule
    have hproper : Proper b := hproper
    obtain ⟨hname, hsourced, size, m, hmessages⟩ := hm c
    cases b with
    | select e =>
      exact ⟨hmessages.above hproper,
        fun f client hchoose => Tracked.made_sendable hmessages hsourced hname hproper hchoose⟩
    | queueAddFile f => exact hproper.elim
    | connect | lose | replies | remove | transmit | flush | sendMsg | getLastFileSent => exact ⟨trivial, trivial⟩
  | dial | accept | hangUp | ready | replies | read | parse | ackFile | acknowledge | printStats => trivial

theorem messenger_moves {a : Action} {t' : Tracked} (ho : Tracked.Ordered t) (h : Messenger name t)
    (hrule : ∀ b, a = .client c b → Proper b ∧ IdsFit t b) (hmoves : Moves a c t t') : Messenger name t' := by
  rcases hmoves with rfl | ⟨b, hs, hserver, hb⟩
  · exact h
  · obtain ⟨hname, hsourced, size, m, hm⟩ := h
    obtain ⟨hproper, hfit⟩ : Proper b ∧ IdsFit t b := hb.elim (hrule b) fun h => ⟨(h.rules t).1, (h.rules t).2.1⟩
    exact ⟨hname, Tracked.sourced_step b hsourced hproper hs, size,
      (Tracked.message_step b ⟨ho, m, hm⟩ hserver hproper hfit hs).2⟩

/-- The system, with clients in message mode. -/
structure MessagesInv (names : Nat → CString) (s : System) : Prop where
  inv : Inv s
  messengers : ∀ c, Messenger (names c) (s.stations c).tracked

theorem messagesInv_step {names : Nat → CString} (a : Action) (h : MessagesInv names s)
    (hrule : IdsFitStep s a ∧ ProperStep a) (hs : s.step a = some s') : MessagesInv names s' where
  inv := inv_step a h.inv (messenger_addsWell hrule h.messengers) hs
  messengers := fun c => messenger_moves (h.inv.station c).tracked.ordered (h.messengers c)
    (fun b hb => by subst hb; exact ⟨hrule.2, hrule.1⟩) (step_moves h.inv hs c)

theorem messenger_start {client : TrClient} (h : FreshOn client) : Messenger client.clientName (.start client) := by
  obtain ⟨F, d, e, queueLength, name, proxyState, fifo, ⟨hcounted, hfile, hpos, hfits, hdata⟩, hnew, rfl, hname, -⟩ := h
  obtain ⟨f, hf, hcur, -, hgood, -⟩ := Perm.permFifoNew_spec (e := e) hfile.cleans hcounted hpos
  obtain rfl := Option.some.inj (hf.symm.trans hnew)
  have hgood := hgood (Nat.lt_trans hfits (by decide))
  refine ⟨hname,
    ⟨rfl, fun f hf => absurd hf List.not_mem_nil, fun x hx => absurd hx List.not_mem_nil, fun m hm r hr => ?_⟩,
    queueLength, .start f, rfl, ⟨_, _, hgood⟩, lt_of_eq_of_lt hcur hfits, rfl, fun _ hx => absurd hx List.not_mem_nil,
    fun _ hx => absurd hx List.not_mem_nil⟩
  obtain rfl := Option.some.inj hm
  rw [hgood.written] at hr
  -- cleaning keeps the bytes of the records it keeps
  rw [Perm.Parts.all_opened] at hr
  have hmem : r.data ∈ F.unacked.map Perm.Record.data := by
    rw [← F.map_data_kept]
    exact List.mem_map_of_mem hr
  obtain ⟨r', hr', he⟩ := List.mem_map.1 hmem
  rw [← he]
  exact hdata r' (List.mem_filter.1 hr').1

theorem messagesInv_start {clients : Nat → TrClient} (hfresh : ∀ c, FreshOn (clients c)) (maxClients : Nat) :
    MessagesInv (fun c => (clients c).clientName) (start clients maxClients) := by
  refine ⟨inv_start (fun c => ?_) maxClients, fun c => messenger_start (hfresh c)⟩
  obtain ⟨F, d, e, queueLength, name, proxyState, fifo, -, -, hc, -, hopens⟩ := hfresh c
  exact ⟨⟨queueLength, name, proxyState, _, hc⟩, hopens⟩

theorem messagesInv_run {clients : Nat → TrClient} {maxClients : Nat}
    (hfresh : ∀ c, FreshOn (clients c)) {as : List Action}
    (hl : Legal step (fun s a => IdsFitStep s a ∧ ProperStep a) (start clients maxClients) as)
    (hr : run step (start clients maxClients) as = some s) : MessagesInv (fun c => (clients c).clientName) s :=
  run_keeps (fun _ a _ h hok hs => messagesInv_step a h hok hs) as _ s (messagesInv_start hfresh maxClients) hl hr

/-- **A message the permanent FIFO was allowed to forget** was in a file that was removed. -/
theorem MessagesInv.dropped {names : Nat → CString} (h : MessagesInv names s) {m : Perm.Session}
    (hm : (s.stations c).tracked.client.inputQueueMsg = some m) {x : Nat} (hx : x ∈ (s.stations c).tracked.permAcks)
    {r : Perm.Record} (hrm : r ∈ m.written) (hle : r.id ≤ x) :
    ∃ g ∈ (s.stations c).tracked.removed,
      g.contents = (some (names c), 1, (r.id : Int), r.data, (r.data.length : Int)) := by
  have htracked := (h.inv.station c).tracked
  obtain ⟨-, hsourced, size, m', hmessages⟩ := h.messengers c
  obtain rfl := Option.some.inj (hm.symm.trans hmessages.messages)
  obtain ⟨f, hf, rfl⟩ := hsourced.acks x hx
  have hkept := htracked.ordered.kept
  have hfq : f ∈ (s.stations c).tracked.queued := by
    rw [hkept.split]
    exact List.mem_append_left _ hf
  obtain ⟨r', hr', hle', hkey'⟩ := hmessages.item_of hfq
  obtain ⟨g, hg, hkey⟩ := hmessages.file_of hrm (Nat.le_trans hle (hmessages.acks _ hx))
  obtain ⟨hgmaj, hgmin, hgblobs⟩ : g.id.majId = 1 ∧ g.id.minId = r.id ∧ g.blobs = [r.data] := by
    simpa [Tracked.fileKey] using hkey
  obtain ⟨hfmaj, hfmin, -⟩ : f.id.majId = 1 ∧ f.id.minId = r'.id ∧ f.blobs = [r'.data] := by
    simpa [Tracked.fileKey] using hkey'
  have hid : toUnsigned 64 f.id.minId = r'.id := by
    obtain ⟨hdr, p, hgood⟩ := hmessages.good
    have := hgood.id_le_current hr'
    have := hmessages.fits
    rw [hfmin]
    exact toUnsigned_natCast (by omega)
  rw [hid] at hle
  -- a file below one that was removed was removed
  have hremoved : g ∈ (s.stations c).tracked.removed := by
    have hmem := hg
    rw [hkept.split] at hmem
    rcases List.mem_append.1 hmem with hmem | hmem
    · exact hmem
    · exfalso
      have hinc := hkept.increasing
      rw [hkept.split] at hinc
      have habove := (List.pairwise_append.1 hinc).2.2 f hf g hmem
      rw [trFileIdCompare_iff] at habove
      omega
  refine ⟨g, hremoved, ?_⟩
  have hsize := (htracked.sendable g hg).1.data
  rw [hgblobs] at hsize
  unfold TrFile.contents
  rw [hsourced.files g hg, hgmaj, hgmin, ← hsize, hgblobs]
  simp

/-- **What a client lets its permanent FIFO forget, the application has.** -/
theorem dropped_received (clients : Nat → TrClient) (maxClients : Nat) (hfresh : ∀ c, FreshOn (clients c))
    (as : List Action) (hl : Legal step (fun s a => IdsFitStep s a ∧ ProperStep a) (start clients maxClients) as)
    (hr : run step (start clients maxClients) as = some s) : ∀ c m,
      (s.stations c).tracked.client.inputQueueMsg = some m → ∀ x ∈ (s.stations c).tracked.permAcks, ∀ r ∈ m.written,
        r.id ≤ x →
        ∃ g ∈ s.server.received, (∃ l, s.links[g.connection]? = some l ∧ l.client = c) ∧
          g.file.contents = (some (clients c).clientName, 1, (r.id : Int), r.data, (r.data.length : Int)) := by
  have h := messagesInv_run hfresh hl hr
  intro c m hm x hx r hrm hle
  obtain ⟨f, hf, hcontents⟩ := h.dropped hm hx hrm hle
  obtain ⟨y, hy, hlink, hsame⟩ := ((h.inv.station c).tracked.knows.removed f hf).1
  exact ⟨y, hy, hlink, hsame.trans hcontents⟩

/-! ## A message -/

theorem idsFitStep_iff (s : System) (a : Action) :
    IdsFitStep s a ↔ ∀ x ∈ a.ofClient, IdsFit (s.stations x.1).tracked x.2 := by
  cases a <;> simp [IdsFitStep, Action.ofClient]

instance (s : System) (a : Action) : Decidable (IdsFitStep s a) := decidable_of_iff _ (idsFitStep_iff s a).symm

/-- A message is handed over, sent, received, and acknowledged all the way back. -/
def messageRun : List Action :=
  .client 0 (.sendMsg Perm.calm [65, 0]) :: (opening 0 0 ++ sendsFile 0 Perm.calm ++
    [.read 0 5000, .parse TrDataConnection.willing, .parse TrDataConnection.willing, .parse TrDataConnection.willing,
      .ackFile 0, .acknowledge 0 0 0, .replies 0 1, .client 0 .remove])

theorem messageRun_proper : ∀ a ∈ messageRun, ProperStep a := by
  have hpayload : Perm.payload [65, 0] 0 = some [65, 0] := by decide
  simp [messageRun, opening, sendsFile, ProperStep, Proper, Perm.calm_succeeds, hpayload, Perm.ioMax]

/-- Clients on the permanent FIFO of an empty file. -/
def messageClients (fifo : Perm.PermFifo) : Nat → TrClient := fun _ => .start 4 unknown 0 (some (.start fifo))

theorem unknown_nameOk : NameOk unknown := ⟨by decide, TrDataConnection.unknown_word, by decide⟩

theorem messageClients_fresh {fifo : Perm.PermFifo}
    (hfifo : Perm.permFifoNew Perm.calm (Perm.dirOf .empty) 4 = some fifo) (c : Nat) :
    FreshOn (messageClients fifo c) :=
  ⟨.empty, Perm.dirOf .empty, Perm.calm, 4, unknown, 0, fifo, ⟨Perm.FifoFile.empty_counted, Perm.hasFile_dirOf .empty,
    by decide, by decide, fun r hr => by cases hr⟩, hfifo, rfl, unknown_nameOk, unknown_opens _⟩

theorem dropped_received_messageRun : ∃ fifo s m, run step (start (messageClients fifo) 1) messageRun = some s ∧
    (s.stations 0).tracked.client.inputQueueMsg = some m ∧ (s.stations 0).tracked.permAcks = [1] ∧
    ∀ r ∈ m.written, r.id ≤ 1 → ∃ g ∈ s.server.received, g.file.contents =
      (some unknown, 1, (r.id : Int), r.data, (r.data.length : Int)) := by
  have hruns : (Perm.permFifoNew Perm.calm (Perm.dirOf .empty) 4).any (fun fifo =>
      decide (Legal step IdsFitStep (start (messageClients fifo) 1) messageRun) &&
      (run step (start (messageClients fifo) 1) messageRun).any fun s =>
        (s.stations 0).tracked.client.inputQueueMsg.isSome && decide ((s.stations 0).tracked.permAcks = [1])) =
          true := by
    decide +kernel
  obtain ⟨fifo, hfifo, h⟩ := (Option.any_eq_true _ _).1 hruns
  obtain ⟨hlegal, hrun⟩ := Bool.and_eq_true_iff.1 h
  obtain ⟨s, hr, hs⟩ := (Option.any_eq_true _ _).1 hrun
  obtain ⟨hm, hacks⟩ := Bool.and_eq_true_iff.1 hs
  obtain ⟨m, hm⟩ := Option.isSome_iff_exists.1 hm
  have hacks := of_decide_eq_true hacks
  have hlegal := (of_decide_eq_true hlegal).and fun a ha _ => messageRun_proper a ha
  refine ⟨fifo, s, m, hr, hm, hacks, fun r hrm hle => ?_⟩
  obtain ⟨g, hg, -, hcontents⟩ :=
    dropped_received (messageClients fifo) 1 (messageClients_fresh hfifo) messageRun hlegal hr 0
    m hm 1 (by rw [hacks]; exact List.mem_singleton_self 1) r hrm hle
  exact ⟨g, hg, hcontents⟩

end System
end Transport
end Flp
