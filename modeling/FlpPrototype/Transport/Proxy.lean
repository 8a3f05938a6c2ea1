import FlpPrototype.PermFifo.Delivery
import FlpPrototype.Transport.ClientAcks
/-!
# Proxy — files passed on, and their acknowledgements passed back

`TR_proxy_main` gives the files its server part received from several clients to one client of the server upstream, and
calls `TR_server_ack_file` for the files that client took for acknowledged.  The files of all senders share one queue
and one acknowledged id, so this is right if their ids increase over all senders (`acks_sent_upstream`); that each
sender's own ids increase is not enough (`crossed_not_sent`).
-/
namespace Flp
namespace Transport

def TR_PROXY_CLIENT_QUEUE : Nat := 100

def TR_PROXY_IS_PROXY : Int := 3

/-- The proxy: its client, and the files `TR_server_ack_file` was called for. -/
structure TrProxy where
  client : Tracked
  serverAcks : List TrFile

namespace TrProxy

def start (proxyName : CString) : TrProxy :=
  ⟨.start (.start TR_PROXY_CLIENT_QUEUE proxyName TR_PROXY_IS_PROXY none), []⟩

/-- Part one of the loop, with a file `TR_server_get_file` returns. -/
def transmission (p : TrProxy) (f : TrFile) : TrProxy :=
  if p.client.client.inputQueue.isFull then p else { p with client := p.client.queueAddFile f }

/-- Part two of the loop. -/
def acknowledgment (p : TrProxy) : TrProxy :=
  match p.client.client.outputQueue.read.1 with
  | none   => p
  | some f => { p with client := p.client.getLastFileSent, serverAcks := p.serverAcks ++ [f] }

/-- A step of the proxy's thread, the user of the client, or of the client's own. -/
def step (p : TrProxy) : Action → Option TrProxy
  | .queueAddFile f  => some (p.transmission f)
  | .getLastFileSent => some p.acknowledgment
  | a                => (p.client.step a).map fun client => { p with client }

/-- Each sender's files come in increasing order of their ids. -/
def SendersIncrease (p : TrProxy) : Action → Prop
  | .queueAddFile f => ∀ g ∈ p.client.queued, g.id.sender = f.id.sender → trFileIdCompare f.id g.id = true
  | _               => True

/-- The files of all senders do, and are above the id nothing is acknowledged by. -/
def AllIncrease (p : TrProxy) : Action → Prop
  | .queueAddFile f => (∀ g ∈ p.client.queued, trFileIdCompare f.id g.id = true) ∧
      trFileIdCompare f.id noneAcknowledged = true
  | _               => True

/-- **What is acknowledged downstream** was sent upstream completely, and acknowledged there. -/
def AcksPassedBack (p : TrProxy) : Prop :=
  ∀ f ∈ p.serverAcks, f ∈ p.client.sent ∧ f ∈ p.client.acknowledged

/-! ## Increasing ids -/

/-- The output queue and the acknowledgements are of files that were removed. -/
structure Inv (p : TrProxy) : Prop where
  ordered : p.client.Ordered
  messages : p.client.client.inputQueueMsg = none
  output : ∀ f ∈ p.client.client.outputQueue.items, f ∈ p.client.removed
  acks : ∀ f ∈ p.serverAcks, f ∈ p.client.removed

theorem inv_start (proxyName : CString) : Inv (start proxyName) where
  ordered := Tracked.ordered_start _ rfl rfl rfl
  messages := rfl
  output := fun _ hf => absurd hf List.not_mem_nil
  acks := fun _ hf => absurd hf List.not_mem_nil

/-- What a step of the client's thread does with the output queue. -/
structure Outputs (t t' : Tracked) : Prop where
  messages : t'.client.inputQueueMsg = none
  output : ∀ f ∈ t'.client.outputQueue.items, f ∈ t'.removed
  removed : ∀ f ∈ t.removed, f ∈ t'.removed

theorem write_subset {q : Fifo} {f g : TrFile} (h : g ∈ (q.write f).items) : g ∈ q.items ∨ g = f := by
  unfold Fifo.write at h
  split at h
  · exact .inl h
  · exact (List.mem_append.1 h).imp_right List.mem_singleton.1

theorem removes_outputs {t t' : Tracked} (hr : t.Removes t') (hnone : t.client.inputQueueMsg = none)
    (hout : ∀ f ∈ t.client.outputQueue.items, f ∈ t.removed) : Outputs t t' := by
  cases hr with
  | stop => exact ⟨hnone, hout, fun _ hf => hf⟩
  | acked _ _ hmessages =>
    rw [hnone] at hmessages
    cases hmessages
  | moved =>
    refine ⟨hnone, fun f hf => ?_, fun f hf => List.mem_append_left _ hf⟩
    rcases write_subset hf with hf | rfl
    · exact List.mem_append_left _ (hout f hf)
    · exact List.mem_append_right _ List.mem_cons_self

theorem select_outputs {t t' : Tracked} {e : Perm.Env} (hs : t.select e = some t')
    (hnone : t.client.inputQueueMsg = none) (hout : ∀ f ∈ t.client.outputQueue.items, f ∈ t.removed) :
    Outputs t t' := by
  obtain ⟨choice, hchoice, rfl⟩ := Option.map_eq_some_iff.1 hs
  cases TrClient.chooseFile_chose hchoice with
  | @nothing m hread =>
    rcases hread with hm | ⟨m₀, m', hmessages, -⟩
    · exact ⟨hm.trans hnone, hout, fun _ hf => hf⟩
    · rw [hnone] at hmessages
      cases hmessages
  | ended => exact ⟨hnone, hout, fun _ hf => hf⟩
  | begun => exact ⟨hnone, hout, fun _ hf => hf⟩
  | made _ _ _ hmessages =>
    rw [hnone] at hmessages
    cases hmessages

theorem transmit_outputs {t : Tracked} (n : Nat) (hnone : t.client.inputQueueMsg = none)
    (hout : ∀ f ∈ t.client.outputQueue.items, f ∈ t.removed) : Outputs t (t.transmit n) := by
  obtain ⟨-, -, -, -, -, hmessages, houtput⟩ := t.client.fillBuffer_same
  have hsame : Outputs t (t.flushed (t.client.fillBuffer.bufferSend n).1 (t.client.fillBuffer.bufferSend n).2) := by
    refine ⟨hmessages.trans hnone, fun f hf => hout f ?_, fun _ hf => hf⟩
    rw [← houtput]
    exact hf
  rcases t.transmit_cases n with ⟨-, heq⟩ | ⟨-, heq⟩
  · rw [heq]
    exact ⟨hsame.messages, hsame.output, hsame.removed⟩
  · rw [heq]
    exact hsame

theorem addsAbove_select {t : Tracked} {e : Perm.Env} (hnone : t.client.inputQueueMsg = none) :
    t.AddsAbove (.select e) := by
  intro f client hmade
  cases TrClient.chooseFile_chose hmade with
  | made _ _ _ hmessages =>
    rw [hnone] at hmessages
    cases hmessages

theorem Inv.thread {p : TrProxy} (h : Inv p) {a : Action} {t : Tracked} (hserver : p.client.ServerAcks a)
    (hadds : p.client.AddsAbove a) (hs : p.client.step a = some t) (ho : Outputs p.client t) :
    Inv { p with client := t } where
  ordered := Tracked.ordered_step a h.ordered hserver hadds hs
  messages := ho.messages
  output := ho.output
  acks := fun f hf => ho.removed f (h.acks f hf)

theorem Inv.thread_guarded {p p' : TrProxy} (h : Inv p) {a : Action} {t : Tracked} {c : Prop} [Decidable c]
    (hstep : p.client.step a = if c then some t else none) (hserver : p.client.ServerAcks a)
    (hadds : p.client.AddsAbove a) (hs : (p.client.step a).map (fun client => { p with client }) = some p')
    (ho : Outputs p.client t) : Inv p' := by
  obtain ⟨t', ht, rfl⟩ := Option.map_eq_some_iff.1 hs
  refine h.thread hserver hadds ht ?_
  rw [hstep] at ht
  obtain ⟨-, ht⟩ := Option.ite_none_right_eq_some.1 ht
  obtain rfl := Option.some.inj ht
  exact ho

/-- **Every step** keeps the acknowledgements to files that were removed. -/
theorem inv_step {p p' : TrProxy} (a : Action) (h : Inv p) (hserver : p.client.ServerAcks a)
    (hincrease : AllIncrease p a) (hs : p.step a = some p') : Inv p' := by
  have hsame : Outputs p.client p.client := ⟨h.messages, h.output, fun _ hf => hf⟩
  cases a with
  | connect direct =>
    refine h.thread_guarded rfl hserver trivial hs ?_
    exact ⟨hsame.messages, hsame.output, hsame.removed⟩
  | lose =>
    refine h.thread_guarded rfl hserver trivial hs ?_
    exact ⟨hsame.messages, hsame.output, hsame.removed⟩
  | replies lines =>
    refine h.thread_guarded rfl hserver trivial hs ?_
    have hq := Tracked.replies_queues lines p.client
    exact ⟨hq.messages.trans h.messages, fun f hf => hq.removed ▸ h.output f (hq.output ▸ hf),
      fun f hf => hq.removed ▸ hf⟩
  | remove =>
    refine h.thread_guarded rfl hserver trivial hs ?_
    exact removes_outputs (Tracked.remove_removes _) h.messages h.output
  | select e =>
    obtain ⟨t, ht, rfl⟩ := Option.map_eq_some_iff.1 hs
    refine h.thread hserver (addsAbove_select h.messages) ht ?_
    obtain ⟨-, ht⟩ := Option.ite_none_right_eq_some.1 ht
    exact select_outputs ht h.messages h.output
  | transmit n =>
    refine h.thread_guarded rfl hserver trivial hs ?_
    exact transmit_outputs n h.messages h.output
  | flush e =>
    obtain ⟨t, ht, rfl⟩ := Option.map_eq_some_iff.1 hs
    refine h.thread hserver trivial ht ?_
    obtain ⟨-, ht⟩ := Option.ite_none_right_eq_some.1 ht
    rw [Tracked.onMessages, h.messages] at ht
    obtain rfl := Option.some.inj ht
    exact hsame
  | sendMsg e msg =>
    obtain ⟨t, ht, rfl⟩ := Option.map_eq_some_iff.1 hs
    refine h.thread hserver trivial ht ?_
    rw [Tracked.step, Tracked.onMessages, h.messages] at ht
    obtain rfl := Option.some.inj ht
    exact hsame
  | queueAddFile f =>
    obtain rfl := Option.some.inj hs
    unfold transmission
    split
    · exact h
    · rename_i hroom
      refine h.thread (a := .queueAddFile f) trivial (fun _ => hincrease) rfl ?_
      unfold Tracked.queueAddFile
      rw [if_neg hroom]
      exact ⟨hsame.messages, hsame.output, hsame.removed⟩
  | getLastFileSent =>
    obtain rfl := Option.some.inj hs
    unfold acknowledgment
    split
    · exact h
    · rename_i f hfirst
      have hf : f ∈ p.client.client.outputQueue.items := List.mem_of_mem_head? hfirst
      have hstep : p.client.step .getLastFileSent = some p.client.getLastFileSent := rfl
      refine ⟨Tracked.ordered_step .getLastFileSent h.ordered trivial trivial hstep, h.messages,
        fun g hg => h.output g (List.mem_of_mem_tail hg), fun g hg => ?_⟩
      rcases List.mem_append.1 hg with hg | hg
      · exact h.acks g hg
      · rw [List.mem_singleton.1 hg]
        exact h.output f hf

/-- **The proxy acknowledges what was acknowledged upstream**, if the ids of the files it is given increase. -/
theorem acks_sent_upstream (proxyName : CString) (as : List Action)
    (hl : Legal step (fun p a => p.client.ServerAcks a ∧ AllIncrease p a) (start proxyName) as) {p : TrProxy}
    (hr : run step (start proxyName) as = some p) : AcksPassedBack p := by
  have hinv : Inv p := run_keeps (I := Inv) (fun p a p' h hok hs => inv_step a h hok.1 hok.2 hs) as (start proxyName) p
    (inv_start proxyName) hl hr
  intro f hf
  have hacknowledged := hinv.ordered.kept.removed f (hinv.acks f hf)
  exact ⟨hinv.ordered.kept.acknowledged f hacknowledged, hacknowledged⟩

/-! ## Ids that do not increase -/

theorem allIncrease_iff (p : TrProxy) (a : Action) : AllIncrease p a ↔ ∀ f ∈ a.file,
    (∀ g ∈ p.client.queued, trFileIdCompare f.id g.id = true) ∧ trFileIdCompare f.id noneAcknowledged = true := by
  cases a <;> simp [AllIncrease, Action.file]

instance (p : TrProxy) (a : Action) : Decidable (AllIncrease p a) := decidable_of_iff _ (allIncrease_iff p a).symm

theorem sendersIncrease_iff (p : TrProxy) (a : Action) : SendersIncrease p a ↔ ∀ f ∈ a.file,
    ∀ g ∈ p.client.queued, g.id.sender = f.id.sender → trFileIdCompare f.id g.id = true := by
  cases a <;> simp [SendersIncrease, Action.file]

instance (p : TrProxy) (a : Action) : Decidable (SendersIncrease p a) :=
  decidable_of_iff _ (sendersIncrease_iff p a).symm

def nodeName : CString := ⟨ascii "node".toList, by decide⟩

/-- A file of one byte from a sender. -/
def oneByte (sender : Nat) (minId : Int) : TrFile := ⟨0, ⟨some nodeName, 1, minId, sender⟩, [[65]], 1⟩

/-- A file of one sender is sent and acknowledged, then one of another sender with a smaller id comes. -/
def crossed (second : Int) : List Action :=
  [.queueAddFile (oneByte 0 100), .connect true] ++ fileTurns Perm.calm ++
    [.replies [ackLine 100 1], .remove, .remove, .select Perm.calm, .transmit 0, .queueAddFile (oneByte 1 second),
      .replies [], .remove, .getLastFileSent, .getLastFileSent]

theorem acks_sent_upstream_crossed : ∃ p, run step (start nodeName) (crossed 101) = some p ∧ AcksPassedBack p := by
  have hserver : Legal step (fun p a => p.client.ServerAcks a ∧ AllIncrease p a) (start nodeName) (crossed 101) := by
    decide +kernel
  have hsome : (run step (start nodeName) (crossed 101)).isSome := by decide +kernel
  obtain ⟨p, hr⟩ := Option.isSome_iff_exists.1 hsome
  exact ⟨p, hr, acks_sent_upstream nodeName (crossed 101) hserver hr⟩

theorem crossed_acks : (run step (start nodeName) (crossed 5)).map (fun p =>
    (p.serverAcks.map (fun f => f.id.minId), p.client.sent.map (fun f => f.id.minId))) = some ([100, 5], [100]) := by
  decide +kernel

/-- **The second file is acknowledged**, and was never sent. -/
theorem crossed_not_sent :
    Legal step (fun p a => p.client.ServerAcks a ∧ SendersIncrease p a) (start nodeName) (crossed 5) ∧
      ∃ p, run step (start nodeName) (crossed 5) = some p ∧ ¬AcksPassedBack p := by
  refine ⟨by decide +kernel, ?_⟩
  have hacks := crossed_acks
  cases hr : run step (start nodeName) (crossed 5) with
  | none =>
    rw [hr] at hacks
    cases hacks
  | some p =>
    rw [hr, Option.map_some] at hacks
    obtain ⟨hserver, hsent⟩ := Prod.mk.inj (Option.some.inj hacks)
    refine ⟨p, rfl, fun h => ?_⟩
    obtain ⟨f, hf, hid⟩ := List.mem_map.1 (show (5 : Int) ∈ p.serverAcks.map (fun f => f.id.minId) by
      rw [hserver]
      decide)
    have hmem : (5 : Int) ∈ p.client.sent.map (fun f => f.id.minId) := List.mem_map.2 ⟨f, (h f hf).1, hid⟩
    rw [hsent] at hmem
    exact absurd hmem (by decide)

end TrProxy
end Transport
end Flp
