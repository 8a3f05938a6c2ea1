import FlpPrototype.PermFifo.Delivery
import FlpPrototype.Transport.ClientAcks
/-!
# Messages — which messages the permanent FIFO is told to drop

In message mode the files are made of the items of the permanent FIFO, with the item's id for the minor one.  The id is
an `unsigned long` there and an `int` here.  While it fits, an acknowledgement in the FIFO covers only items the server
has acknowledged (`acks_covered`); the first one that does not is negative, and acknowledges everything
(`first_large_id_uncovered`).
-/
namespace Flp
namespace Perm

/-! ## What a session says of its items -/

variable {s s' : Session} {size : Nat} {hdr : MainHeader} {p : Parts}

namespace Session.Good

theorem delivered_eq (h : s.Good size hdr p) :
    s.delivered = (s.written.filter fun r => decide (r.id ≤ s.lastRead)).map Record.item := by
  rw [h.written, h.lastRead]
  exact h.delivered

theorem written_increasing (h : s.Good size hdr p) : Increasing s.written := by
  rw [h.written]
  exact h.inv.readable.increasing

theorem current_eq (h : s.Good size hdr p) : s.fifo.currentId = lastId s.written := by
  rw [h.written]
  exact h.inv.readable.current

theorem id_le_current (h : s.Good size hdr p) {r : Record} (hr : r ∈ s.written) : r.id ≤ s.fifo.currentId := by
  rw [h.current_eq]
  exact h.written_increasing.id_le_lastId r hr

theorem lastRead_le (h : s.Good size hdr p) : s.lastRead ≤ s.fifo.currentId := by
  rw [h.lastRead]
  exact h.inv.readable.lastIdOut_le

/-- An item that was read is one of the records, up to the last one read. -/
theorem mem_delivered (h : s.Good size hdr p) {x : FifoItem} :
    x ∈ s.delivered ↔ ∃ r ∈ s.written, r.id ≤ s.lastRead ∧ r.item = x := by
  rw [h.delivered_eq, List.mem_map]
  constructor
  · rintro ⟨r, hr, hx⟩
    obtain ⟨hmem, hle⟩ := List.mem_filter.1 hr
    exact ⟨r, hmem, of_decide_eq_true hle, hx⟩
  · rintro ⟨r, hmem, hle, hx⟩
    exact ⟨r, List.mem_filter.2 ⟨hmem, decide_eq_true hle⟩, hx⟩

theorem delivered_increasing (h : s.Good size hdr p) : s.delivered.Pairwise fun x y => x.id < y.id := by
  rw [h.delivered_eq, List.pairwise_map]
  exact (h.written_increasing.filter _).imp fun hlt => hlt

end Session.Good
end Perm

namespace Transport
namespace Tracked

variable {t t' : Tracked}

/-- What a file made of an item has of it. -/
def itemKey (x : Perm.FifoItem) : Int × Int × List Bytes := (1, x.id, [(x.data.getD []).take x.size])

def fileKey (f : TrFile) : Int × Int × List Bytes := (f.id.majId, f.id.minId, f.blobs)

/-- **What the permanent FIFO was told to drop was acknowledged**: every record up to a number given to `permFIFO_ack`
is the message of an acknowledged file. -/
def Covered (t : Tracked) : Prop := ∀ m, t.client.inputQueueMsg = some m → ∀ x ∈ t.permAcks, ∀ r ∈ m.written, r.id ≤ x →
  ∃ f ∈ t.acknowledged, fileKey f = (1, (r.id : Int), [r.data])

/-! ## The rules -/

/-- Memory and the file system do what they are asked; a message is a string one system call writes; no other files are
added. -/
def Proper : Action → Prop
  | .select e       => e.Succeeds
  | .flush e        => e.Succeeds
  | .sendMsg e msg  => e.Succeeds ∧ ∃ b, Perm.payload msg 0 = some b ∧ b.length ≤ Perm.ioMax
  | .queueAddFile _ => False
  | _               => True

/-- The ids given to messages fit an `int`. -/
def IdsFit (t : Tracked) : Action → Prop
  | .sendMsg _ _ => ∀ m, t.client.inputQueueMsg = some m → m.fifo.currentId + 1 < 2 ^ 31
  | _            => True

/-! ## The invariant -/

/-- The files are made of the items read, and the numbers given to `permFIFO_ack` are of items read. -/
structure OfMessages (size : Nat) (t : Tracked) (m : Perm.Session) : Prop where
  messages : t.client.inputQueueMsg = some m
  good : ∃ hdr p, m.Good size hdr p
  fits : m.fifo.currentId < 2 ^ 31
  queued : t.queued.map fileKey = m.delivered.map itemKey
  acks : ∀ x ∈ t.permAcks, x ≤ m.lastRead
  covered : ∀ x ∈ t.permAcks, ∀ r ∈ m.written, r.id ≤ x → ∃ f ∈ t.acknowledged, fileKey f = (1, (r.id : Int), [r.data])

theorem itemKey_item (r : Perm.Record) : itemKey r.item = (1, (r.id : Int), [r.data]) := by
  unfold itemKey Perm.Record.item
  simp

variable {size : Nat} {m m' : Perm.Session} {f : TrFile}

namespace OfMessages

/-- The file of the queue an item was made into, and the item a file was made of. -/
theorem item_of (h : OfMessages size t m) (hf : f ∈ t.queued) :
    ∃ r ∈ m.written, r.id ≤ m.lastRead ∧ fileKey f = (1, (r.id : Int), [r.data]) := by
  have hmem : fileKey f ∈ m.delivered.map itemKey := by
    rw [← h.queued]
    exact List.mem_map_of_mem hf
  obtain ⟨x, hx, hkey⟩ := List.mem_map.1 hmem
  obtain ⟨hdr, p, hg⟩ := h.good
  obtain ⟨r, hr, hle, rfl⟩ := hg.mem_delivered.1 hx
  exact ⟨r, hr, hle, by rw [← hkey, itemKey_item]⟩

theorem file_of (h : OfMessages size t m) {r : Perm.Record} (hr : r ∈ m.written) (hle : r.id ≤ m.lastRead) :
    ∃ f ∈ t.queued, fileKey f = (1, (r.id : Int), [r.data]) := by
  obtain ⟨hdr, p, hg⟩ := h.good
  have hmem : itemKey r.item ∈ t.queued.map fileKey := by
    rw [h.queued]
    exact List.mem_map_of_mem (hg.mem_delivered.2 ⟨r, hr, hle, rfl⟩)
  obtain ⟨f, hf, hkey⟩ := List.mem_map.1 hmem
  exact ⟨f, hf, by rw [hkey, itemKey_item]⟩

theorem congr (h : OfMessages size t m) (hmessages : t'.client.inputQueueMsg = t.client.inputQueueMsg)
    (hqueued : t'.queued = t.queued) (hacks : t'.permAcks = t.permAcks)
    (hacknowledged : ∀ f ∈ t.acknowledged, f ∈ t'.acknowledged) : OfMessages size t' m where
  messages := hmessages.trans h.messages
  good := h.good
  fits := h.fits
  queued := by rw [hqueued]; exact h.queued
  acks := by rw [hacks]; exact h.acks
  covered := by
    rw [hacks]
    intro x hx r hr hle
    obtain ⟨f, hf, hkey⟩ := h.covered x hx r hr hle
    exact ⟨f, hacknowledged f hf, hkey⟩

theorem session (h : OfMessages size t m) (hmessages : t'.client.inputQueueMsg = some m')
    (hgood : ∃ hdr p, m'.Good size hdr p) (hwritten : m'.written = m.written) (hdelivered : m'.delivered = m.delivered)
    (hlast : m'.lastRead = m.lastRead) (hqueued : t'.queued = t.queued) (hacks : t'.permAcks = t.permAcks)
    (hacknowledged : t'.acknowledged = t.acknowledged) : OfMessages size t' m' where
  messages := hmessages
  good := hgood
  fits := by
    obtain ⟨hdr, p, hg⟩ := h.good
    obtain ⟨hdr', p', hg'⟩ := hgood
    rw [hg'.current_eq, hwritten, ← hg.current_eq]
    exact h.fits
  queued := by rw [hqueued, hdelivered]; exact h.queued
  acks := by rw [hacks, hlast]; exact h.acks
  covered := by rw [hacks, hacknowledged, hwritten]; exact h.covered

/-! ## Messages -/

/-- **A message is written**: its id is above everything that was acknowledged. -/
theorem write {e : Perm.Env} {msg : Bytes} (h : OfMessages size t m) (hproper : Proper (.sendMsg e msg))
    (hfit : m.fifo.currentId + 1 < 2 ^ 31) (hs : m.step (e, .write msg 0) = some m') :
    OfMessages size { t with client := { t.client with inputQueueMsg := some m' } } m' := by
  obtain ⟨hsucceeds, b, hpayload, hlen⟩ := hproper
  obtain ⟨hdr, p, hg⟩ := h.good
  have hneg : ¬(0 : Int) < 0 := by decide
  obtain ⟨p', hg', -⟩ := hg.write hsucceeds hneg hpayload hlen (by omega) hs
  obtain ⟨⟨code, fifo⟩, hw, rfl⟩ := Option.map_eq_some_iff.1 hs
  rw [Perm.permFifoWrite_eq hsucceeds hneg hpayload] at hw
  obtain ⟨-, hcur, -⟩ := hg.inv.write hsucceeds (Perm.payload_ne_nil hpayload) hlen (by omega) hw
  refine ⟨rfl, ⟨hdr, p', hg'⟩, lt_of_eq_of_lt hcur hfit, h.queued, h.acks, fun x hx r hr hle => ?_⟩
  rcases List.mem_append.1 hr with hr | hr
  · exact h.covered x hx r hr hle
  · -- the new record
    have hid : r.id = fifo.currentId := by
      obtain ⟨b', -, rfl⟩ := Option.map_eq_some_iff.1 (Option.mem_toList.1 hr)
      rfl
    have hx := h.acks x hx
    have hlast := hg.lastRead_le
    rw [hid] at hle
    have hcur : fifo.currentId = m.fifo.currentId + 1 := hcur
    omega

theorem flush {e : Perm.Env} (h : OfMessages size t m) (hsucceeds : e.Succeeds)
    (hs : m.step (e, .flush 15) = some m') :
    OfMessages size { t with client := { t.client with inputQueueMsg := some m' } } m' := by
  obtain ⟨hdr, p, hg⟩ := h.good
  obtain ⟨p', hg', -⟩ := hg.flush hsucceeds hs
  obtain ⟨r, -, rfl⟩ := Option.map_eq_some_iff.1 hs
  exact h.session rfl ⟨hdr, p', hg'⟩ rfl rfl rfl rfl rfl rfl

end OfMessages

/-! ## Reading -/

theorem readMessage_none {e : Perm.Env} (h : TrClient.readMessage e m = some (none, m')) :
    m'.written = m.written ∧ m'.delivered = m.delivered ∧ m'.lastRead = m.lastRead := by
  unfold TrClient.readMessage at h
  obtain ⟨r, -, hr⟩ := Option.map_eq_some_iff.1 h
  split at hr
  · cases hr
  · obtain ⟨-, rfl⟩ := Prod.mk.inj hr
    exact ⟨rfl, rfl, rfl⟩

theorem readMessage_some {e : Perm.Env} {item : Perm.FifoItem} (h : TrClient.readMessage e m = some (some item, m')) :
    m'.written = m.written ∧ m'.delivered = m.delivered ++ [item] ∧ m'.lastRead = item.id := by
  unfold TrClient.readMessage at h
  obtain ⟨r, -, hr⟩ := Option.map_eq_some_iff.1 h
  split at hr
  · obtain ⟨hitem, rfl⟩ := Prod.mk.inj hr
    obtain rfl := Option.some.inj hitem
    exact ⟨rfl, rfl, rfl⟩
  · cases hr

theorem OfMessages.read {e : Perm.Env} (h : OfMessages size t m) (hsucceeds : e.Succeeds) {item : Option Perm.FifoItem}
    (hread : TrClient.readMessage e m = some (item, m')) : ∃ hdr p, m'.Good size hdr p := by
  obtain ⟨hdr, p, hg⟩ := h.good
  have hstep : m.step (e, .read) = some m' := by
    rw [TrClient.readMessage_step, hread]
    rfl
  obtain ⟨p', hg', -⟩ := hg.read hsucceeds hstep
  exact ⟨hdr, p', hg'⟩

theorem OfMessages.made {e : Perm.Env} (h : OfMessages size t m) (hsucceeds : e.Succeeds) {item : Perm.FifoItem}
    (hread : TrClient.readMessage e m = some (some item, m')) :
    fileKey (t.client.messageFile item) = itemKey item ∧ ∀ x ∈ m.delivered, x.id < item.id := by
  obtain ⟨hdr, p, hg⟩ := h.good
  obtain ⟨hdr', p', hg'⟩ := h.read hsucceeds hread
  obtain ⟨hwritten, hdelivered, hlast⟩ := readMessage_some hread
  refine ⟨?_, fun x hx => ?_⟩
  · have hle := hg'.lastRead_le
    rw [hg'.current_eq, hwritten, ← hg.current_eq, hlast] at hle
    have hfits := h.fits
    show ((1 : Int), toSigned 32 item.id, _) = _
    rw [toSigned_of_lt (Nat.lt_of_le_of_lt hle hfits)]
    rfl
  · have hinc := hg'.delivered_increasing
    rw [hdelivered] at hinc
    exact (List.pairwise_append.1 hinc).2.2 x hx item List.mem_cons_self

/-- **A message that is read** makes a file above all others. -/
theorem OfMessages.above {e : Perm.Env} (h : OfMessages size t m) (hsucceeds : e.Succeeds) :
    t.AddsAbove (.select e) := by
  intro f client hchoose
  cases TrClient.chooseFile_chose hchoose with
  | @made m₀ m' item hdone hdeinit hend hmessages hroom hread =>
    obtain rfl := Option.some.inj (hmessages.symm.trans h.messages)
    obtain ⟨hkey, hbelow⟩ := h.made hsucceeds hread
    obtain ⟨hmaj, hmin⟩ := Prod.mk.inj hkey
    have hmin := (Prod.mk.inj hmin).1
    refine ⟨fun g hg => ?_, trFileIdCompare_iff.2 (.inl ?_)⟩
    · have hmem : fileKey g ∈ m₀.delivered.map itemKey := by
        rw [← h.queued]
        exact List.mem_map_of_mem hg
      obtain ⟨x, hx, hgkey⟩ := List.mem_map.1 hmem
      obtain ⟨hgmaj, hgmin⟩ := Prod.mk.inj hgkey
      have hgmin := (Prod.mk.inj hgmin).1
      have hlt := hbelow x hx
      refine trFileIdCompare_iff.2 (.inr ⟨hgmaj.symm.trans hmaj.symm, ?_⟩)
      rw [← hgmin, hmin]
      exact Int.ofNat_lt.2 hlt
    · rw [hmaj]
      decide

theorem OfMessages.select {e : Perm.Env} (h : OfMessages size t m) (hsucceeds : e.Succeeds)
    (hs : t.select e = some t') :
    ∃ m', OfMessages size t' m' := by
  obtain ⟨choice, hchoice, rfl⟩ := Option.map_eq_some_iff.1 hs
  cases TrClient.chooseFile_chose hchoice with
  | @nothing m' hread =>
    rcases hread with hm | ⟨m₀, m', hmessages, rfl, hread⟩
    · exact ⟨m, h.congr hm rfl rfl fun _ hf => hf⟩
    · obtain rfl := Option.some.inj (hmessages.symm.trans h.messages)
      obtain ⟨hwritten, hdelivered, hlast⟩ := readMessage_none hread
      exact ⟨m', h.session rfl (h.read hsucceeds hread) hwritten hdelivered hlast rfl rfl rfl⟩
  | ended => exact ⟨m, h.congr rfl rfl rfl fun _ hf => hf⟩
  | begun => exact ⟨m, h.congr rfl rfl rfl fun _ hf => hf⟩
  | @made m₀ m' item hdone hdeinit hend hmessages hroom hread =>
    obtain rfl := Option.some.inj (hmessages.symm.trans h.messages)
    obtain ⟨hwritten, hdelivered, hlast⟩ := readMessage_some hread
    obtain ⟨hkey, hbelow⟩ := h.made hsucceeds hread
    obtain ⟨hdr, p, hg⟩ := h.good
    obtain ⟨hdr', p', hg'⟩ := h.read hsucceeds hread
    refine ⟨m', rfl, ⟨hdr', p', hg'⟩, ?_, ?_, fun x hx => ?_, ?_⟩
    · rw [hg'.current_eq, hwritten, ← hg.current_eq]
      exact h.fits
    · show (t.queued ++ [t.client.messageFile item]).map fileKey = _
      rw [List.map_append, h.queued, hdelivered, List.map_append, List.map_singleton, List.map_singleton, hkey]
    · -- what was read last is not before what was acknowledged
      have hx := h.acks x hx
      rw [hlast]
      rw [hg'.delivered_eq, hg.delivered_eq, hwritten, hlast] at hdelivered
      by_contra hlt
      have hle : item.id ≤ m₀.lastRead := by omega
      have hsub := congrArg List.length hdelivered
      rw [List.length_map, List.length_append, List.length_map, List.length_singleton] at hsub
      have hcount : (m₀.written.filter fun r => decide (r.id ≤ item.id)).length ≤
          (m₀.written.filter fun r => decide (r.id ≤ m₀.lastRead)).length := by
        rw [← List.countP_eq_length_filter, ← List.countP_eq_length_filter]
        refine List.countP_mono_left fun r _ hr => ?_
        rw [decide_eq_true_eq] at hr ⊢
        omega
      omega
    · rw [hwritten]
      exact h.covered

/-! ## Acknowledging -/

/-- **A turn of the removing loop**: what is acknowledged in the permanent FIFO covers acknowledged files only. -/
theorem OfMessages.removes (h : OfMessages size t m) (hkept : Kept t) (hr : Removes t t') :
    ∃ m', OfMessages size t' m' := by
  cases hr with
  | stop => exact ⟨m, h.congr rfl rfl rfl fun _ hf => hf⟩
  | moved _ _ hmessages =>
    rw [h.messages] at hmessages
    cases hmessages
  | @acked f m₀ hfirst hack hmessages =>
    obtain rfl := Option.some.inj (hmessages.symm.trans h.messages)
    have hf : f ∈ t.queued := by
      rw [hkept.split]
      exact List.mem_append_right _ (List.mem_of_mem_head? hfirst)
    obtain ⟨r, hr, hle, hkey⟩ := h.item_of hf
    obtain ⟨hmaj, hmin⟩ := Prod.mk.inj hkey
    have hmin : f.id.minId = r.id := (Prod.mk.inj hmin).1
    obtain ⟨hdr, p, hg⟩ := h.good
    have hfits := h.fits
    have hid : toUnsigned 64 f.id.minId = r.id := by
      rw [hmin]
      refine toUnsigned_natCast ?_
      have := hg.id_le_current hr
      omega
    rw [hid]
    have hstep : m₀.step (Perm.calm, .ack r.id) = some { m₀ with
        fifo := (Perm.permFifoAck m₀.fifo r.id).2
        acked := max m₀.acked r.id } := rfl
    obtain ⟨hdr', p', hg', -⟩ := hg.ack hle hstep
    refine ⟨_, rfl, ⟨hdr', p', hg'⟩, ?_, h.queued, fun x hx => ?_, fun x hx k hk hkle => ?_⟩
    · rw [hg'.current_eq]
      exact hg.current_eq ▸ hfits
    · rcases List.mem_append.1 hx with hx | hx
      · exact h.acks x hx
      · rw [List.mem_singleton.1 hx]
        exact hle
    · rcases List.mem_append.1 hx with hx | hx
      · exact h.covered x hx k hk hkle
      · -- the files of all items up to this one are acknowledged with it
        rw [List.mem_singleton.1 hx] at hkle
        obtain ⟨g, hgq, hgkey⟩ := h.file_of hk (Nat.le_trans hkle hle)
        obtain ⟨hgmaj, hgmin⟩ := Prod.mk.inj hgkey
        have hgmin : g.id.minId = k.id := (Prod.mk.inj hgmin).1
        have hgf : trFileIdCompare g.id f.id = false :=
          trFileIdCompare_eq_false.2 (.inr ⟨hgmaj.trans hmaj.symm, by rw [hgmin, hmin]; exact Int.ofNat_le.2 hkle⟩)
        exact ⟨g, hkept.acked g hgq (trFileIdCompare_false_trans hgf hack), hgkey⟩

theorem replies_acknowledged : ∀ (lines : List Bytes) (t : Tracked),
    ∀ f ∈ t.acknowledged, f ∈ (lines.foldl Tracked.reply t).acknowledged
  | [], _, _, hf => hf
  | line :: lines, t, f, hf => by
    refine replies_acknowledged lines (t.reply line) f ?_
    unfold Tracked.reply
    simp only
    split
    · exact List.mem_append_left _ hf
    · exact hf

/-! ## Runs -/

/-- The acknowledgements are in order, and the files are made of messages. -/
def InMessageMode (size : Nat) (t : Tracked) : Prop := Ordered t ∧ ∃ m, OfMessages size t m

/-- **Every step keeps it.** -/
theorem message_step (a : Action) (h : InMessageMode size t) (hserver : ServerAcks t a) (hproper : Proper a)
    (hfit : IdsFit t a) (hs : t.step a = some t') : InMessageMode size t' := by
  obtain ⟨hordered, m, hm⟩ := h
  cases a with
  | connect direct =>
    refine ⟨ordered_step _ hordered hserver trivial hs, m, ?_⟩
    obtain ⟨-, hs⟩ := Option.ite_none_right_eq_some.1 hs
    obtain rfl := Option.some.inj hs
    exact hm.congr rfl rfl rfl fun _ hf => hf
  | lose =>
    refine ⟨ordered_step _ hordered hserver trivial hs, m, ?_⟩
    obtain ⟨-, hs⟩ := Option.ite_none_right_eq_some.1 hs
    obtain rfl := Option.some.inj hs
    exact hm.congr rfl rfl rfl fun _ hf => hf
  | replies lines =>
    refine ⟨ordered_step _ hordered hserver trivial hs, m, ?_⟩
    obtain ⟨-, hs⟩ := Option.ite_none_right_eq_some.1 hs
    obtain rfl := Option.some.inj hs
    have hq := replies_queues lines t
    exact hm.congr hq.messages hq.queued hq.permAcks (replies_acknowledged lines t)
  | remove =>
    refine ⟨ordered_step _ hordered hserver trivial hs, ?_⟩
    obtain ⟨-, hs⟩ := Option.ite_none_right_eq_some.1 hs
    obtain rfl := Option.some.inj hs
    exact hm.removes hordered.kept (remove_removes t)
  | select e =>
    refine ⟨ordered_step _ hordered hserver (hm.above hproper) hs, ?_⟩
    obtain ⟨-, hs⟩ := Option.ite_none_right_eq_some.1 hs
    exact hm.select hproper hs
  | transmit n =>
    refine ⟨ordered_step _ hordered hserver trivial hs, m, ?_⟩
    obtain ⟨-, hs⟩ := Option.ite_none_right_eq_some.1 hs
    obtain rfl := Option.some.inj hs
    obtain ⟨-, -, -, -, -, hmessages, -⟩ := t.client.fillBuffer_same
    rcases t.transmit_cases n with ⟨-, heq⟩ | ⟨-, heq⟩
    · rw [heq]
      exact hm.congr hmessages rfl rfl fun _ hf => hf
    · rw [heq]
      exact hm.congr hmessages rfl rfl fun _ hf => hf
  | flush e =>
    refine ⟨ordered_step _ hordered hserver trivial hs, ?_⟩
    obtain ⟨-, hs⟩ := Option.ite_none_right_eq_some.1 hs
    rw [onMessages, hm.messages] at hs
    obtain ⟨m', hstep, rfl⟩ := Option.map_eq_some_iff.1 hs
    exact ⟨m', hm.flush hproper hstep⟩
  | sendMsg e msg =>
    refine ⟨ordered_step _ hordered hserver trivial hs, ?_⟩
    rw [step, onMessages, hm.messages] at hs
    obtain ⟨m', hstep, rfl⟩ := Option.map_eq_some_iff.1 hs
    exact ⟨m', hm.write hproper (hfit m hm.messages) hstep⟩
  | queueAddFile f => exact hproper.elim
  | getLastFileSent =>
    refine ⟨ordered_step _ hordered hserver trivial hs, m, ?_⟩
    obtain rfl := Option.some.inj hs
    exact hm.congr rfl rfl rfl fun _ hf => hf

/-- A client just started on a permanent FIFO. -/
def startOn (queueLength : Nat) (name : CString) (proxyState : Int) (fifo : Perm.PermFifo) : Tracked :=
  start (.start queueLength name proxyState (some (.start fifo)))

/-- **No message is dropped unacknowledged**, as long as the ids fit an `int`. -/
theorem acks_covered (F : Perm.FifoFile) (d : Dir Perm.FileName) (e : Perm.Env) (queueLength : Nat) (name : CString)
    (proxyState : Int) (hcounted : F.Counted) (hfile : Perm.HasFile d F) (hpos : 0 < queueLength)
    (hfits : F.clean.currentId < 2 ^ 31) {fifo : Perm.PermFifo} (hnew : Perm.permFifoNew e d queueLength = some fifo)
    (as : List Action)
    (hl : Legal step (fun t a => (ServerAcks t a ∧ IdsFit t a) ∧ Proper a)
      (startOn queueLength name proxyState fifo) as)
    {t : Tracked} (hr : run step (startOn queueLength name proxyState fifo) as = some t) : Covered t := by
  obtain ⟨f, hf, hcur, -, hgood, -⟩ := Perm.permFifoNew_spec (e := e) hfile.cleans hcounted hpos
  obtain rfl := Option.some.inj (hf.symm.trans hnew)
  have hgood := hgood (Nat.lt_trans hfits (by decide))
  have hstart : InMessageMode queueLength (startOn queueLength name proxyState f) :=
    ⟨ordered_start _ rfl rfl rfl, .start f, rfl, ⟨_, _, hgood⟩, lt_of_eq_of_lt hcur hfits, rfl,
      fun _ hx => absurd hx List.not_mem_nil, fun _ hx => absurd hx List.not_mem_nil⟩
  obtain ⟨-, m, hm⟩ := run_keeps (I := InMessageMode queueLength)
    (fun t a t' h hok hs => message_step a h hok.1.1 hok.2 hok.1.2 hs) as _ t hstart hl hr
  intro m' hm' x hx r hr hle
  obtain rfl := Option.some.inj (hm'.symm.trans hm.messages)
  exact hm.covered x hx r hr hle

/-- What is asked of the permanent FIFO of a client, if it has one. -/
instance (t : Tracked) (P : Perm.Session → Prop) [DecidablePred P] :
    Decidable (∀ m, t.client.inputQueueMsg = some m → P m) :=
  match h : t.client.inputQueueMsg with
  | none   => isTrue fun m hm => by cases hm
  | some m => decidable_of_iff (P m) (by simp)

theorem idsFit_iff (t : Tracked) (a : Action) : IdsFit t a ↔
    ∀ _ ∈ a.message, ∀ m, t.client.inputQueueMsg = some m → m.fifo.currentId + 1 < 2 ^ 31 := by
  cases a <;> simp [IdsFit, Action.message]

instance (t : Tracked) (a : Action) : Decidable (IdsFit t a) := decidable_of_iff _ (idsFit_iff t a).symm

/-- A client on the permanent FIFO of a file. -/
def startOnFile (F : Perm.FifoFile) : Option Tracked :=
  (Perm.permFifoNew Perm.calm (Perm.dirOf F) 4).map (startOn 4 unknown 0)

/-- A message is handed over, sent and acknowledged. -/
def oneMessage : List Action :=
  [.sendMsg Perm.calm [65, 0], .connect true] ++ fileTurns Perm.calm ++ [.replies [ackLine 1 1], .remove, .remove]

theorem oneMessage_proper : ∀ a ∈ oneMessage, Proper a := by
  have hpayload : Perm.payload [65, 0] 0 = some [65, 0] := by decide
  simp [oneMessage, fileTurns, turn, Proper, Perm.calm_succeeds, hpayload, Perm.ioMax]

theorem acks_covered_oneMessage :
    ∃ s t, startOnFile .empty = some s ∧ run step s oneMessage = some t ∧ Covered t := by
  have hruns :
    (startOnFile .empty).any (fun s => decide (Legal step (fun t a => ServerAcks t a ∧ IdsFit t a) s oneMessage) &&
      (run step s oneMessage).isSome) = true := by decide +kernel
  obtain ⟨s, hs, h⟩ := (Option.any_eq_true _ _).1 hruns
  obtain ⟨hlegal, hsome⟩ := Bool.and_eq_true_iff.1 h
  obtain ⟨t, hr⟩ := Option.isSome_iff_exists.1 hsome
  obtain ⟨fifo, hnew, rfl⟩ := Option.map_eq_some_iff.1 hs
  have hlegal := (of_decide_eq_true hlegal).and fun a ha _ => oneMessage_proper a ha
  exact ⟨_, t, hs, hr, acks_covered .empty (Perm.dirOf .empty) Perm.calm 4 unknown 0 Perm.FifoFile.empty_counted
    (Perm.hasFile_dirOf .empty) (by decide) (by decide) hnew oneMessage hlegal hr⟩

/-! ## Ids that do not fit -/

theorem largeId_lt : 2147483647 < 2 ^ 64 := by decide

theorem largeId_ok : ∀ r ∈ [(⟨2147483647, [65, 0]⟩ : Perm.Record)], r.Ok := by simp [Perm.Record.ok_iff, Perm.ioMax]

theorem largeId_increasing : Perm.Increasing [⟨2147483647, [65, 0]⟩] := by simp [Perm.Increasing]

/-- One message, with the largest id that fits. -/
def largeIds : Perm.FifoFile :=
  ⟨0, 2147483647, [⟨2147483647, [65, 0]⟩], Perm.FifoFile.noId_lt, largeId_lt, largeId_ok, largeId_increasing⟩

/-- It is sent and acknowledged; the next one is handed over, and is still in the input queue when its data is sent. -/
def largeIdRun : List Action :=
  .connect true :: fileTurns Perm.calm ++
    [.replies [ackLine 2147483647 1], .remove, .remove, .select Perm.calm, .transmit 0, .sendMsg Perm.calm [66, 0]] ++
    turn Perm.calm [] ++ turn Perm.calm [] ++ turn Perm.calm [] ++ [.replies [], .remove]

theorem largeIdRun_proper : ∀ a ∈ largeIdRun, Proper a := by
  have hpayload : Perm.payload [66, 0] 0 = some [66, 0] := by decide
  simp [largeIdRun, fileTurns, turn, Proper, Perm.calm_succeeds, hpayload, Perm.ioMax]

instance (t : Tracked) : DecidablePred fun m : Perm.Session => ∀ x ∈ t.permAcks, ∀ r ∈ m.written, r.id ≤ x →
    ∃ f ∈ t.acknowledged, fileKey f = (1, (r.id : Int), [r.data]) := fun _ => inferInstance

instance (t : Tracked) : Decidable (Covered t) := inferInstanceAs (Decidable (∀ _, _ → _))

/-- **The next id is negative**: `permFIFO_ack` is called with 2^64 - 2^31. -/
theorem first_large_id_uncovered : ∃ s t, startOnFile largeIds = some s ∧
    Legal step (fun t a => ServerAcks t a ∧ Proper a) s largeIdRun ∧ run step s largeIdRun = some t ∧ ¬Covered t := by
  have hruns : (startOnFile largeIds).any (fun s => decide (Legal step ServerAcks s largeIdRun) &&
      (run step s largeIdRun).any (fun t => !decide (Covered t))) = true := by decide +kernel
  obtain ⟨s, hs, h⟩ := (Option.any_eq_true _ _).1 hruns
  obtain ⟨hlegal, hrun⟩ := Bool.and_eq_true_iff.1 h
  obtain ⟨t, hr, hcovered⟩ := (Option.any_eq_true _ _).1 hrun
  rw [Bool.not_eq_true', decide_eq_false_iff_not] at hcovered
  exact ⟨s, t, hs, (of_decide_eq_true hlegal).and fun a ha _ => largeIdRun_proper a ha, hr, hcovered⟩

end Tracked
end Transport
end Flp
