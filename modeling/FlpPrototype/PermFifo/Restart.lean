import FlpPrototype.PermFifo.Delivery
/-!
# Restart — what a FIFO that is opened again returns

A round opens the FIFO, makes calls on it and destroys it.  The file a round leaves holds, above the id in its header,
exactly the records above the last acknowledged id, so the next `permFIFO_new` recovers them, numbered from 1 or not,
and the next round starts from them.
-/
namespace Flp
namespace Perm

/-- One life of a FIFO on a path. -/
structure Round where
  opening : Env
  size : Nat
  calls : List (Env × Call)
  closing : Env

/-- The payloads of the items above the last acknowledged id. -/
def Session.remaining (s : Session) : List Bytes :=
  (s.written.filter (fun r => decide (s.acked < r.id))).map Record.data

/-- The directory once a FIFO opened in `d` is destroyed, its file holding `c`. -/
def closedDir (d : Dir FileName) (c : Option Bytes) : Dir FileName :=
  match permFifoFileClean d with
  | none => d
  | some (_, ops) => (d.applyAll ops).set .current c

/-- A round in the directory `d`: the directory it leaves, and what the next one is to return. -/
def Round.play (d : Dir FileName) (r : Round) : Option (Dir FileName × List Bytes) :=
  (permFifoNew r.opening d r.size).bind fun f =>
    (run Session.step (Session.start f) r.calls).bind fun s =>
      (permFifoDestroy r.closing s.fifo).map fun c => (closedDir d c, s.remaining)

def Round.step (d : Dir FileName) (r : Round) : Option (Dir FileName) := (Round.play d r).map Prod.fst

/-- The calls of a round keep to the rules, acknowledgements going up. -/
def Round.Ok (d : Dir FileName) (r : Round) : Prop :=
  1 ≤ r.size ∧ r.closing.Succeeds ∧ ∀ f, permFifoNew r.opening d r.size = some f →
    f.currentId < 2 ^ 32 ∧ Legal Session.step (fun s c => s.Ok c ∧ s.Monotone c) (Session.start f) r.calls

/-- Read until nothing is returned: the items, and whether the end was reached. -/
def drain : List Env → PermFifo → Option (List FifoItem × Bool)
  | [], _ => some ([], false)
  | e :: es, f =>
    match permFifoRead e f with
    | none => none
    | some (code, item, f') => if code = 0 then (drain es f').map fun r => (item :: r.1, r.2) else some ([], true)

/-- **Persistence, for tables of at most `bound` slots**: after any number of rounds a FIFO opened once more, with any
size, holds and returns exactly the payloads above the last acknowledged id of the last round. -/
def Persists (bound : Nat) : Prop :=
  ∀ (F : FifoFile) (d : Dir FileName) (rounds : List Round) (last : Round) (e : Env) (size : Nat),
    F.Counted → HasFile d F → (∀ r ∈ rounds ++ [last], r.size ≤ bound) → 1 ≤ size → size ≤ bound →
    Legal Round.step Round.Ok d (rounds ++ [last]) →
      ∃ d₁ d₂ remaining f, run Round.step d rounds = some d₁ ∧ Round.play d₁ last = some (d₂, remaining) ∧
        permFifoNew e d₂ size = some f ∧ (Session.start f).written.map Record.data = remaining ∧
        ∀ es : List Env, (∀ e ∈ es, e.Succeeds) → remaining.length < es.length →
          ∃ items, drain es f = some (items, true) ∧ items.map FifoItem.contents = remaining.map Delivered

/-! ## The file a round leaves -/

variable {size : Nat} {s : Session} {hdr : MainHeader} {p : Parts}

/-- The file a good session leaves when its disk table is saved. -/
def Session.Good.file (h : s.Good size hdr p) : FifoFile where
  lastAckId := hdr.lastAckId
  currentId := hdr.currentId
  records := p.saved ++ p.unsaved
  ack_lt := h.durable.ack_lt
  current_lt := h.durable.current_lt
  ok := fun r hr => h.inv.readable.ok r (List.mem_append_right _ hr)
  increasing := h.inv.readable.increasing.right

namespace Session.Good

theorem bytes_file (h : s.Good size hdr p) : h.file.bytes = hdr.bytes ++ encode (p.saved ++ p.unsaved) := by
  have hhdr : h.file.header = hdr := by
    unfold FifoFile.header
    rw [← h.durable.tag]
    rfl
  unfold FifoFile.bytes
  rw [hhdr]
  rfl

theorem file_counted (h : s.Good size hdr p) : h.file.Counted := fun hr =>
  h.durable.counted (List.append_eq_nil_iff.1 hr).1

/-- What is above the header's id is what is above the last acknowledged id. -/
theorem unacked_file (h : s.Good size hdr p) (hx : Exact hdr p s.acked) :
    h.file.unacked = s.written.filter (fun r => decide (s.acked < r.id)) := by
  have hgone : p.gone.filter (fun r => decide (s.acked < r.id)) = [] :=
    List.filter_eq_nil_iff.2 (fun r hr => by simpa using h.durable.gone_le r hr)
  rw [h.written, Parts.all, List.filter_append, hgone, List.nil_append]
  refine List.filter_congr (fun r hr => ?_)
  have hle := h.durable.header_le
  have := hx r hr
  show decide (hdr.lastAckId < r.id) = decide (s.acked < r.id)
  rw [decide_eq_decide]
  omega

/-- Cleaning gives no id above those that were given. -/
theorem clean_file_lt (h : s.Good size hdr p) : h.file.clean.currentId < 2 ^ 32 := by
  have hcur := h.current_lt
  have hlast : lastId (p.saved ++ p.unsaved) ≤ s.fifo.currentId := by
    rw [h.inv.readable.current, Parts.all, lastId_append _ (p.saved ++ p.unsaved)]
    by_cases hnil : p.saved ++ p.unsaved = []
    · rw [hnil]
      exact Nat.zero_le _
    · rw [if_neg hnil]
  exact FifoFile.clean_currentId_lt h.file_counted (Nat.lt_of_le_of_lt hlast hcur)

/-- **Destroying** saves the disk table. -/
theorem destroy {e : Env} (h : s.Good size hdr p) (he : e.Succeeds) (hf : size ≤ 2 ^ 30) :
    permFifoDestroy e s.fifo = some (some h.file.bytes) := by
  obtain ⟨⟨c, f'⟩, hs⟩ := Option.isSome_iff_exists.1 (save_isSome h.inv.stored he hf)
  obtain ⟨-, hst, -⟩ := h.inv.stored.save he hs
  unfold permFifoDestroy
  simp only [h.inv.stored.file, hs, Option.map_some, hst.file, h.bytes_file, Parts.saved_save]

end Session.Good

/-- Calls that keep to the rules, acknowledgements going up, leave the header exact. -/
theorem run_exact (hf : size ≤ 2 ^ 30) (h : s.Good size hdr p) (hx : Exact hdr p s.acked) {calls : List (Env × Call)}
    (hl : Legal Session.step (fun s c => s.Ok c ∧ s.Monotone c) s calls) :
    ∃ s' hdr p, run Session.step s calls = some s' ∧ s'.Good size hdr p ∧ Exact hdr p s'.acked := by
  obtain ⟨s', hs, hdr', p', hg, hx'⟩ := run_inv
    (I := fun s => ∃ hdr p, Session.Good size s hdr p ∧ Exact hdr p s.acked) (by
      rintro s c ⟨hdr, p, hg, hx⟩ ⟨hok, hm⟩
      obtain ⟨s', hs⟩ := Option.isSome_iff_exists.1 (hg.step_isSome hok hf)
      obtain ⟨hdr', p', hg', hx'⟩ := hg.step hok hs
      exact ⟨s', hs, hdr', p', hg', hx' hx hm⟩) calls s ⟨hdr, p, h, hx⟩ hl
  exact ⟨s', hdr', p', hs, hg, hx'⟩

theorem closedDir_current {d : Dir FileName} {F : FifoFile} (hd : Cleans d F) (c : Option Bytes) :
    closedDir d c .current = c := by
  obtain ⟨ops, hops, -⟩ := hd
  simp [closedDir, hops]

/-- **One round** leaves a well-formed file whose unacknowledged payloads are those above its last acknowledged id. -/
theorem play_spec {d : Dir FileName} {F : FifoFile} {r : Round} (hd : Cleans d F) (hc : F.Counted)
    (hf : r.size ≤ 2 ^ 30) (hok : Round.Ok d r) :
    ∃ d' G, Round.play d r = some (d', G.unacked.map Record.data) ∧ d' .current = some (FifoFile.bytes G) ∧
      G.Counted ∧ G.clean.currentId < 2 ^ 32 := by
  obtain ⟨hpos, hclose, hlegal⟩ := hok
  obtain ⟨f, hnew, hid, -, hgood, hexact⟩ := permFifoNew_spec (e := r.opening) hd hc hpos
  obtain ⟨hcur, hcalls⟩ := hlegal f hnew
  obtain ⟨s, hdr, p, hs, hg, hx⟩ := run_exact hf (hgood (by rw [← hid]; exact hcur)) hexact hcalls
  refine ⟨_, hg.file, ?_, closedDir_current hd _, hg.file_counted, hg.clean_file_lt⟩
  unfold Round.play
  rw [hnew, Option.bind_some, hs, Option.bind_some, hg.destroy hclose hf, hg.unacked_file hx]
  rfl

/-- Reading until nothing is returned gives every record that was not read. -/
theorem drain_spec (hf : size ≤ 2 ^ 30) : ∀ (es : List Env) (f : PermFifo) (p : Parts), Inv f size hdr p →
    f.currentId < 2 ^ 32 → (∀ e ∈ es, e.Succeeds) → p.pending.length < es.length →
    drain es f = some (p.pending.map Record.item, true)
  | [], _, _, _, _, _, hlt => absurd hlt (Nat.not_lt_zero _)
  | e :: es, f, p, h, hcur, he, hlt => by
    have hee := he e List.mem_cons_self
    obtain ⟨⟨code, item, f'⟩, hr⟩ := Option.isSome_iff_exists.1 (permFifoRead_isSome h hee hcur hf)
    rw [drain, hr]
    rcases h.read hee hcur hr with ⟨hcode, hp, -⟩ | ⟨r, p', rfl, rfl, hp, hi, -, -, -, -, -, hcur'⟩
    · simp [hcode, hp]
    · rw [hp] at hlt ⊢
      have ih := drain_spec hf es f' p' hi (by rw [hcur']; exact hcur) (fun x hx => he x (List.mem_cons_of_mem _ hx))
        (by simpa using hlt)
      simp [ih]

/-- **Opening once more** and reading to the end. -/
theorem reopen_spec {d : Dir FileName} {G : FifoFile} {e : Env} (hd : Cleans d G) (hc : G.Counted)
    (hcur : G.clean.currentId < 2 ^ 32) (hpos : 1 ≤ size) (hf : size ≤ 2 ^ 30) :
    ∃ f, permFifoNew e d size = some f ∧ (Session.start f).written.map Record.data = G.unacked.map Record.data ∧
      ∀ es : List Env, (∀ e ∈ es, e.Succeeds) → (G.unacked.map Record.data).length < es.length →
        ∃ items, drain es f = some (items, true) ∧
          items.map FifoItem.contents = (G.unacked.map Record.data).map Delivered := by
  obtain ⟨f, hnew, hfc, hfile, hgood, -⟩ := permFifoNew_spec (e := e) hd hc hpos
  have hgood := hgood hcur
  refine ⟨f, hnew, ?_, fun es he hlen => ?_⟩
  · rw [hgood.written, Parts.all_opened, G.map_data_kept]
  · have hpend : Parts.pending (.opened G.kept) = G.kept := rfl
    have := drain_spec hf es f _ hgood.inv (by rw [hfc]; exact hcur) he
      (by rw [hpend, ← List.length_map (f := Record.data), G.map_data_kept]; exact hlen)
    refine ⟨_, this, ?_⟩
    rw [hpend, contents_item, G.map_data_kept]

theorem persists_of_le {bound : Nat} (hf : bound ≤ 2 ^ 30) : Persists bound := by
  intro F d rounds last e size hc hd hsizes hpos hsize hl
  -- what holds of the directory between rounds
  have hinv : ∀ (rounds : List Round) (d : Dir FileName) (F : FifoFile), F.Counted → Cleans d F →
      (∀ r ∈ rounds ++ [last], r.size ≤ bound) → Legal Round.step Round.Ok d (rounds ++ [last]) →
      ∃ d₁ F₁, run Round.step d rounds = some d₁ ∧ FifoFile.Counted F₁ ∧ Cleans d₁ F₁ ∧ Round.Ok d₁ last := by
    intro rounds
    induction rounds with
    | nil => exact fun d F hc hd _ hl => ⟨d, F, rfl, hc, hd, hl.1⟩
    | cons r rounds ih =>
      intro d F hc hd hs hl
      obtain ⟨d', G, hplay, hcurrent, hcG, -⟩ := play_spec hd hc (Nat.le_trans (hs r (by simp)) hf) hl.1
      have hstep : Round.step d r = some d' := by rw [Round.step, hplay]; rfl
      obtain ⟨d₁, F₁, hrun, h⟩ := ih d' G hcG (cleans_of_recoverable (.inl hcurrent))
        (fun x hx => hs x (List.mem_cons_of_mem _ hx)) (hl.2 d' hstep)
      exact ⟨d₁, F₁, by rw [run_cons hstep]; exact hrun, h⟩
  obtain ⟨d₁, F₁, hrun, hc₁, hd₁, hok⟩ := hinv rounds d F hc hd.cleans hsizes hl
  obtain ⟨d₂, G, hplay, hcurrent, hcG, hcurG⟩ := play_spec hd₁ hc₁ (Nat.le_trans (hsizes last (by simp)) hf) hok
  obtain ⟨f, hnew, hstart, hdrain⟩ := reopen_spec (e := e) (cleans_of_recoverable (.inl hcurrent)) hcG hcurG hpos
    (Nat.le_trans hsize hf)
  exact ⟨d₁, d₂, _, f, hrun, hplay, hnew, hstart, hdrain⟩

/-! ## Larger tables -/

/-- The round that overflows. -/
def overflowRound (size : Nat) : Round := ⟨calm, size, overflowRun size, calm⟩

theorem overflowRun_monotone (size : Nat) : ∀ c ∈ overflowRun size, ∀ s : Session, s.Monotone c := by
  intro c hc s
  have : c = writeOne ∨ c = readOne := by
    rcases List.mem_append.1 hc with hc | hc
    · obtain ⟨l, hl, hcl⟩ := List.mem_flatten.1 hc
      rw [(List.mem_replicate.1 hl).2] at hcl
      simpa using hcl
    · exact .inl (List.mem_replicate.1 hc).2
  rcases this with rfl | rfl <;> trivial

theorem not_persists_of_large {bound : Nat} (hbig : 2 ^ 30 < bound) (hint : bound ≤ intMax) :
    Legal Round.step Round.Ok (dirOf .empty) [overflowRound bound] ∧
      Round.play (dirOf .empty) (overflowRound bound) = none ∧ ¬ Persists bound := by
  obtain ⟨f, hnew, hl, hr⟩ := overflow_of_large hbig hint
  have hlegal : Legal Round.step Round.Ok (dirOf .empty) [overflowRound bound] := by
    refine ⟨⟨by simp only [overflowRound]; omega, calm_succeeds, fun f' hf' => ?_⟩, fun _ _ => trivial⟩
    obtain rfl := Option.some.inj (hnew.symm.trans hf')
    obtain ⟨f'', hnew'', hid, -⟩ := permFifoNew_spec (e := calm) (d := dirOf .empty) (F := .empty)
      (hasFile_dirOf .empty).cleans FifoFile.empty_counted (by omega : 0 < bound)
    obtain rfl := Option.some.inj (hnew.symm.trans hnew'')
    exact ⟨by rw [hid]; decide, hl.and (overflowRun_monotone bound)⟩
  have hplay : Round.play (dirOf .empty) (overflowRound bound) = none := by
    unfold Round.play overflowRound
    rw [hnew, Option.bind_some, hr]
    rfl
  refine ⟨hlegal, hplay, fun h => ?_⟩
  obtain ⟨d₁, d₂, L, f', hrun, hp, -⟩ := h .empty (dirOf .empty) [] (overflowRound bound) calm 1 FifoFile.empty_counted
    (hasFile_dirOf _) (by simp [overflowRound]) (Nat.le_refl _) (by omega) hlegal
  obtain rfl := Option.some.inj hrun
  rw [hplay] at hp
  cases hp

/-- **Persistence across restarts** holds for exactly the tables of at most `2 ^ 30` slots. -/
theorem persists_iff (bound : Nat) (hint : bound ≤ intMax) : Persists bound ↔ bound ≤ 2 ^ 30 := by
  refine ⟨fun h => ?_, persists_of_le⟩
  by_contra hbig
  exact (not_persists_of_large (Nat.not_le.1 hbig) hint).2.2 h

theorem persists_iff_thousand : Persists 1000 ↔ 1000 ≤ 2 ^ 30 := persists_iff 1000 (by decide)

/-- A round with the largest table keeps to the rules and has no result. -/
theorem largest_round_overflows :
    Legal Round.step Round.Ok (dirOf .empty) [overflowRound 2147483647] ∧
      Round.play (dirOf .empty) (overflowRound 2147483647) = none ∧ ¬ Persists 2147483647 :=
  not_persists_of_large (by decide) (by decide)

end Perm
end Flp
