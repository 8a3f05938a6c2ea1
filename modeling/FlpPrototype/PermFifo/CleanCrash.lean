import FlpPrototype.PermFifo.Clean
import Mathlib.Logic.Relation
/-!
# CleanCrash — a stop in the middle of cleaning loses nothing

The process may stop after any operation of `permFIFO_file_clean`.  What it then leaves is one of three things
(`Recoverable`): the file as it was, the cleaned file, or no current file and the old one renamed away.  From each of
them the next cleaning, itself stopped anywhere or not, leads back into the three, and one that runs to its end leaves
the cleaned file.
-/
namespace Flp
namespace Perm

/-- What a stop leaves of the FIFO file `F`. -/
def Recoverable (F : FifoFile) (d : Dir FileName) : Prop :=
  d .current = some F.bytes ∨ d .current = some F.clean.bytes ∨
    (F.lastAckId ≠ 0 ∧ d .current = none ∧ d .old = some F.bytes)

/-- `d'` is what an attempt to clean leaves when it stops after some of its operations. -/
def Attempt (d d' : Dir FileName) : Prop :=
  ∃ code ops k, permFifoFileClean d = some (code, ops) ∧ d' = d.applyAll (ops.take k)

/-- Writing the new main header over the old one is the whole of cleaning when nothing is acknowledged. -/
theorem overwrite_header (F : FifoFile) (h : F.lastAckId = 0) :
    Fd.overwrite F.bytes 0 F.clean.header.bytes = F.clean.bytes := by
  have hk : F.clean.records = F.records := if_pos h
  unfold FifoFile.bytes
  rw [Fd.overwrite_zero _ (by simp), hk]

theorem clean_bytes_of_nil (F : FifoFile) (h : F.lastAckId = 0) (hr : F.records = []) : F.clean.bytes = F.bytes := by
  have hk : F.kept = F.records := if_pos h
  simp [FifoFile.bytes, FifoFile.header, FifoFile.clean, hk, hr, h]

theorem fillNew_names (F : FifoFile) : ∀ op ∈ fillNew F, op.names = [FileName.new] := by
  intro op hop
  unfold fillNew at hop
  rcases List.mem_append.1 hop with hop | hop
  · rcases List.mem_cons.1 hop with rfl | hop
    · rfl
    · obtain ⟨b, -, rfl⟩ := List.mem_map.1 hop
      rfl
  · split at hop
    · cases hop
    · rw [List.mem_singleton.1 hop]
      rfl

/-- The clean copy holds the cleaned file once it is filled. -/
theorem fillNew_content (F : FifoFile) (h : F.lastAckId ≠ 0) (d : Dir FileName) :
    d.applyAll (fillNew F) .new = some F.clean.bytes := by
  have hfill : ((d.apply (.creat .new)).applyAll
      ((defaultMainHeader.bytes :: recordChunks F.kept).map (.append .new))) .new =
        some (defaultMainHeader.bytes ++ encode F.kept) := by
    rw [Dir.applyAll_appends FileName.new _ _ [] (by simp [Dir.apply])]
    simp [flatten_recordChunks]
  unfold fillNew
  rw [List.cons_append, Dir.applyAll_cons, Dir.applyAll_append]
  by_cases hk : F.kept = []
  · rw [if_pos hk, Dir.applyAll_nil, hfill]
    simp [FifoFile.bytes, FifoFile.header, FifoFile.clean, hk, h, defaultMainHeader]
  · rw [if_neg hk, Dir.applyAll_cons, Dir.applyAll_nil]
    simp only [Dir.apply, Dir.set_self]
    have hfill' := hfill
    simp only [Dir.apply] at hfill'
    rw [hfill', Option.map_some, Fd.overwrite_zero _ (by simp)]
    rfl

/-- **Cleaning a file that is there**: it succeeds, leaves the cleaned file, and every stop is recoverable. -/
theorem clean_of_current {F : FifoFile} {d : Dir FileName} {n : Nat} (hd : d .current = some F.bytes) :
    ∃ ops, cleanLoop (n + 1) d = some (0, ops) ∧ d.applyAll ops .current = some F.clean.bytes ∧
      ∀ k, Recoverable F (d.applyAll (ops.take k)) := by
  by_cases h : F.lastAckId = 0
  · -- the only operation on the current file is the write of its header
    refine ⟨.unlink .old :: .unlink .new :: (if F.records = [] then [] else [.write .current 0 F.clean.header.bytes]),
      ?_, ?_, ?_⟩
    · simp [cleanLoop, hd, cleanFile_of_zero F h]
    · by_cases hr : F.records = []
      · simp [hr, Dir.apply, hd, clean_bytes_of_nil F h hr]
      · simp [hr, Dir.apply, hd, overwrite_header F h]
    · intro k
      rcases k with _ | _ | k
      · exact .inl (by simpa using hd)
      · exact .inl (by simpa [Dir.apply] using hd)
      · by_cases hr : F.records = []
        · exact .inl (by simpa [hr, Dir.apply] using hd)
        · cases k with
          | zero => exact .inl (by simpa [Dir.apply] using hd)
          | succ k => exact .inr (.inl (by simp [hr, Dir.apply, hd, overwrite_header F h]))
  · -- up to the renames only the other two names are touched
    generalize hpre : FsOp.unlink FileName.old :: FsOp.unlink .new :: fillNew F = pre
    have hnames : ∀ op ∈ pre, FileName.current ∉ op.names := by
      intro op hop
      rw [← hpre] at hop
      rcases List.mem_cons.1 hop with rfl | hop
      · decide
      · rcases List.mem_cons.1 hop with rfl | hop
        · decide
        · rw [fillNew_names F op hop]
          decide
    have hkeep : ∀ k, d.applyAll (pre.take k) .current = some F.bytes := fun k => by
      rw [Dir.applyAll_of_not_mem _ _ (fun op hop => hnames op (List.mem_of_mem_take hop)), hd]
    have hcur : d.applyAll pre .current = some F.bytes := by
      rw [Dir.applyAll_of_not_mem _ _ hnames, hd]
    have hnew : d.applyAll pre .new = some F.clean.bytes := by
      rw [← hpre, Dir.applyAll_cons, Dir.applyAll_cons, fillNew_content F h]
    generalize hd' : d.applyAll pre = d' at hcur hnew
    refine ⟨pre ++ [.rename .current .old, .rename .new .current, .unlink .old], ?_, ?_, ?_⟩
    · simp [cleanLoop, hd, cleanFile_of_pos F h, ← hpre]
    · rw [Dir.applyAll_append, hd']
      simp [Dir.apply, hcur, hnew]
    · intro k
      by_cases hk : k ≤ pre.length
      · rw [List.take_append_of_le_length hk]
        exact .inl (hkeep k)
      · rw [List.take_append, List.take_of_length_le (by omega), Dir.applyAll_append, hd']
        obtain ⟨j, hj⟩ : ∃ j, k - pre.length = j + 1 := ⟨k - pre.length - 1, by omega⟩
        rw [hj]
        rcases j with _ | _ | j
        · exact .inr (.inr ⟨h, by simp [Dir.apply, hcur], by simp [Dir.apply, hcur]⟩)
        · exact .inr (.inl (by simp [Dir.apply, hcur, hnew]))
        · exact .inr (.inl (by simp [Dir.apply, hcur, hnew]))

/-- **Cleaning what a stop left.** -/
theorem clean_of_recoverable {F : FifoFile} {d : Dir FileName} (hd : Recoverable F d) :
    ∃ ops, permFifoFileClean d = some (0, ops) ∧ d.applyAll ops .current = some F.clean.bytes ∧
      ∀ k, Recoverable F (d.applyAll (ops.take k)) := by
  rcases hd with hcur | hcur | ⟨hne, hnone, hold⟩
  · exact clean_of_current hcur
  · obtain ⟨ops, hops, hend, hstop⟩ := clean_of_current (n := 1) hcur
    rw [F.clean_clean] at hend
    refine ⟨ops, hops, hend, fun k => ?_⟩
    rcases hstop k with h | h | ⟨h, -⟩
    · exact .inr (.inl h)
    · rw [F.clean_clean] at h
      exact .inr (.inl h)
    · exact absurd rfl h
  · -- the old file is renamed back first
    have hback : d.apply (.rename .old .current) .current = some F.bytes := by simp [Dir.apply, hold]
    obtain ⟨ops, hops, hend, hstop⟩ := clean_of_current (n := 0) hback
    refine ⟨.rename .old .current :: ops, ?_, hend, fun k => ?_⟩
    · unfold permFifoFileClean
      rw [cleanLoop, hnone]
      simp only [hold, hops, Option.map_some]
    · cases k with
      | zero => exact .inr (.inr ⟨hne, hnone, hold⟩)
      | succ k => exact hstop k

/-- Cleaning succeeds in `d` and leaves the cleaned file `F`. -/
def Cleans (d : Dir FileName) (F : FifoFile) : Prop :=
  ∃ ops, permFifoFileClean d = some (0, ops) ∧ d.applyAll ops .current = some F.clean.bytes

/-- The file `F` is there; no file counts as one without a record. -/
def HasFile (d : Dir FileName) (F : FifoFile) : Prop :=
  d .current = some F.bytes ∨ (F = .empty ∧ d .current = none ∧ d .old = none)

theorem fileClean_of_none {d : Dir FileName} (hc : d .current = none) (ho : d .old = none) :
    permFifoFileClean d = some (0, [.creat .current, .append .current defaultMainHeader.bytes]) := by
  simp [permFifoFileClean, cleanLoop, hc, ho]

theorem cleans_of_recoverable {F : FifoFile} {d : Dir FileName} (h : Recoverable F d) : Cleans d F := by
  obtain ⟨ops, hops, hend, -⟩ := clean_of_recoverable h
  exact ⟨ops, hops, hend⟩

theorem HasFile.cleans {F : FifoFile} {d : Dir FileName} (h : HasFile d F) : Cleans d F := by
  rcases h with h | ⟨rfl, hc, ho⟩
  · exact cleans_of_recoverable (.inl h)
  · exact ⟨_, fileClean_of_none hc ho, by simp [Dir.apply]; rfl⟩

theorem recoverable_of_attempts {F : FifoFile} {d d' : Dir FileName} (hd : Recoverable F d)
    (h : Relation.ReflTransGen Attempt d d') : Recoverable F d' := by
  induction h with
  | refl => exact hd
  | tail _ hstep ih =>
    obtain ⟨code, ops, k, hops, rfl⟩ := hstep
    obtain ⟨ops', hops', -, hstop⟩ := clean_of_recoverable ih
    rw [hops] at hops'
    simp only [Option.some.injEq, Prod.mk.injEq] at hops'
    rw [hops'.2]
    exact hstop k

/-- **Any number of interrupted cleanings, then one that runs to its end**: it returns 0 and leaves exactly the
unacknowledged payloads, in order, under a header that acknowledges nothing and names the last id; cleaning once more
leaves the same file. -/
theorem fileClean_after_stops (F : FifoFile) (d d' : Dir FileName) (hd : d .current = some F.bytes)
    (h : Relation.ReflTransGen Attempt d d') :
    ∃ ops G, permFifoFileClean d' = some (0, ops) ∧ d'.applyAll ops .current = some (FifoFile.bytes G) ∧
      G.lastAckId = 0 ∧ G.records.map Record.data = F.unacked.map Record.data ∧
      (G.records ≠ [] → G.currentId = lastId G.records) ∧
      ∃ ops', permFifoFileClean (d'.applyAll ops) = some (0, ops') ∧
        (d'.applyAll ops).applyAll ops' .current = some G.bytes := by
  obtain ⟨ops, hops, hend, -⟩ := clean_of_recoverable (recoverable_of_attempts (.inl hd) h)
  obtain ⟨ops', hops', hend', -⟩ := clean_of_recoverable (F := F) (.inr (.inl hend))
  exact ⟨ops, F.clean, hops, hend, rfl, F.map_data_kept, fun hne => if_pos hne, ops', hops', hend'⟩

/-- A directory with the FIFO file `F` in it and no other. -/
def dirOf (F : FifoFile) : Dir FileName := fun n => if n = .current then some F.bytes else none

theorem hasFile_dirOf (F : FifoFile) : HasFile (dirOf F) F := .inl rfl

/-- Two records, the first one acknowledged. -/
def FifoFile.ackedFirst : FifoFile :=
  ⟨1, 2, [⟨1, [65, 0]⟩, ⟨2, [66, 0]⟩], by decide, by decide, by simp [Record.ok_iff, ioMax], by simp [Increasing]⟩

/-- The operations of cleaning it, the last three left out but one: the process stops between the two renames. -/
def stoppedOps : List (FsOp FileName) :=
  (.unlink .old :: .unlink .new :: (fillNew .ackedFirst ++ [.rename .current .old, .rename .new .current,
    .unlink .old])).take 8

theorem fileClean_after_stop_between_renames :
    ∃ ops G, permFifoFileClean ((dirOf .ackedFirst).applyAll stoppedOps) = some (0, ops) ∧
      ((dirOf .ackedFirst).applyAll stoppedOps).applyAll ops .current = some (FifoFile.bytes G) ∧ G.lastAckId = 0 ∧
      G.records.map Record.data = FifoFile.ackedFirst.unacked.map Record.data ∧
      (G.records ≠ [] → G.currentId = lastId G.records) ∧
      ∃ ops', permFifoFileClean (((dirOf .ackedFirst).applyAll stoppedOps).applyAll ops) = some (0, ops') ∧
        (((dirOf .ackedFirst).applyAll stoppedOps).applyAll ops).applyAll ops' .current = some G.bytes := by
  have hclean : permFifoFileClean (dirOf .ackedFirst) = some (0, .unlink .old :: .unlink .new ::
      (fillNew .ackedFirst ++ [.rename .current .old, .rename .new .current, .unlink .old])) := by
    have hd : dirOf .ackedFirst .current = some FifoFile.ackedFirst.bytes := rfl
    simp [permFifoFileClean, cleanLoop, hd, cleanFile_of_pos .ackedFirst (by decide)]
  exact fileClean_after_stops .ackedFirst (dirOf .ackedFirst) _ rfl (.single ⟨0, _, 8, hclean, rfl⟩)

end Perm
end Flp
