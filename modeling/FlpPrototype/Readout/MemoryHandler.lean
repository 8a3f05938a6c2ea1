import FlpPrototype.Common.FifoClear
import FlpPrototype.Readout.RorcPages
import FlpPrototype.Rorc.CrorcDmaChannel
/-!
# MemoryHandler — `ReadoutMemoryHandler` and its pages

The constructor maps a file, skips what is before an aligned address and puts the offset of each page into
`pagesAvailable`.  The sizes are `size_t`, but the number of pages and the product that gives an offset are `int`,
before it is kept in a `long`.  The pages tile the buffer exactly if neither overflows and the skipped bytes are there
(`tiles_iff`).
-/
namespace Flp
namespace Readout

open Common (Fields Holds)
open RorcPages (hugePageSize baseAlignment pageOffset numberOfPages)
open Rorc (wrap64)

/-- What was mapped. -/
structure MemoryMappedFile where
  size : Nat
  address : Nat
  deriving DecidableEq, Repr

structure ReadoutMemoryHandler where
  memorySize : Nat
  pageSize : Nat
  baseAddress : Nat
  nPages : Int
  pagesAvailable : Fields Nat
  deriving DecidableEq, Repr

namespace ReadoutMemoryHandler

/-- The size asked for, a multiple of the size of a huge page. -/
def requestedSize (vMemorySize : Nat) : Nat :=
  let r := vMemorySize % hugePageSize
  if r ≠ 0 then wrap64 (vMemorySize + (hugePageSize - r)) else vMemorySize

/-- `(long)baseAddress % baseAlignment`, towards zero. -/
def remainder (baseAddress : Nat) : Int := (toSigned 64 baseAddress).tmod baseAlignment

def skipBytes (baseAddress : Nat) : Nat :=
  let r := remainder baseAddress
  if r ≠ 0 then (baseAlignment - r).toNat else 0

/-- `Fifo<long>(nPages)`: a vector of a negative length throws. -/
def fifo (nPages : Int) : Option (Fields Nat) :=
  match nPages with
  | .ofNat n           => Fields.create n 0
  | .negSucc 0         => some ⟨0, 0, [], 0, 0⟩
  | .negSucc (_ + 1)   => none

/-- The body of the loop over the pages; the result of `push` is not looked at. -/
def pushPage (nPages pageSize : Nat) (f : Fields Nat) (i : Nat) : Option (Fields Nat) :=
  (pageOffset pageSize i).bind fun offset => (f.push nPages offset).map Prod.snd

def pushPages (nPages pageSize : Nat) (f : Fields Nat) : Option (Fields Nat) :=
  (List.range nPages).foldlM (pushPage nPages pageSize) f

/-- The constructor behind the mapping.  It divides by the page size. -/
def construct (file : MemoryMappedFile) (vPageSize : Nat) : Option ReadoutMemoryHandler :=
  if vPageSize = 0 then none
  else
    let skip := skipBytes file.address
    let memorySize := wrap64 (file.size + 2 ^ 64 - skip)
    let nPages := numberOfPages memorySize vPageSize
    ((fifo nPages).bind (pushPages nPages.toNat vPageSize)).map fun pagesAvailable =>
      ⟨memorySize, vPageSize, wrap64 (file.address + skip), nPages, pagesAvailable⟩

/-- The constructor; `mapFile` is what is mapped for a size asked for. -/
def new (mapFile : Nat → MemoryMappedFile) (vMemorySize vPageSize : Nat) : Option ReadoutMemoryHandler :=
  construct (mapFile (requestedSize vMemorySize)) vPageSize

/-! ## What the pages are to be -/

/-- The offsets in `pagesAvailable`. -/
def offsets (h : ReadoutMemoryHandler) : List Nat := h.pagesAvailable.contents h.nPages.toNat

/-- The buffer is the rest of the mapping behind an aligned address, and its pages follow each other in it. -/
structure Tiles (file : MemoryMappedFile) (h : ReadoutMemoryHandler) : Prop where
  ends : ∃ skipped, h.baseAddress = file.address + skipped ∧ h.memorySize + skipped = file.size
  aligned : h.baseAddress % baseAlignment = 0
  offsets : h.offsets = (List.range (h.memorySize / h.pageSize)).map (· * h.pageSize)
  inside : ∀ o ∈ h.offsets, o + h.pageSize ≤ h.memorySize
  disjoint : h.offsets.Pairwise fun o o' => o + h.pageSize ≤ o' ∨ o' + h.pageSize ≤ o

/-- The skipped bytes are there, and the number of pages, with the FIFO's extra slot, and the last page's offset are
`int`s. -/
structure Fits (file : MemoryMappedFile) (pageSize : Nat) : Prop where
  skipped : skipBytes file.address ≤ file.size
  slots : (file.size - skipBytes file.address) / pageSize < intMax
  last : ((file.size - skipBytes file.address) / pageSize - 1) * pageSize ≤ intMax

/-! ## Aligning the base -/

variable {file : MemoryMappedFile} {pageSize n : Nat} {f : Fields Nat}

theorem remainder_of_lt {address : Nat} (h : address < 2 ^ 63) :
    remainder address = (address % baseAlignment : Nat) := by
  rw [remainder, toSigned_of_lt h, Int.tmod_eq_emod_of_nonneg (Int.natCast_nonneg _), Int.natCast_emod]

/-- An address in the upper half is negative as a `long`. -/
theorem remainder_of_ge {address : Nat} (h : 2 ^ 63 ≤ address) (hlt : address < 2 ^ 64) :
    remainder address = -((2 ^ 64 - address) % baseAlignment : Nat) := by
  have hsigned : toSigned 64 address = -((2 ^ 64 - address : Nat) : Int) := by
    rw [toSigned, Nat.mod_eq_of_lt hlt, if_neg (by omega)]
    omega
  rw [remainder, hsigned, Int.neg_tmod, Int.tmod_eq_emod_of_nonneg (Int.natCast_nonneg _), Int.natCast_emod]

theorem skipBytes_eq (address : Nat) :
    skipBytes address = if remainder address = 0 then 0 else (baseAlignment - remainder address).toNat := by
  simp [skipBytes]

/-- **The skipped bytes end at an aligned address**, and are fewer than two of its steps. -/
theorem skipBytes_aligned (address : Nat) (hlt : address < 2 ^ 64) :
    (address + skipBytes address) % baseAlignment = 0 ∧ skipBytes address < 2 * baseAlignment := by
  have hskip := skipBytes_eq address
  have hremainder : remainder address = (address % baseAlignment : Nat) ∨
      remainder address = -((2 ^ 64 - address) % baseAlignment : Nat) := by
    by_cases h : address < 2 ^ 63
    · exact .inl (remainder_of_lt h)
    · exact .inr (remainder_of_ge (by omega) hlt)
  unfold baseAlignment at *
  split at hskip <;> omega

/-- Subtracting more than there is goes round. -/
theorem wrap64_sub {size skip : Nat} (hsize : size < 2 ^ 64) (hskip : skip < 2 * baseAlignment) :
    wrap64 (size + 2 ^ 64 - skip) = if skip ≤ size then size - skip else size + 2 ^ 64 - skip := by
  unfold wrap64 baseAlignment at *
  split <;> omega

/-! ## The pages -/

theorem pageOffset_eq (pageSize i : Nat) :
    pageOffset pageSize i = if i * pageSize ≤ intMax then some (i * pageSize) else none := rfl

/-- **The loop** puts one offset after the other into the FIFO, as long as they are `int`s. -/
theorem pushPages_range (pageSize : Nat) (hn : n < intMax) (hf : Holds n f []) : ∀ k ≤ n,
    if ∀ i < k, i * pageSize ≤ intMax then
      ∃ f', (List.range k).foldlM (pushPage n pageSize) f = some f' ∧ Holds n f' ((List.range k).map (· * pageSize))
    else (List.range k).foldlM (pushPage n pageSize) f = none
  | 0, _ => by
    rw [if_pos (fun i hi => absurd hi (Nat.not_lt_zero i))]
    exact ⟨f, rfl, hf⟩
  | k + 1, hk => by
    have ih := pushPages_range pageSize hn hf k (by omega)
    rw [List.range_succ, List.foldlM_append]
    by_cases hall : ∀ i < k, i * pageSize ≤ intMax
    · rw [if_pos hall] at ih
      obtain ⟨f', hf', hholds⟩ := ih
      by_cases hlast : k * pageSize ≤ intMax
      · rw [if_pos fun i hi => (Nat.lt_succ_iff_lt_or_eq.1 hi).elim (hall i) fun he => he ▸ hlast]
        obtain ⟨f'', hpush, hholds'⟩ := hholds.push hn (k * pageSize)
        have hroom : ((List.range k).map (· * pageSize)).length ≠ n := by
          rw [List.length_map, List.length_range]
          omega
        rw [Common.queueCall, if_neg hroom] at hpush hholds'
        refine ⟨f'', ?_, by simpa using hholds'⟩
        simp [hf', pushPage, pageOffset_eq, hlast, hpush]
      · rw [if_neg fun h => hlast (h k (Nat.lt_succ_self k))]
        simp [hf', pushPage, pageOffset_eq, hlast]
    · rw [if_neg hall] at ih
      rw [if_neg fun h => hall fun i hi => h i (by omega), ih]
      rfl

/-- The offsets are `int`s if the last one is. -/
theorem offsets_int {pageSize n : Nat} : (∀ i < n, i * pageSize ≤ intMax) ↔ (n - 1) * pageSize ≤ intMax := by
  constructor
  · intro h
    by_cases hn : n = 0
    · subst hn
      rw [Nat.zero_sub, Nat.zero_mul]
      exact Nat.zero_le _
    · exact h (n - 1) (by omega)
  · intro h i hi
    exact Nat.le_trans (Nat.mul_le_mul_right _ (by omega)) h

theorem offsets_inside {memorySize pageSize : Nat} :
    ∀ o ∈ (List.range (memorySize / pageSize)).map (· * pageSize), o + pageSize ≤ memorySize := by
  intro o ho
  obtain ⟨i, hi, rfl⟩ := List.mem_map.1 ho
  have hle : (i + 1) * pageSize ≤ memorySize / pageSize * pageSize := Nat.mul_le_mul_right _ (List.mem_range.1 hi)
  have := Nat.div_mul_le_self memorySize pageSize
  rw [Nat.succ_mul] at hle
  omega

theorem pages_disjoint {pageSize n : Nat} :
    ((List.range n).map (· * pageSize)).Pairwise fun o o' => o + pageSize ≤ o' ∨ o' + pageSize ≤ o := by
  rw [List.pairwise_map]
  refine List.pairwise_lt_range.imp fun {i j} hij => .inl ?_
  have hle : (i + 1) * pageSize ≤ j * pageSize := Nat.mul_le_mul_right _ hij
  rwa [Nat.succ_mul] at hle

theorem numberOfPages_eq {memorySize pageSize : Nat} (h : memorySize / pageSize ≤ intMax) :
    numberOfPages memorySize pageSize = (memorySize / pageSize : Nat) := by
  rw [numberOfPages, toSigned_of_lt (by unfold intMax at h; omega)]

/-- What the constructor makes of a mapping with room for the skipped bytes. -/
theorem construct_eq (hpage : 0 < pageSize) (hmap : file.address + file.size < 2 ^ 64)
    (hfit : file.size / pageSize ≤ intMax) (hskip : skipBytes file.address ≤ file.size) : construct file pageSize =
      ((Fields.create ((file.size - skipBytes file.address) / pageSize) 0).bind
        (pushPages ((file.size - skipBytes file.address) / pageSize) pageSize)).map fun pagesAvailable =>
          ⟨file.size - skipBytes file.address, pageSize, file.address + skipBytes file.address,
            ((file.size - skipBytes file.address) / pageSize : Nat), pagesAvailable⟩ := by
  have hlt := (skipBytes_aligned file.address (by omega)).2
  have hbase : wrap64 (file.address + skipBytes file.address) = file.address + skipBytes file.address :=
    Nat.mod_eq_of_lt (by omega)
  have hpages : (file.size - skipBytes file.address) / pageSize ≤ intMax :=
    Nat.le_trans (Nat.div_le_div_right (Nat.sub_le _ _)) hfit
  rw [construct, if_neg (Nat.ne_of_gt hpage)]
  dsimp only
  rw [wrap64_sub (by omega) hlt, if_pos hskip, numberOfPages_eq hpages, hbase]
  rfl

/-- **The pages tile the buffer exactly if the skipped bytes are there and nothing overflows.** -/
theorem tiles_iff (mapFile : Nat → MemoryMappedFile) {vMemorySize : Nat} (hpage : 0 < pageSize)
    (hfile : mapFile (requestedSize vMemorySize) = file) (hmap : file.address + file.size < 2 ^ 64)
    (hfit : file.size / pageSize ≤ intMax) :
    (∃ h, new mapFile vMemorySize pageSize = some h ∧ h.pageSize = pageSize ∧ Tiles file h) ↔ Fits file pageSize := by
  rw [new, hfile]
  constructor
  · rintro ⟨h, hnew, -, hends, -⟩
    have hskip : skipBytes file.address ≤ file.size := by
      obtain ⟨skipped, -, hsize⟩ := hends
      rw [construct, if_neg (Nat.ne_of_gt hpage)] at hnew
      obtain ⟨_, -, rfl⟩ := Option.map_eq_some_iff.1 hnew
      have hlt := (skipBytes_aligned file.address (by omega)).2
      by_contra hskip
      dsimp only at hsize
      rw [wrap64_sub (by omega) hlt, if_neg hskip] at hsize
      unfold baseAlignment at hlt
      omega
    rw [construct_eq hpage hmap hfit hskip] at hnew
    obtain ⟨pagesAvailable, hpages, -⟩ := Option.map_eq_some_iff.1 hnew
    obtain ⟨f, hcreate, hpush⟩ := Option.bind_eq_some_iff.1 hpages
    have hn : (file.size - skipBytes file.address) / pageSize < intMax := by
      by_contra hn
      rw [Fields.create, intAdd, if_neg (by omega)] at hcreate
      cases hcreate
    obtain ⟨f', hcreate', hholds⟩ := Common.holds_create hn 0
    obtain rfl := Option.some.inj (hcreate'.symm.trans hcreate)
    have hrange := pushPages_range pageSize hn hholds _ (Nat.le_refl _)
    refine ⟨hskip, hn, offsets_int.1 ?_⟩
    by_contra hall
    rw [if_neg hall] at hrange
    rw [pushPages, hrange] at hpush
    cases hpush
  · rintro ⟨hskip, hn, hlast⟩
    obtain ⟨f, hcreate, hholds⟩ := Common.holds_create hn 0
    have hrange := pushPages_range pageSize hn hholds _ (Nat.le_refl _)
    rw [if_pos (offsets_int.2 hlast)] at hrange
    obtain ⟨f', hpush, hholds'⟩ := hrange
    refine ⟨_, by rw [construct_eq hpage hmap hfit hskip, hcreate, Option.bind_some, pushPages, hpush]; rfl, rfl, ?_⟩
    have hoffsets := hholds'.contents_eq
    constructor
    · exact ⟨skipBytes file.address, rfl, Nat.sub_add_cancel hskip⟩
    · exact (skipBytes_aligned file.address (by omega)).1
    · exact hoffsets
    · intro o ho
      rw [offsets, Int.toNat_natCast, hoffsets] at ho
      exact offsets_inside o ho
    · rw [offsets, Int.toNat_natCast, hoffsets]
      exact pages_disjoint

/-- Three pages of 1 GiB. -/
def threeGigabytes : MemoryMappedFile := ⟨3 * 2 ^ 30, 0x7f0000000000⟩

theorem tiles_iff_threeGigabytes :
    (∃ h, new (fun _ => threeGigabytes) (3 * 2 ^ 30) (2 ^ 21) = some h ∧ h.pageSize = 2 ^ 21 ∧
      Tiles threeGigabytes h) ↔ Fits threeGigabytes (2 ^ 21) :=
  tiles_iff _ (by decide) rfl (by decide) (by decide)

/-- The offset of the third page, 2^31, is no `int`. -/
theorem threeGigabytes_not_tiled :
    ¬ ∃ h, new (fun _ => threeGigabytes) (3 * 2 ^ 30) (2 ^ 30) = some h ∧ Tiles threeGigabytes h := by
  rintro ⟨h, hnew, -⟩
  have hnone : new (fun _ => threeGigabytes) (3 * 2 ^ 30) (2 ^ 30) = none := by decide
  rw [hnone] at hnew
  cases hnew

end ReadoutMemoryHandler
end Readout
end Flp
