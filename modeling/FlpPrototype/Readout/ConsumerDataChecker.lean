import FlpPrototype.Rorc.DmaBenchCheck
/-!
# ConsumerDataChecker — the check of a block's pages

A block is a succession of pages of 8 KiB.  Each page's header tells its size in 256-bit words, from which
`pushData` gets the bytes of its payload in `unsigned int`, without comparing them with anything: a header that tells
fewer words than it has itself gives nearly 4 GiB.  A block is read inside its data exactly if each page's payload ends
there (`pushData_inside_iff`).
-/
namespace Flp
namespace Readout

open DmaBench (PageWords)

/-- `sizeof(RocPageHeader)` -/
def rocPageHeaderSize : Nat := 64

/-- The step from page to page. -/
def rocPageSize : Nat := 8 * 1024

/-- What is logged of an error, the address of the superpage apart. -/
structure DataError where
  errorCount : UInt64
  pageId : Nat
  pagePayloadSize : Nat
  w : Nat
  value : UInt32
  checkValue : UInt32
  deriving DecidableEq, Repr

structure ConsumerDataChecker where
  checkValue : UInt32
  errorCount : UInt64
  checkedPages : UInt64
  log : List DataError
  deriving DecidableEq, Repr

/-- `(h->payloadSize) * 256 / 8 - sizeof(RocPageHeader)`: the product is an `unsigned int`, the difference a `size_t`
kept in an `unsigned int`. -/
def pagePayloadSize (payloadSize : UInt32) : Nat :=
  (payloadSize.toNat * 256 % 2 ^ 32 / 8 + 2 ^ 64 - rocPageHeaderSize) % 2 ^ 64 % 2 ^ 32

/-- A page while it is checked: its number, its payload size and the index of the payload's first 32-bit word. -/
structure RocPage where
  pageId : Nat
  pagePayloadSize : Nat
  payload : Nat

/-- The eight integers of a 256-bit word: up to the first wrong one they are read, and the first one again for the
log. -/
def checkWord (data : PageWords) (p : RocPage) (w : Nat) (s : ConsumerDataChecker) : List Nat × ConsumerDataChecker :=
  match scan (fun j => data (p.payload + w + j) = s.checkValue) 8 0 with
  | (js, none)   => (js.map (p.payload + w + ·), { s with checkValue := s.checkValue + 1 })
  | (js, some _) =>
    let errorCount := s.errorCount + 1
    let logged := errorCount < 100 ∨ errorCount % 1000 = 0
    (js.map (p.payload + w + ·) ++ (if logged then [p.payload + w] else []),
      { s with
        checkValue := s.checkValue + 1
        errorCount := errorCount
        log := s.log ++ (if logged then
          [⟨errorCount, p.pageId, p.pagePayloadSize, w, data (p.payload + w), s.checkValue⟩] else []) })

/-- `n` more words of the payload, from `w` on. -/
def checkPayload (data : PageWords) (p : RocPage) : Nat → Nat → ConsumerDataChecker → List Nat × ConsumerDataChecker
  | 0, _, s     => ([], s)
  | n + 1, w, s =>
    let r := checkWord data p w s
    let rest := checkPayload data p n (w + 8) r.2
    (r.1 ++ rest.1, rest.2)

/-- The rounds of `for (w = 0; w < pagePayloadSize / sizeof(unsigned int); w += 8)`. -/
def payloadRounds (pagePayloadSize : Nat) : Nat := (pagePayloadSize / 4 + 7) / 8

/-- The loop over the pages, of which `fuel` bounds the rounds; `i` is an `unsigned int`. -/
def checkPages (data : PageWords) (size : Nat) :
    Nat → Nat → Nat → ConsumerDataChecker → Option (List Nat × ConsumerDataChecker)
  | 0, _, _, _             => none
  | fuel + 1, i, pageId, s =>
    if i < size then
      let s := { s with checkedPages := s.checkedPages + 1 }
      let p : RocPage := ⟨pageId, pagePayloadSize (data (i / 4 + 3)), (i + rocPageHeaderSize) / 4⟩
      let r := checkPayload data p (payloadRounds p.pagePayloadSize) 0 s
      (checkPages data size fuel ((i + rocPageSize) % 2 ^ 32) (pageId + 1) r.2).map fun rest =>
        ((i / 4 + 3) :: r.1 ++ rest.1, rest.2)
    else some ([], s)

/-- What `pushData` returns, the 32-bit words of the block it reads, by their index, and the checker behind it. -/
structure Pushed where
  code : Int
  reads : List Nat
  checker : ConsumerDataChecker

/-- `pushData` of a block: the words behind its data pointer, unless that is null, and its `dataSize`. -/
def pushData (fuel : Nat) (data : Option PageWords) (size : Nat) (s : ConsumerDataChecker) : Option Pushed :=
  match data with
  | none      => some ⟨-1, [], s⟩
  | some data => (checkPages data size fuel 0 0 s).map fun r => ⟨0, r.1, r.2⟩

/-- All words read are inside the block. -/
def Pushed.ReadsInside (r : Pushed) (size : Nat) : Prop := ∀ k ∈ r.reads, 4 * k + 4 ≤ size

/-- The payload of the page at `i` ends inside the block. -/
def PayloadInside (data : PageWords) (size i : Nat) : Prop :=
  i + rocPageHeaderSize + pagePayloadSize (data (i / 4 + 3)) ≤ size

/-! ## A page -/

variable {data : PageWords} {p : RocPage} {size : Nat} {s : ConsumerDataChecker}

/-- A payload is a number of 256-bit words. -/
theorem dvd_pagePayloadSize (payloadSize : UInt32) : 32 ∣ pagePayloadSize payloadSize := by
  unfold pagePayloadSize rocPageHeaderSize
  omega

/-- The first integer of a word is read, and none outside the word. -/
theorem mem_checkWord {w k : Nat} (h : k ∈ (checkWord data p w s).1) : p.payload + w ≤ k ∧ k < p.payload + w + 8 := by
  rw [checkWord] at h
  have hmem := @mem_scan (fun j => data (p.payload + w + j) = s.checkValue)
  have hjs : ∀ js, js = (scan (fun j => data (p.payload + w + j) = s.checkValue) 8 0).1 →
      ∀ k ∈ js.map (p.payload + w + ·), p.payload + w ≤ k ∧ k < p.payload + w + 8 := by
    rintro js rfl k hk
    obtain ⟨j, hj, rfl⟩ := List.mem_map.1 hk
    obtain ⟨-, hlt, -⟩ := hmem.1 hj
    exact ⟨Nat.le_add_right _ _, by omega⟩
  split at h
  · rename_i js hscan
    exact hjs js (by rw [hscan]) k h
  · rename_i js j hscan
    rcases List.mem_append.1 h with hk | hk
    · exact hjs js (by rw [hscan]) k hk
    · split at hk
      · rw [List.mem_singleton.1 hk]
        omega
      · cases hk

theorem first_mem_checkWord {w : Nat} : p.payload + w ∈ (checkWord data p w s).1 := by
  have hfirst : p.payload + w ∈
      (scan (fun j => data (p.payload + w + j) = s.checkValue) 8 0).1.map (p.payload + w + ·) :=
    List.mem_map.2 ⟨0, mem_scan.2 ⟨Nat.le_refl 0, by omega, fun i _ hi => absurd hi (Nat.not_lt_zero i)⟩, rfl⟩
  rw [checkWord]
  split
  · rename_i js hscan
    rwa [hscan] at hfirst
  · rename_i js j hscan
    rw [hscan] at hfirst
    exact List.mem_append_left _ hfirst

theorem mem_checkPayload {k : Nat} : ∀ {n w : Nat} {s : ConsumerDataChecker}, k ∈ (checkPayload data p n w s).1 →
    p.payload + w ≤ k ∧ k < p.payload + w + 8 * n
  | 0, _, _, h => by cases h
  | n + 1, w, s, h => by
    rcases List.mem_append.1 h with h | h
    · have := mem_checkWord h
      omega
    · have := mem_checkPayload h
      omega

theorem first_mem_checkPayload : ∀ {n b w : Nat} {s : ConsumerDataChecker}, b < n →
    p.payload + w + 8 * b ∈ (checkPayload data p n w s).1
  | 0, _, _, _, h => absurd h (Nat.not_lt_zero _)
  | n + 1, 0, w, s, _ => List.mem_append_left _ first_mem_checkWord
  | n + 1, b + 1, w, s, h => by
    have hrest := first_mem_checkPayload (n := n) (b := b) (w := w + 8) (s := (checkWord data p w s).2) (by omega)
    have he : p.payload + (w + 8) + 8 * b = p.payload + w + 8 * (b + 1) := by omega
    rw [he] at hrest
    exact List.mem_append_right _ hrest

/-- **A page is read inside the block exactly if its payload ends there.** -/
theorem checkPayload_inside (data : PageWords) (s : ConsumerDataChecker) {i : Nat} (pageId : Nat) (hi : rocPageSize ∣ i)
    (hsize : rocPageSize ∣ size) (hlt : i < size) :
    (∀ k ∈ (checkPayload data ⟨pageId, pagePayloadSize (data (i / 4 + 3)), (i + rocPageHeaderSize) / 4⟩
      (payloadRounds (pagePayloadSize (data (i / 4 + 3)))) 0 s).1, 4 * k + 4 ≤ size) ↔ PayloadInside data size i := by
  have hdvd := dvd_pagePayloadSize (data (i / 4 + 3))
  unfold PayloadInside
  generalize pagePayloadSize (data (i / 4 + 3)) = payloadSize at *
  have hrounds : 32 * payloadRounds payloadSize = payloadSize := by
    unfold payloadRounds
    omega
  unfold rocPageSize rocPageHeaderSize at *
  constructor
  · intro hreads
    by_contra hout
    have hlast := hreads _ (first_mem_checkPayload (b := payloadRounds payloadSize - 1) (by omega))
    dsimp only at hlast
    omega
  · intro hin k hk
    have := (mem_checkPayload hk).2
    dsimp only at this
    omega

/-! ## The loop over the pages -/

/-- **The loop ends**, once it may go as often as there are pages left. -/
theorem checkPages_ends (data : PageWords) (hsize : rocPageSize ∣ size) (hlt : size < 2 ^ 32) : ∀ (fuel : Nat)
    {i : Nat} (pageId : Nat) (s : ConsumerDataChecker), rocPageSize ∣ i → i ≤ size → size < i + rocPageSize * fuel →
    ∃ r, checkPages data size fuel i pageId s = some r
  | 0, i, _, _, _, hle, hfuel => absurd hfuel (by omega)
  | fuel + 1, i, pageId, s, hi, hle, hfuel => by
    rw [checkPages]
    by_cases h : i < size
    · have hnext : (i + rocPageSize) % 2 ^ 32 = i + rocPageSize := Nat.mod_eq_of_lt (by unfold rocPageSize at *; omega)
      rw [if_pos h, hnext]
      dsimp only
      obtain ⟨r, hr⟩ := checkPages_ends data hsize hlt fuel (i := i + rocPageSize) (pageId + 1)
        (checkPayload data ⟨pageId, pagePayloadSize (data (i / 4 + 3)), (i + rocPageHeaderSize) / 4⟩
          (payloadRounds (pagePayloadSize (data (i / 4 + 3)))) 0 { s with checkedPages := s.checkedPages + 1 }).2
        (by unfold rocPageSize at *; omega) (by unfold rocPageSize at *; omega) (by unfold rocPageSize at *; omega)
      rw [hr]
      exact ⟨_, rfl⟩
    · exact ⟨_, if_neg h⟩

/-- **What the loop reads is inside the block exactly if every payload is.** -/
theorem checkPages_inside (hsize : rocPageSize ∣ size) (hlt : size < 2 ^ 32) : ∀ {fuel i pageId : Nat}
    {s : ConsumerDataChecker} {r : List Nat × ConsumerDataChecker}, rocPageSize ∣ i →
    checkPages data size fuel i pageId s = some r →
      ((∀ k ∈ r.1, 4 * k + 4 ≤ size) ↔ ∀ i', i ≤ i' → i' < size → rocPageSize ∣ i' → PayloadInside data size i')
  | 0, _, _, _, _, _, h => by cases h
  | fuel + 1, i, pageId, s, r, hi, h => by
    rw [checkPages] at h
    by_cases hin : i < size
    · have hnext : (i + rocPageSize) % 2 ^ 32 = i + rocPageSize := Nat.mod_eq_of_lt (by unfold rocPageSize at *; omega)
      rw [if_pos hin, hnext] at h
      obtain ⟨rest, hrest, rfl⟩ := Option.map_eq_some_iff.1 h
      have ih := checkPages_inside hsize hlt (Nat.dvd_add hi (Nat.dvd_refl _)) hrest
      have hpage := checkPayload_inside data { s with checkedPages := s.checkedPages + 1 } pageId hi hsize hin
      have hheader : 4 * (i / 4 + 3) + 4 ≤ size := by unfold rocPageSize at *; omega
      dsimp only
      rw [List.forall_mem_append, List.forall_mem_cons, ih, hpage]
      constructor
      · rintro ⟨⟨-, hfirst⟩, hothers⟩ i' hle hlt' hdvd
        rcases Nat.eq_or_lt_of_le hle with rfl | hle
        · exact hfirst
        · exact hothers i' (by unfold rocPageSize at *; omega) hlt' hdvd
      · exact fun hall => ⟨⟨hheader, hall i (Nat.le_refl i) hin hi⟩, fun i' hle => hall i' (by omega)⟩
    · rw [if_neg hin] at h
      obtain rfl := Option.some.inj h
      exact iff_of_true nofun fun i' hle hlt' => absurd hlt' (by omega)

theorem pushData_inside_iff {data : Option PageWords} (hsize : rocPageSize ∣ size) (hlt : size < 2 ^ 32) :
    (∃ fuel r, pushData fuel data size s = some r ∧ r.ReadsInside size) ↔
      ∀ words ∈ data, ∀ i < size, rocPageSize ∣ i → PayloadInside words size i := by
  cases data with
  | none => exact iff_of_true ⟨0, _, rfl, nofun⟩ nofun
  | some words =>
    have hinside : ∀ {fuel r}, checkPages words size fuel 0 0 s = some r →
        ((∀ k ∈ r.1, 4 * k + 4 ≤ size) ↔ ∀ i < size, rocPageSize ∣ i → PayloadInside words size i) := fun h =>
      (checkPages_inside hsize hlt (Nat.dvd_zero _) h).trans
        ⟨fun hall i => hall i (Nat.zero_le i), fun hall i _ => hall i⟩
    constructor
    · rintro ⟨fuel, r, hpush, hreads⟩ words' hwords
      obtain rfl := Option.some.inj hwords
      obtain ⟨r', hpages, rfl⟩ := Option.map_eq_some_iff.1 hpush
      exact (hinside hpages).1 hreads
    · intro hall
      have hfuel : size < 0 + rocPageSize * (size + 1) := by
        rw [Nat.zero_add]
        exact Nat.lt_of_lt_of_le (Nat.lt_succ_self size) (Nat.le_mul_of_pos_left _ (by decide))
      obtain ⟨r, hr⟩ := checkPages_ends words hsize hlt (size + 1) 0 s (Nat.dvd_zero _) (Nat.zero_le size) hfuel
      have hreads := (hinside hr).2 (hall words rfl)
      refine ⟨size + 1, ⟨0, r.1, r.2⟩, ?_, hreads⟩
      simp only [pushData, hr, Option.map_some]

/-! ## Both checks -/

/-- **Neither check reads outside**, exactly if the page ends the one, and every payload of the block is inside it. -/
theorem pageChecks_inside_iff {page : PageWords} {pageSize : Nat} {eventNumber : Int} {c : DmaBench.ErrorChecker}
    {data : Option PageWords} (hpage : 8192 ≤ pageSize) (hsize : rocPageSize ∣ size) (hlt : size < 2 ^ 32) :
    ((DmaBench.checkErrorsCru page pageSize eventNumber c).ReadsInside pageSize ↔
      DmaBench.EndsInPage page pageSize c.mDataGeneratorCounter) ∧
    ((∃ fuel r, pushData fuel data size s = some r ∧ r.ReadsInside size) ↔
      ∀ words ∈ data, ∀ i < size, rocPageSize ∣ i → PayloadInside words size i) :=
  ⟨DmaBench.readsInside_iff hpage, pushData_inside_iff hsize hlt⟩

/-- A block of one page, whose header tells no words at all. -/
def emptyPage : PageWords := fun _ => 0

theorem pageChecks_inside_iff_emptyPage :
    ((DmaBench.checkErrorsCru emptyPage 8192 0 ⟨-1, 0, []⟩).ReadsInside 8192 ↔
      DmaBench.EndsInPage emptyPage 8192 (-1)) ∧
    ((∃ fuel r, pushData fuel (some emptyPage) 8192 ⟨0, 0, 0, []⟩ = some r ∧ r.ReadsInside 8192) ↔
      ∀ words ∈ some emptyPage, ∀ i < 8192, rocPageSize ∣ i → PayloadInside words 8192 i) :=
  pageChecks_inside_iff (by decide) (by decide) (by decide)

/-- Of `endlessPage` the benchmark reads words behind the page; of `emptyPage` the checker reads nearly 4 GiB. -/
theorem pages_read_outside :
    ¬ (DmaBench.checkErrorsCru DmaBench.endlessPage 8192 0 ⟨0, 0, []⟩).ReadsInside 8192 ∧
    ¬ ∃ fuel r, pushData fuel (some emptyPage) 8192 ⟨0, 0, 0, []⟩ = some r ∧ r.ReadsInside 8192 := by
  constructor
  · rw [DmaBench.readsInside_iff (by decide)]
    exact DmaBench.endlessPage_not_ends
  · rw [pushData_inside_iff (by decide) (by decide)]
    intro hall
    exact absurd (hall emptyPage rfl 0 (by decide) (Nat.dvd_zero _)) (by unfold PayloadInside; decide)

end Readout
end Flp
