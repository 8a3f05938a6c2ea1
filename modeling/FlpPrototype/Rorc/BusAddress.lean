import FlpPrototype.Rorc.CrorcDmaChannel
import Mathlib.Data.List.Basic
/-!
# BusAddress — a registered buffer on the bus

A buffer is contiguous in user space and on the bus made of the entries of a scatter-gather list.  `getBusOffsetAddress`
translates one byte; a superpage is transferred to consecutive bus addresses from there on, and these are the images of
its bytes exactly if every two entries that meet inside it also meet on the bus (`image_iff_seamless`).
-/
namespace Flp
namespace Rorc

/-- The bus address of byte `k` of the entries' memory. -/
def busImage : List ScatterGatherEntry → Nat → Option Nat
  | [], _           => none
  | e :: entries, k => if k < e.size then some (e.addressBus + k) else busImage entries (k - e.size)

def totalSize (entries : List ScatterGatherEntry) : Nat := (entries.map ScatterGatherEntry.size).sum

/-- The entries follow each other in user space. -/
def UserContiguous : Nat → List ScatterGatherEntry → Prop
  | _, []              => True
  | base, e :: entries => e.addressUser = base ∧ UserContiguous (base + e.size) entries

/-- Two ranges of bus addresses have no address in common. -/
def Apart (e e' : ScatterGatherEntry) : Prop :=
  ∀ a, e.addressBus ≤ a → a < e.addressBus + e.size → e'.addressBus ≤ a → ¬ a < e'.addressBus + e'.size

/-- A buffer as it is registered. -/
structure Registered (cfg : Config) : Prop where
  user : ∃ base, UserContiguous base cfg.scatterGatherList ∧ base + totalSize cfg.scatterGatherList < 2 ^ 64
  bus : ∀ e ∈ cfg.scatterGatherList, e.addressBus + e.size ≤ 2 ^ 64
  apart : cfg.scatterGatherList.Pairwise Apart
  covers : cfg.bufferSize ≤ totalSize cfg.scatterGatherList

/-- Where two entries meet strictly between `lo` and `hi`, their bus addresses meet too; the entries are not empty. -/
def Meets : List ScatterGatherEntry → Nat → Nat → Prop
  | e :: e' :: entries, lo, hi =>
    (lo < e.size → e.size < hi → e'.addressBus = e.addressBus + e.size) ∧
      Meets (e' :: entries) (lo - e.size) (hi - e.size)
  | _, _, _ => True

/-- The superpage is contiguous in the card's bus address space. -/
def Seamless (entries : List ScatterGatherEntry) (superpage : Superpage) : Prop :=
  Meets (entries.filter fun e => 0 < e.size) superpage.offset (superpage.offset + superpage.size)

/-! ## The translation -/

variable {entries : List ScatterGatherEntry}

theorem find_entry : ∀ {entries : List ScatterGatherEntry} {base k : Nat}, UserContiguous base entries →
    base + totalSize entries < 2 ^ 64 → (∀ e ∈ entries, e.addressBus + e.size ≤ 2 ^ 64) → k < totalSize entries →
    (entries.find? (fun e => decide (e.addressUser ≤ base + k ∧ base + k < wrap64 (e.addressUser + e.size)))).map
      (fun e => wrap64 (e.addressBus + (base + k - e.addressUser))) = busImage entries k
  | [], _, _, _, _, _, hk => absurd hk (Nat.not_lt_zero _)
  | e :: entries, base, k, huser, hbelow, hbus, hk => by
    obtain ⟨rfl, huser⟩ := huser
    have htotal : totalSize (e :: entries) = e.size + totalSize entries := rfl
    have hwrap : wrap64 (e.addressUser + e.size) = e.addressUser + e.size := Nat.mod_eq_of_lt (by omega)
    rw [busImage]
    by_cases hin : k < e.size
    · have hbound := hbus e List.mem_cons_self
      rw [if_pos hin, List.find?_cons_of_pos (by rw [decide_eq_true_eq, hwrap]; omega),
        Option.map_some, Nat.add_sub_cancel_left, wrap64, Nat.mod_eq_of_lt (by omega)]
    · rw [if_neg hin, List.find?_cons_of_neg (by rw [decide_eq_true_eq, hwrap]; omega)]
      have hrest := @find_entry entries (e.addressUser + e.size) (k - e.size) huser (by omega)
        (fun e' he' => hbus e' (List.mem_cons_of_mem _ he')) (by omega)
      rwa [show e.addressUser + e.size + (k - e.size) = e.addressUser + k by omega] at hrest

/-- **The translation of a byte** of the buffer is its bus image. -/
theorem getBusOffsetAddress_eq {cfg : Config} (h : Registered cfg) {k : Nat}
    (hk : k < totalSize cfg.scatterGatherList) :
    getBusOffsetAddress cfg.scatterGatherList k = busImage cfg.scatterGatherList k := by
  obtain ⟨base, huser, hbelow⟩ := h.user
  have hfind := find_entry huser hbelow h.bus hk
  cases hlist : cfg.scatterGatherList with
  | nil =>
    rw [hlist] at hk
    exact absurd hk (Nat.not_lt_zero _)
  | cons e entries =>
    rw [hlist] at huser hfind
    obtain ⟨rfl, -⟩ := huser
    have hwrap : wrap64 (e.addressUser + k) = e.addressUser + k := Nat.mod_eq_of_lt (by omega)
    rw [getBusOffsetAddress, hwrap]
    exact hfind

theorem busImage_mem : ∀ {entries : List ScatterGatherEntry} {k a : Nat}, busImage entries k = some a →
    ∃ e ∈ entries, e.addressBus ≤ a ∧ a < e.addressBus + e.size
  | [], _, _, h => by cases h
  | e :: entries, k, a, h => by
    rw [busImage] at h
    by_cases hin : k < e.size
    · rw [if_pos hin] at h
      obtain rfl := Option.some.inj h
      exact ⟨e, List.mem_cons_self, by omega, by omega⟩
    · rw [if_neg hin] at h
      obtain ⟨e', he', hlo, hhi⟩ := busImage_mem h
      exact ⟨e', List.mem_cons_of_mem _ he', hlo, hhi⟩

/-- **Different bytes** have different bus addresses. -/
theorem busImage_inj : ∀ {entries : List ScatterGatherEntry} {k k' a : Nat}, entries.Pairwise Apart →
    busImage entries k = some a → busImage entries k' = some a → k = k'
  | [], _, _, _, _, h, _ => by cases h
  | e :: entries, k, k', a, hapart, h, h' => by
    obtain ⟨he, hapart⟩ := List.pairwise_cons.1 hapart
    rw [busImage] at h h'
    by_cases hin : k < e.size
    · rw [if_pos hin] at h
      obtain rfl := Option.some.inj h
      by_cases hin' : k' < e.size
      · rw [if_pos hin'] at h'
        have := Option.some.inj h'
        omega
      · rw [if_neg hin'] at h'
        obtain ⟨e', he', hlo, hhi⟩ := busImage_mem h'
        exact absurd hhi (he e' he' _ (by omega) (by omega) hlo)
    · rw [if_neg hin] at h
      by_cases hin' : k' < e.size
      · rw [if_pos hin'] at h'
        obtain rfl := Option.some.inj h'
        obtain ⟨e', he', hlo, hhi⟩ := busImage_mem h
        exact absurd hhi (he e' he' _ (by omega) (by omega) hlo)
      · rw [if_neg hin'] at h'
        have := busImage_inj hapart h h'
        omega

theorem busImage_filter : ∀ (entries : List ScatterGatherEntry) (k : Nat),
    busImage (entries.filter fun e => 0 < e.size) k = busImage entries k
  | [], _ => rfl
  | e :: entries, k => by
    by_cases hpos : 0 < e.size
    · rw [List.filter_cons_of_pos (by simpa using hpos), busImage, busImage, busImage_filter entries]
    · rw [List.filter_cons_of_neg (by simpa using hpos), busImage, if_neg (by omega), busImage_filter entries,
        show k - e.size = k by omega]

/-! ## Consecutive bus addresses -/

theorem meets_zero : ∀ (entries : List ScatterGatherEntry) (lo : Nat), Meets entries lo 0
  | [], _ => trivial
  | [_], _ => trivial
  | e :: e' :: entries, lo =>
    ⟨fun _ h => absurd h (Nat.not_lt_zero _), by rw [Nat.zero_sub]; exact meets_zero (e' :: entries) _⟩

/-- From `lo` to `hi` the images are consecutive exactly if the entries meet on the bus. -/
theorem image_iff_meets : ∀ {entries : List ScatterGatherEntry} {lo hi b : Nat}, (∀ e ∈ entries, 0 < e.size) →
    lo < hi → hi ≤ totalSize entries → busImage entries lo = some b →
    ((∀ k < hi - lo, busImage entries (lo + k) = some (b + k)) ↔ Meets entries lo hi)
  | [], _, _, _, _, _, _, hb => by cases hb
  | [e], lo, hi, b, _, _, hhi, hb => by
    have hsize : totalSize [e] = e.size := rfl
    rw [busImage] at hb
    rw [if_pos (by omega)] at hb
    obtain rfl := Option.some.inj hb
    refine iff_of_true (fun k hk => ?_) trivial
    rw [busImage, if_pos (by omega), Nat.add_assoc]
  | e :: e' :: entries, lo, hi, b, hpos, hlt, hhi, hb => by
    have hpos' : ∀ x ∈ e' :: entries, 0 < x.size := fun x hx => hpos x (List.mem_cons_of_mem _ hx)
    have htotal : totalSize (e :: e' :: entries) = e.size + totalSize (e' :: entries) := rfl
    have hrest : ∀ k, e.size ≤ k → busImage (e :: e' :: entries) k = busImage (e' :: entries) (k - e.size) :=
      fun k hk => by rw [busImage, if_neg (by omega)]
    rw [Meets]
    by_cases hlo : e.size ≤ lo
    · -- both ends are behind the first entry
      rw [hrest lo hlo] at hb
      have ih := image_iff_meets hpos' (show lo - e.size < hi - e.size by omega) (by omega) hb
      rw [show hi - e.size - (lo - e.size) = hi - lo by omega] at ih
      refine Iff.trans ⟨fun h k hk => ?_, fun h k hk => ?_⟩ (ih.trans ⟨fun h => ⟨fun hlt' => by omega, h⟩, And.right⟩)
      · rw [← h k hk, hrest _ (by omega), show lo + k - e.size = lo - e.size + k by omega]
      · rw [← h k hk, hrest _ (by omega), show lo + k - e.size = lo - e.size + k by omega]
    · rw [busImage, if_pos (by omega)] at hb
      obtain rfl := Option.some.inj hb
      by_cases hend : hi ≤ e.size
      · -- both ends are in the first entry
        refine iff_of_true (fun k hk => ?_) ⟨fun _ _ => by omega, ?_⟩
        · rw [busImage, if_pos (by omega), Nat.add_assoc]
        · rw [show hi - e.size = 0 by omega]
          exact meets_zero _ _
      · have hzero : busImage (e' :: entries) 0 = some e'.addressBus := by
          rw [busImage, if_pos (hpos' e' List.mem_cons_self), Nat.add_zero]
        have ih := image_iff_meets hpos' (show 0 < hi - e.size by omega) (by omega) hzero
        simp only [Nat.zero_add, Nat.sub_zero] at ih
        rw [show lo - e.size = 0 by omega, ← ih]
        constructor
        · intro h
          have hmeet : e'.addressBus = e.addressBus + e.size := by
            have h' := h (e.size - lo) (by omega)
            rw [hrest _ (by omega), show lo + (e.size - lo) - e.size = 0 by omega, hzero] at h'
            have := Option.some.inj h'
            omega
          refine ⟨fun _ _ => hmeet, fun m hm => ?_⟩
          have h' := h (e.size - lo + m) (by omega)
          rw [hrest _ (by omega), show lo + (e.size - lo + m) - e.size = m by omega] at h'
          rw [h', hmeet]
          exact congrArg some (by omega)
        · rintro ⟨hmeet, h⟩ k hk
          by_cases hin : lo + k < e.size
          · rw [busImage, if_pos hin, Nat.add_assoc]
          · rw [hrest _ (by omega), h _ (by omega), hmeet (by omega) (by omega)]
            exact congrArg some (by omega)

theorem totalSize_filter : ∀ entries : List ScatterGatherEntry,
    totalSize (entries.filter fun e => 0 < e.size) = totalSize entries
  | [] => rfl
  | e :: entries => by
    have ih := totalSize_filter entries
    simp only [totalSize] at ih ⊢
    by_cases hpos : 0 < e.size
    · rw [List.filter_cons_of_pos (by simpa using hpos), List.map_cons, List.map_cons, List.sum_cons, List.sum_cons, ih]
    · rw [List.filter_cons_of_neg (by simpa using hpos), List.map_cons, List.sum_cons, ih]
      omega

/-- **The images of a superpage's bytes** are consecutive exactly if the superpage is contiguous on the bus. -/
theorem image_iff_seamless {superpage : Superpage} {b : Nat} (hsize : 0 < superpage.size)
    (hend : superpage.offset + superpage.size ≤ totalSize entries) (hb : busImage entries superpage.offset = some b) :
    (∀ k < superpage.size, busImage entries (superpage.offset + k) = some (b + k)) ↔ Seamless entries superpage := by
  rw [← busImage_filter] at hb
  rw [← totalSize_filter] at hend
  have hpos : ∀ e ∈ entries.filter (fun e => 0 < e.size), 0 < e.size := fun e he =>
    of_decide_eq_true (List.mem_filter.1 he).2
  have h := image_iff_meets hpos (show superpage.offset < superpage.offset + superpage.size by omega) hend hb
  simp only [Nat.add_sub_cancel_left, busImage_filter] at h
  exact h

/-! ## What a superpage is transferred to -/

/-- A bus address is the image of the byte at a distance from the superpage's offset, and of no byte outside of the
superpage. -/
def OwnByte (entries : List ScatterGatherEntry) (superpage : Superpage) (distance address : Nat) : Prop :=
  busImage entries (superpage.offset + distance) = some address ∧
    ∀ k, busImage entries k = some address → superpage.offset ≤ k ∧ k < superpage.offset + superpage.size

/-- **Consecutive addresses** from the translated offset on are the superpage's own bytes. -/
theorem ownByte {cfg : Config} (h : Registered cfg) {superpage : Superpage} {busAddress : Nat}
    (hend : superpage.offset + superpage.size ≤ cfg.bufferSize)
    (hb : getBusOffsetAddress cfg.scatterGatherList superpage.offset = some busAddress)
    (hseamless : Seamless cfg.scatterGatherList superpage) {k : Nat} (hk : k < superpage.size) :
    OwnByte cfg.scatterGatherList superpage k (wrap64 (busAddress + k)) := by
  have hcovers := h.covers
  rw [getBusOffsetAddress_eq h (by omega)] at hb
  have himage := (image_iff_seamless (by omega) (by omega) hb).2 hseamless k hk
  have hwrap : wrap64 (busAddress + k) = busAddress + k := by
    obtain ⟨e, he, -, hhi⟩ := busImage_mem himage
    have := h.bus e he
    exact Nat.mod_eq_of_lt (by omega)
  rw [hwrap]
  refine ⟨himage, fun k' hk' => ?_⟩
  have := busImage_inj h.apart himage hk'
  omega

/-- What the checks guarantee when the end of the superpage is not beyond all addresses. -/
theorem checkSuperpage_inside {cfg : Config} {superpage : Superpage}
    (h : Channel.checkSuperpage cfg superpage = .ok ()) (hsum : superpage.offset + superpage.size < 2 ^ 64) :
    superpage.offset + superpage.size ≤ cfg.bufferSize := by
  unfold Channel.checkSuperpage at h
  split_ifs at h with h1 h2 h3 h4
  rw [wrap64, Nat.mod_eq_of_lt hsum] at h3
  omega

end Rorc
end Flp
