import FlpPrototype.Lib.ByteMemory
import FlpPrototype.Rorc.CrorcDmaChannel
/-!
# PdaBar — register access through a mapped BAR

A register is four bytes at `index * sizeof(uint32_t)` of the mapping, with the `int` index made unsigned by the
product.  `assertRange` compares addresses modulo `2 ^ 64`, and with `<`: it refuses the last register, and it lets
nearly every negative index through.  `rangeExact_iff` says which accesses are decided rightly.
-/
namespace Flp
namespace Rorc
namespace Pda

/-- `sizeof(uint32_t)`. -/
def registerSize : Nat := 4

structure PdaBar where
  /-- A `size_t`. -/
  mBarLength : Nat
  mUserspaceAddress : Nat
  deriving DecidableEq, Repr

/-- What `assertRange` throws: the message and the numbers attached to it. -/
structure RangeException where
  Message : String
  BarIndex : Nat
  BarSize : Nat
  deriving DecidableEq, Repr

/-- What an access gives, the addresses it touches and the memory afterwards. -/
structure Access (α : Type) where
  result : Except RangeException α
  touched : List Nat
  memory : ByteMemory

namespace PdaBar

def getBarLength (bar : PdaBar) : Nat := bar.mBarLength

def getOffsetAddress (bar : PdaBar) (byteOffset : Nat) : Nat := wrap64 (bar.mUserspaceAddress + byteOffset)

def isInRange (bar : PdaBar) (size offset : Nat) : Bool :=
  wrap64 (bar.mUserspaceAddress + offset + size) < wrap64 (bar.mUserspaceAddress + bar.mBarLength)

def assertRange (bar : PdaBar) (size offset : Nat) : Except RangeException Unit :=
  if !bar.isInRange size offset then .error ⟨"BAR offset out of range", offset, bar.getBarLength⟩ else .ok ()

/-- The `memcpy` of both accesses runs over the `size` addresses from here on. -/
def copied (address size : Nat) : List Nat := (List.range size).map fun k => address + k

def barRead (bar : PdaBar) (m : ByteMemory) (byteOffset : Nat) : Access UInt32 :=
  match bar.assertRange registerSize byteOffset with
  | .error e => ⟨.error e, [], m⟩
  | .ok _    =>
    let address := bar.getOffsetAddress byteOffset
    ⟨.ok (UInt32.ofNat (leNat (m.load address registerSize))), copied address registerSize, m⟩

def barWrite (bar : PdaBar) (m : ByteMemory) (byteOffset : Nat) (value : UInt32) : Access Unit :=
  match bar.assertRange registerSize byteOffset with
  | .error e => ⟨.error e, [], m⟩
  | .ok _    =>
    let address := bar.getOffsetAddress byteOffset
    ⟨.ok (), copied address registerSize, m.store address (leBytes registerSize value.toNat)⟩

/-- `index * sizeof(uint32_t)`: the `int` is converted to `size_t` first. -/
def registerOffset (index : Int) : Nat := wrap64 (toUnsigned 64 index * registerSize)

def readRegister (bar : PdaBar) (m : ByteMemory) (index : Int) : Access UInt32 := bar.barRead m (registerOffset index)

def writeRegister (bar : PdaBar) (m : ByteMemory) (index : Int) (value : UInt32) : Access Unit :=
  bar.barWrite m (registerOffset index) value

/-! ## What an access is to be -/

/-- The register is inside the BAR. -/
def Inside (bar : PdaBar) (index : Int) : Prop := 0 ≤ index ∧ 4 * index + 4 ≤ bar.mBarLength

instance (bar : PdaBar) (index : Int) : Decidable (bar.Inside index) := inferInstanceAs (Decidable (_ ∧ _))

/-- Where a register inside the BAR is mapped. -/
def registerAddress (bar : PdaBar) (index : Int) : Nat := bar.mUserspaceAddress + 4 * index.toNat

end PdaBar

/-- An access that throws and touches nothing. -/
def Access.Refused {α : Type} (a : Access α) (m : ByteMemory) : Prop :=
  (∃ e, a.result = .error e) ∧ a.touched = [] ∧ a.memory = m

namespace PdaBar

/-- A register inside the BAR is read and written at its four bytes; any other access throws. -/
structure RangeExact (bar : PdaBar) (index : Int) : Prop where
  read : ∀ m, if bar.Inside index then
      bar.readRegister m index = ⟨.ok (UInt32.ofNat (leNat (m.load (bar.registerAddress index) 4))),
        copied (bar.registerAddress index) 4, m⟩
    else (bar.readRegister m index).Refused m
  write : ∀ m value, if bar.Inside index then
      bar.writeRegister m index value = ⟨.ok (), copied (bar.registerAddress index) 4,
        m.store (bar.registerAddress index) (leBytes 4 value.toNat)⟩
    else (bar.writeRegister m index value).Refused m

/-- The accesses that `isInRange` decides rightly: not the last register, none so far behind the BAR that the address
goes round, and of the negative indices those that stay negative behind the mapping address. -/
def Decided (bar : PdaBar) (index : Int) : Prop :=
  if 0 ≤ index then 4 * index + 4 ≠ bar.mBarLength ∧ bar.mUserspaceAddress + 4 * index + 4 < 2 ^ 64
  else if 0 ≤ bar.mUserspaceAddress + 4 * index + 4 then index = -1 ∧ bar.mBarLength = 0
  else (bar.mBarLength : Int) ≤ 2 ^ 64 + (4 * index + 4)

instance (bar : PdaBar) (index : Int) : Decidable (bar.Decided index) := by unfold Decided; infer_instance

/-! ## The check -/

variable {bar : PdaBar} {index : Int} {m : ByteMemory}

theorem registerOffset_of_nonneg (h : 0 ≤ index) (hhi : index < 2 ^ 31) : registerOffset index = 4 * index.toNat := by
  unfold registerOffset toUnsigned wrap64 registerSize
  omega

theorem registerOffset_of_neg (h : index < 0) (hlo : -2 ^ 31 ≤ index) :
    (registerOffset index : Int) = 2 ^ 64 + 4 * index := by
  unfold registerOffset toUnsigned wrap64 registerSize
  omega

theorem barRead_of_inRange {offset : Nat} (h : bar.isInRange registerSize offset = true) :
    bar.barRead m offset = ⟨.ok (UInt32.ofNat (leNat (m.load (bar.getOffsetAddress offset) registerSize))),
      copied (bar.getOffsetAddress offset) registerSize, m⟩ := by
  simp [barRead, assertRange, h]

theorem barWrite_of_inRange {offset : Nat} {value : UInt32} (h : bar.isInRange registerSize offset = true) :
    bar.barWrite m offset value = ⟨.ok (), copied (bar.getOffsetAddress offset) registerSize,
      m.store (bar.getOffsetAddress offset) (leBytes registerSize value.toNat)⟩ := by
  simp [barWrite, assertRange, h]

theorem barRead_refused {offset : Nat} (h : bar.isInRange registerSize offset = false) :
    (bar.barRead m offset).Refused m := by
  simp [barRead, assertRange, h, Access.Refused]

theorem barWrite_refused {offset : Nat} {value : UInt32} (h : bar.isInRange registerSize offset = false) :
    (bar.barWrite m offset value).Refused m := by
  simp [barWrite, assertRange, h, Access.Refused]

/-! ## The check decides -/

variable (haddress : bar.mUserspaceAddress + bar.mBarLength < 2 ^ 64) (hlo : -2 ^ 31 ≤ index) (hhi : index < 2 ^ 31)
include haddress hlo hhi

/-- An index that is not negative is let through below the last register, and where its end goes round. -/
theorem isInRange_of_nonneg (h : 0 ≤ index) : bar.isInRange registerSize (registerOffset index) = true ↔
    4 * index + 4 < bar.mBarLength ∨ 2 ^ 64 ≤ bar.mUserspaceAddress + 4 * index + 4 := by
  rw [registerOffset_of_nonneg h hhi, isInRange, decide_eq_true_eq]
  unfold wrap64 registerSize
  omega

/-- A negative index is let through unless it stays negative behind the mapping address. -/
theorem isInRange_of_neg (h : index < 0) : bar.isInRange registerSize (registerOffset index) = true ↔
    if 0 ≤ bar.mUserspaceAddress + 4 * index + 4 then 4 * index + 4 < bar.mBarLength
    else 2 ^ 64 + (4 * index + 4) < bar.mBarLength := by
  have hoff := registerOffset_of_neg h hlo
  rw [isInRange, decide_eq_true_eq]
  unfold wrap64 registerSize
  split <;> omega

theorem decided_iff : bar.Decided index ↔
    (bar.isInRange registerSize (registerOffset index) = true ↔ bar.Inside index) := by
  by_cases h : 0 ≤ index
  · rw [isInRange_of_nonneg haddress hlo hhi h, Decided, if_pos h, Inside]
    omega
  · rw [isInRange_of_neg haddress hlo hhi (by omega), Decided, if_neg h, Inside]
    split <;> omega

omit hlo in
theorem getOffsetAddress_eq (h : bar.Inside index) :
    bar.getOffsetAddress (registerOffset index) = bar.registerAddress index := by
  obtain ⟨h0, hin⟩ := h
  rw [registerOffset_of_nonneg h0 hhi]
  unfold getOffsetAddress registerAddress wrap64
  omega

/-- **A BAR access is exact exactly when the check decides it.** -/
theorem rangeExact_iff : bar.RangeExact index ↔ bar.Decided index := by
  rw [decided_iff haddress hlo hhi]
  constructor
  · rintro ⟨hread, -⟩
    have hread := hread fun _ => 0
    constructor
    · intro hrange
      by_contra hout
      obtain ⟨⟨e, he⟩, -⟩ := (if_neg hout).mp hread
      rw [readRegister, barRead_of_inRange hrange] at he
      cases he
    · intro hin
      rw [if_pos hin] at hread
      by_contra hrange
      obtain ⟨⟨e, he⟩, -⟩ := barRead_refused (m := fun _ => 0) (Bool.eq_false_iff.2 hrange)
      rw [← readRegister, hread] at he
      cases he
  · intro h
    constructor
    · intro m
      split
      · rename_i hin
        rw [readRegister, barRead_of_inRange (h.2 hin), getOffsetAddress_eq haddress hhi hin]
        rfl
      · rename_i hout
        exact barRead_refused (Bool.eq_false_iff.2 fun hrange => hout (h.1 hrange))
    · intro m value
      split
      · rename_i hin
        rw [writeRegister, barWrite_of_inRange (h.2 hin), getOffsetAddress_eq haddress hhi hin]
        rfl
      · rename_i hout
        exact barWrite_refused (Bool.eq_false_iff.2 fun hrange => hout (h.1 hrange))

omit haddress hlo hhi

/-- A BAR of one page, at an address as `mmap` gives it. -/
def pageBar : PdaBar := ⟨4096, 0x7f0000000000⟩

theorem rangeExact_iff_pageBar : pageBar.RangeExact 10 ↔ pageBar.Decided 10 :=
  rangeExact_iff (by decide) (by decide) (by decide)

/-- The last register of the BAR is refused, and index -1 reads the four bytes before the mapping. -/
theorem pageBar_not_rangeExact : ¬ pageBar.RangeExact 1023 ∧ ¬ pageBar.RangeExact (-1) :=
  ⟨fun h => absurd ((if_pos (by decide)).mp (h.read fun _ => 0)) fun he => by
    have hrefused : (pageBar.readRegister (fun _ => 0) 1023).touched = [] := by decide
    rw [he] at hrefused
    exact absurd hrefused (by decide),
   fun h => by
    have htouched : (pageBar.readRegister (fun _ => 0) (-1)).touched = copied (0x7f0000000000 - 4) 4 := by decide
    obtain ⟨-, hnone, -⟩ := (if_neg (by decide)).mp (h.read fun _ => 0)
    rw [htouched] at hnone
    exact absurd hnone (by decide)⟩

/-! ## Registers and their values -/

theorem readRegister_writeRegister {value : UInt32} (h : bar.isInRange registerSize (registerOffset index) = true) :
    (bar.readRegister (bar.writeRegister m index value).memory index).result = .ok value := by
  have hle : leNat (leBytes 4 value.toNat) = value.toNat := leNat_leBytes_of_lt value.toNat_lt
  have hload := ByteMemory.load_store (m := m) (a := bar.getOffsetAddress (registerOffset index))
    (leBytes registerSize value.toNat)
  rw [length_leBytes] at hload
  rw [writeRegister, barWrite_of_inRange h, readRegister, barRead_of_inRange h, hload, registerSize, hle,
    UInt32.ofNat_toNat]

theorem writeRegister_frame {value : UInt32} {other : Int} (haddress : bar.mUserspaceAddress + bar.mBarLength < 2 ^ 64)
    (hin : bar.Inside index) (hother : bar.Inside other) (hhi : index < 2 ^ 31) (hne : other ≠ index) :
    (bar.writeRegister m index value).memory.load (bar.registerAddress other) 4 =
      m.load (bar.registerAddress other) 4 := by
  cases h : bar.isInRange registerSize (registerOffset index) with
  | false =>
    obtain ⟨-, -, hmem⟩ := @barWrite_refused bar m _ value h
    rw [writeRegister, hmem]
  | true =>
    rw [writeRegister, barWrite_of_inRange h, getOffsetAddress_eq haddress hhi hin]
    apply ByteMemory.load_store_apart
    have := hin.1
    have := hother.1
    simp only [length_leBytes, registerAddress, registerSize]
    omega

end PdaBar
end Pda
end Rorc
end Flp
