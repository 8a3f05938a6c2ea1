import FlpPrototype.Lib.Bytes
import Mathlib.Data.List.TakeWhile
/-!
# CString — NUL-terminated strings

`cStr` is what the string functions see of some bytes: those before the first NUL.  A `CString` is a string they see
whole, the terminator left out.
-/
namespace Flp

/-- The bytes before the first NUL. -/
def cStr (b : Bytes) : Bytes := b.takeWhile (fun c => decide (c ≠ 0))

/-- A string, without its terminator. -/
abbrev CString := {s : Bytes // 0 ∉ s}

theorem CString.ne_zero {s : CString} {c : UInt8} (h : c ∈ s.1) : c ≠ 0 := by
  rintro rfl
  exact s.2 h

theorem zero_not_mem_cStr (b : Bytes) : 0 ∉ cStr b := fun h => by simpa using List.mem_takeWhile_imp h

/-- The string at the beginning of some bytes. -/
def CString.at (b : Bytes) : CString := ⟨cStr b, zero_not_mem_cStr b⟩

theorem cStr_eq_self {b : Bytes} (h : 0 ∉ b) : cStr b = b :=
  List.takeWhile_eq_self_iff.2 (fun y hy => by simpa using fun e : y = 0 => h (by rw [← e]; exact hy))

theorem cStr_append_nul {b : Bytes} (h : 0 ∉ b) (rest : Bytes) : cStr (b ++ 0 :: rest) = b := by
  rw [cStr, List.takeWhile_append_of_pos (fun y hy => by simpa using fun e : y = 0 => h (by rw [← e]; exact hy))]
  simp

theorem length_cStr_le (b : Bytes) : (cStr b).length ≤ b.length := (List.takeWhile_prefix _).length_le

def newline : UInt8 := 10

/-- `strchr`, as an offset. -/
def strchr (s : Bytes) (c : UInt8) : Option Nat := s.findIdx? (fun x => decide (x = c))

theorem strchr_eq_none {s : Bytes} {c : UInt8} : strchr s c = none ↔ c ∉ s := by
  simp only [strchr, List.findIdx?_eq_none_iff, decide_eq_false_iff_not]
  exact ⟨fun h hc => h c hc rfl, fun h x hx e => h (e ▸ hx)⟩

theorem strchr_eq_some {s : Bytes} {c : UInt8} {e : Nat} (h : strchr s c = some e) :
    s = s.take e ++ c :: s.drop (e + 1) ∧ c ∉ s.take e ∧ (s.take e).length = e := by
  obtain ⟨hlt, hc, hbefore⟩ := List.findIdx?_eq_some_iff_getElem.1 h
  refine ⟨?_, fun hm => ?_, List.length_take_of_le (Nat.le_of_lt hlt)⟩
  · have hdrop := List.drop_eq_getElem_cons hlt
    rw [of_decide_eq_true hc] at hdrop
    rw [← hdrop, List.take_append_drop]
  · obtain ⟨j, hj, hjc⟩ := List.getElem_of_mem hm
    have hje : j < e := by rw [List.length_take] at hj; omega
    exact hbefore j hje (by rw [List.getElem_take] at hjc; exact decide_eq_true hjc)

theorem strchr_append {l : Bytes} {c : UInt8} (h : c ∉ l) (rest : Bytes) :
    strchr (l ++ c :: rest) c = some l.length := by
  have hl : strchr l c = none := strchr_eq_none.2 h
  unfold strchr at hl ⊢
  rw [List.findIdx?_append, hl]
  simp [List.findIdx?_cons]

/-- The string from a byte on. -/
def CString.drop (s : CString) (n : Nat) : CString := ⟨s.1.drop n, fun h => s.2 (List.mem_of_mem_drop h)⟩

/-- The string cut off before a byte. -/
def CString.take (s : CString) (n : Nat) : CString := ⟨s.1.take n, fun h => s.2 (List.mem_of_mem_take h)⟩

theorem CString.length_drop_lt {s : CString} {c : UInt8} {e : Nat} (h : strchr s.1 c = some e) :
    (s.drop (e + 1)).1.length < s.1.length := by
  obtain ⟨hs, -, -⟩ := strchr_eq_some h
  have hlen := congrArg List.length hs
  simp only [List.length_append, List.length_cons, List.length_drop, CString.drop] at hlen ⊢
  omega

theorem CString.at_coe (s : CString) : CString.at s.1 = s := Subtype.ext (cStr_eq_self s.2)

/-- An ASCII text as bytes. -/
def ascii (cs : List Char) : Bytes := cs.map (fun c => UInt8.ofNat c.toNat)

end Flp
