import Mathlib.Data.Nat.Notation
import Mathlib.Tactic.Ring
/-!
# Bytes — little-endian numbers and open files

Two things a file format rests on.  A number of `w` bytes is written least significant byte first (`leBytes`) and read
back modulo `256 ^ w` (`leNat_leBytes`).  An open file is its content and a position (`Fd`): reading takes what is
left, writing overwrites or extends, seeking may go past the end.  The laws say what each operation does on a content
written as `before ++ here ++ after`, which is how a record format is proved.
-/
namespace Flp

abbrev Bytes := List UInt8

/-! ## Little-endian numbers -/

def leBytes : Nat → Nat → Bytes
  | 0, _     => []
  | w + 1, n => UInt8.ofNat n :: leBytes w (n / 256)

def leNat : Bytes → Nat
  | []      => 0
  | b :: bs => b.toNat + 256 * leNat bs

@[simp] theorem length_leBytes : ∀ (w n : Nat), (leBytes w n).length = w
  | 0, _     => rfl
  | w + 1, n => by rw [leBytes, List.length_cons, length_leBytes w]

theorem leNat_leBytes : ∀ (w n : Nat), leNat (leBytes w n) = n % 256 ^ w
  | 0, n => by simp [leBytes, leNat, Nat.mod_one]
  | w + 1, n => by
    have hb : (UInt8.ofNat n).toNat = n % 256 := UInt8.toNat_ofNat'
    rw [leBytes, leNat, leNat_leBytes w, hb, Nat.pow_succ', Nat.mod_mul]

theorem leNat_leBytes_of_lt {w n : Nat} (h : n < 256 ^ w) : leNat (leBytes w n) = n := by
  rw [leNat_leBytes, Nat.mod_eq_of_lt h]

/-! ## Open files -/

/-- An open file: the content and the offset of the descriptor. -/
structure Fd where
  content : Bytes
  pos : Nat
  deriving DecidableEq, Repr

namespace Fd

/-- `read`: at most `n` bytes from the position on; nothing at or past the end. -/
def read (fd : Fd) (n : Nat) : Bytes × Fd :=
  ((fd.content.drop fd.pos).take n, { fd with pos := fd.pos + ((fd.content.drop fd.pos).take n).length })

/-- The content after writing `b` at `pos`; a gap before it is filled with zeros. -/
def overwrite (content : Bytes) (pos : Nat) (b : Bytes) : Bytes :=
  content.take pos ++ List.replicate (pos - content.length) 0 ++ b ++ content.drop (pos + b.length)

/-- `write`: all of `b` at the position. -/
def write (fd : Fd) (b : Bytes) : Fd := ⟨overwrite fd.content fd.pos b, fd.pos + b.length⟩

/-- `lseek` from the current position; a negative result is refused. -/
def lseekCur (fd : Fd) (d : Int) : Option Fd :=
  if 0 ≤ (fd.pos : Int) + d then some { fd with pos := ((fd.pos : Int) + d).toNat } else none

/-- A descriptor standing between what is before it and what is after it. -/
def between (before after : Bytes) : Fd := ⟨before ++ after, before.length⟩

theorem read_between {b : Bytes} {n : Nat} (before after : Bytes) (h : b.length = n) :
    (between before (b ++ after)).read n = (b, between (before ++ b) after) := by
  subst h
  simp [read, between]

theorem read_between_short {b : Bytes} {n : Nat} (before : Bytes) (h : b.length ≤ n) :
    (between before b).read n = (b, between (before ++ b) []) := by
  simp [read, between, List.take_of_length_le h]

theorem lseekCur_forward (before b after : Bytes) :
    (between before (b ++ after)).lseekCur b.length = some (between (before ++ b) after) := by
  unfold lseekCur between
  rw [if_pos (by simp only; omega)]
  congr 1
  simp only [List.append_assoc, List.length_append, Fd.mk.injEq, true_and]
  omega

theorem lseekCur_back (before b after : Bytes) :
    (between (before ++ b) after).lseekCur (-(b.length : Int)) = some (between before (b ++ after)) := by
  unfold lseekCur between
  rw [if_pos (by simp only [List.length_append]; omega)]
  congr 1
  simp only [List.append_assoc, List.length_append, Fd.mk.injEq, true_and]
  omega

theorem overwrite_zero {b b' : Bytes} (after : Bytes) (h : b'.length = b.length) :
    overwrite (b ++ after) 0 b' = b' ++ after := by
  simp [overwrite, h]

end Fd

/-! ## Directories -/

/-- A directory: the content of each file name that exists. -/
abbrev Dir (ν : Type) := ν → Option Bytes

/-- The operations that change a directory or a file in it, each atomic. -/
inductive FsOp (ν : Type) where
  | creat (n : ν)
  | write (n : ν) (pos : Nat) (b : Bytes)
  | append (n : ν) (b : Bytes)
  | rename (a b : ν)
  | unlink (n : ν)
  deriving DecidableEq, Repr

/-- The names an operation may change. -/
def FsOp.names {ν : Type} : FsOp ν → List ν
  | .creat n     => [n]
  | .write n _ _ => [n]
  | .append n _  => [n]
  | .rename a b  => [a, b]
  | .unlink n    => [n]

namespace Dir

variable {ν : Type} [DecidableEq ν]

def set (d : Dir ν) (n : ν) (c : Option Bytes) : Dir ν := fun m => if m = n then c else d m

@[simp] theorem set_self (d : Dir ν) (n : ν) (c : Option Bytes) : d.set n c n = c := by simp [set]

@[simp] theorem set_ne (d : Dir ν) {n m : ν} (c : Option Bytes) (h : m ≠ n) : d.set n c m = d m := by simp [set, h]

theorem set_set (d : Dir ν) (n : ν) (c c' : Option Bytes) : (d.set n c).set n c' = d.set n c' := by
  funext m
  by_cases h : m = n <;> simp [set, h]

def apply (d : Dir ν) : FsOp ν → Dir ν
  | .creat n      => d.set n (some [])
  | .write n p b  => d.set n ((d n).map (fun c => Fd.overwrite c p b))
  | .append n b   => d.set n ((d n).map (fun c => c ++ b))
  | .rename a b   => if (d a).isSome then (d.set b (d a)).set a none else d
  | .unlink n     => d.set n none

/-- The directory after a sequence of operations. -/
def applyAll (d : Dir ν) (ops : List (FsOp ν)) : Dir ν := ops.foldl apply d

@[simp] theorem applyAll_nil (d : Dir ν) : d.applyAll [] = d := rfl

@[simp] theorem applyAll_cons (d : Dir ν) (op : FsOp ν) (ops : List (FsOp ν)) :
    d.applyAll (op :: ops) = (d.apply op).applyAll ops := rfl

theorem applyAll_append (d : Dir ν) (xs ys : List (FsOp ν)) :
    d.applyAll (xs ++ ys) = (d.applyAll xs).applyAll ys := List.foldl_append

theorem apply_of_not_mem {d : Dir ν} {op : FsOp ν} {n : ν} (h : n ∉ op.names) : d.apply op n = d n := by
  cases op with
  | creat m => simp_all [apply, FsOp.names]
  | write m p b => simp_all [apply, FsOp.names]
  | append m b => simp_all [apply, FsOp.names]
  | unlink m => simp_all [apply, FsOp.names]
  | rename a b =>
    simp only [FsOp.names, List.mem_cons, List.not_mem_nil, or_false, not_or] at h
    simp only [apply]
    split
    · rw [set_ne _ _ h.1, set_ne _ _ h.2]
    · rfl

theorem applyAll_of_not_mem {n : ν} : ∀ (ops : List (FsOp ν)) (d : Dir ν), (∀ op ∈ ops, n ∉ op.names) →
    d.applyAll ops n = d n
  | [], _, _ => rfl
  | op :: ops, d, h => by
    rw [applyAll_cons, applyAll_of_not_mem ops _ (fun o ho => h o (List.mem_cons_of_mem _ ho)),
      apply_of_not_mem (h op List.mem_cons_self)]

theorem applyAll_appends (n : ν) : ∀ (chunks : List Bytes) (d : Dir ν) (c : Bytes), d n = some c →
    d.applyAll (chunks.map (FsOp.append n)) = d.set n (some (c ++ chunks.flatten))
  | [], d, c, h => by
    funext m
    by_cases hm : m = n
    · subst hm; simp [h]
    · simp [hm]
  | b :: chunks, d, c, h => by
    rw [List.map_cons, applyAll_cons]
    have hd : d.apply (.append n b) = d.set n (some (c ++ b)) := by simp [apply, h]
    rw [hd, applyAll_appends n chunks _ (c ++ b) (by simp), set_set]
    simp

end Dir
end Flp
