import FlpPrototype.Common.Fifo
import Mathlib.Data.Nat.ModEq
/-!
# FifoRuns — what a writer and a reader may rely on

Both indices are counts, reduced by the number of slots: `indexEnd` counts the items pushed, `indexStart` the items
taken (an item being taken counts before `pop` returns it).  Item `k` sits in slot `k + 1`.  The two counts are never
more than `size` apart, so the writer's next slot is never one the reader is at: it would have to lie a whole turn
ahead.
-/
namespace Flp
namespace Common

variable {α : Type} {size : Nat} {zero : α} {s s' : Fifo α}

/-! ## Counts and indices -/

theorem mod_ne {a b : Nat} (h : a < b) (h' : b ≤ a + size) : a % (size + 1) ≠ b % (size + 1) := by
  intro he
  have hd := Nat.sub_mod_eq_zero_of_mod_eq he.symm
  rw [Nat.mod_eq_of_lt (by omega)] at hd
  omega

theorem add_mod_turn (a d : Nat) (hd : d ≤ size) : (a + d) % (size + 1) =
    if size + 1 ≤ a % (size + 1) + d then a % (size + 1) + d - (size + 1) else a % (size + 1) + d := by
  rw [Nat.add_mod_eq_ite, Nat.mod_eq_of_lt (Nat.lt_succ_of_le hd)]

theorem next_mod (hsize : size < intMax) (k : Nat) : next size (k % (size + 1)) = some ((k + 1) % (size + 1)) := by
  have hlt : k % (size + 1) < size + 1 := Nat.mod_lt k (Nat.succ_pos size)
  rw [next, intAdd_of_le (by omega), Option.map_some, ← Nat.mod_add_mod]
  by_cases hk : k % (size + 1) + 1 > size
  · rw [if_pos hk, show k % (size + 1) + 1 = size + 1 by omega, Nat.mod_self]
  · have hlt' : k % (size + 1) + 1 < size + 1 := by omega
    rw [if_neg hk, Nat.mod_eq_of_lt hlt']

/-- **The free slots the two indices show** are the free slots. -/
theorem numberOfFreeSlots_mod {taken pushed : Nat} (h : taken ≤ pushed) (h' : pushed ≤ taken + size) :
    numberOfFreeSlots size (pushed % (size + 1)) (taken % (size + 1)) = (taken + size - pushed : Nat) := by
  obtain ⟨d, rfl⟩ := Nat.exists_eq_add_of_le h
  have hlt := Nat.mod_lt taken (Nat.succ_pos size)
  have hmod := @add_mod_turn size taken d (by omega)
  unfold numberOfFreeSlots
  by_cases hge : size + 1 ≤ taken % (size + 1) + d
  · rw [if_pos hge] at hmod
    rw [if_neg (by omega)]
    omega
  · rw [if_neg hge] at hmod
    rw [if_pos (by omega)]
    omega

/-! ## The invariant -/

/-- The items whose slot the reader has published, less those it has returned. -/
def Reader.published : Reader α → Nat
  | .popRead | .popReadSlot _ | .popReset _ | .popResetSlot _ _ => 1
  | _                                                           => 0

def Fifo.taken (s : Fifo α) : Nat := s.popped.length + s.reader.published

/-- What the writer knows between its accesses, `P` items pushed and `t` taken. -/
def Writer.Knows (size P t : Nat) (data : List α) : Writer α → Prop
  | .pushStart _ new    => new = (P + 1) % (size + 1)
  | .pushData _ new     => new = (P + 1) % (size + 1) ∧ P < t + size
  | .pushStore item new => new = (P + 1) % (size + 1) ∧ P < t + size ∧ data[new]? = some item
  | .fullStart e        => e = P % (size + 1) + 1
  | .fullEndAgain       => P % (size + 1) + 1 ≤ size → P < t + size
  | .fullStartAgain     => P % (size + 1) = size
  | .freeStart i1       => i1 = P % (size + 1)
  | _                   => True

/-- A value the reader loaded from `indexEnd`, when `P₀` items were pushed. -/
def Loaded (size c P e o : Nat) : Prop :=
  ∃ P₀, c ≤ P₀ ∧ P₀ ≤ P ∧ P₀ ≤ c + size ∧ e = P₀ % (size + 1) ∧ o ≤ P₀ - c

/-- What the reader knows between its accesses, `c` items returned and `o` more promised. -/
def Reader.Knows (size c o : Nat) (pushed data : List α) : Reader α → Prop
  | .emptyStart _ e       => Loaded size c pushed.length e o
  | .popStart             => c < pushed.length
  | .popStore new         => new = (c + 1) % (size + 1) ∧ c < pushed.length
  | .popRead              => data[(c + 1) % (size + 1)]? = pushed[c]?
  | .popReadSlot ix       => ix = (c + 1) % (size + 1) ∧ data[ix]? = pushed[c]?
  | .popReset item        => pushed[c]? = some item
  | .popResetSlot item ix => ix = (c + 1) % (size + 1) ∧ pushed[c]? = some item
  | .frontStart           => c < pushed.length
  | .frontSlot ix         => ix = (c + 1) % (size + 1) ∧ c < pushed.length
  | .usedStart i1         => Loaded size c pushed.length i1 0
  | _                     => True

structure Inv (size : Nat) (s : Fifo α) : Prop where
  length : s.data.length = size + 1
  ends : s.indexEnd = s.pushed.length % (size + 1)
  starts : s.indexStart = s.taken % (size + 1)
  taken_le : s.taken ≤ s.pushed.length
  room : s.pushed.length ≤ s.taken + size
  popped : s.popped = s.pushed.take s.popped.length
  filled : ∀ k, s.taken ≤ k → k < s.pushed.length → s.data[(k + 1) % (size + 1)]? = s.pushed[k]?
  writer : s.writer.Knows size s.pushed.length s.taken s.data
  reader : s.reader.Knows size s.popped.length (owed s.read) s.pushed s.data
  nIn : s.nIn = UInt64.ofNat s.pushed.length
  nOut : s.nOut = UInt64.ofNat s.popped.length
  owed_written : owed s.written ≤ s.taken + size - s.pushed.length
  owed_read : owed s.read ≤ s.pushed.length - s.popped.length
  written : ∀ pre rest, s.written = pre ++ .refused :: rest → owed pre = 0
  read : ∀ pre rest, s.read = pre ++ .refused :: rest → owed pre = 0

theorem inv_create (hsize : size < intMax) (blank : α) : ∃ s, Fifo.create size blank = some s ∧ Inv size s := by
  refine ⟨_, by rw [Fifo.create, intAdd_of_le (by omega), Option.map_some], ?_⟩
  exact ⟨by simp, rfl, rfl, Nat.le_refl _, Nat.zero_le _, rfl, fun k _ h => absurd h (Nat.not_lt_zero k), trivial,
    trivial, rfl, rfl, Nat.zero_le _, Nat.zero_le _, fun pre rest h => by simp at h, fun pre rest h => by simp at h⟩

/-! ## Steps that move one side only -/

theorem Inv.writer_moves (hi : Inv size s) {w : Writer α} {seen : List Seen}
    (hw : w.Knows size s.pushed.length s.taken s.data) (ho : owed seen ≤ s.taken + size - s.pushed.length)
    (hs : ∀ pre rest, seen = pre ++ .refused :: rest → owed pre = 0) :
    Inv size { s with writer := w, written := seen } :=
  { hi with writer := hw, owed_written := ho, written := hs }

theorem Inv.reader_moves (hi : Inv size s) {r : Reader α} {seen : List Seen} (hp : r.published = s.reader.published)
    (hr : r.Knows size s.popped.length (owed seen) s.pushed s.data)
    (ho : owed seen ≤ s.pushed.length - s.popped.length)
    (hs : ∀ pre rest, seen = pre ++ .refused :: rest → owed pre = 0) :
    Inv size { s with reader := r, read := seen } := by
  have ht : Fifo.taken { s with reader := r, read := seen } = s.taken := by
    simp only [Fifo.taken, hp]
  exact ⟨hi.length, hi.ends, by rw [ht]; exact hi.starts, by rw [ht]; exact hi.taken_le, by rw [ht]; exact hi.room,
    hi.popped, by rw [ht]; exact hi.filled, by rw [ht]; exact hi.writer, hr, hi.nIn, hi.nOut,
    by rw [ht]; exact hi.owed_written, ho, hi.written, hs⟩

/-! ## The writer's steps -/

/-- A push is refused, a function answers "full", only when no slot is free. -/
theorem Inv.no_room (hi : Inv size s) (h : (s.pushed.length + 1) % (size + 1) = s.indexStart) :
    s.pushed.length = s.taken + size := by
  have hle := hi.taken_le
  have hroom := hi.room
  rcases Nat.lt_or_ge s.pushed.length (s.taken + size) with hlt | hge
  · exact absurd (hi.starts ▸ h).symm (mod_ne (by omega) (by omega))
  · omega

/-- With no free slot the writer's next index is `indexStart`. -/
theorem Inv.room_of_ne (hi : Inv size s) (h : (s.pushed.length + 1) % (size + 1) ≠ s.indexStart) :
    s.pushed.length < s.taken + size := by
  rcases Nat.lt_or_ge s.pushed.length (s.taken + size) with hlt | hge
  · exact hlt
  · have heq : s.pushed.length + 1 = s.taken + (size + 1) := by have := hi.room; omega
    rw [heq, Nat.add_mod_right, ← hi.starts] at h
    exact absurd rfl h

theorem succ_mod_of_le {k : Nat} (h : k % (size + 1) + 1 ≤ size) : (k + 1) % (size + 1) = k % (size + 1) + 1 := by
  rw [← Nat.mod_add_mod, Nat.mod_eq_of_lt (by omega)]

theorem succ_mod_of_eq {k : Nat} (h : k % (size + 1) = size) : (k + 1) % (size + 1) = 0 := by
  rw [← Nat.mod_add_mod, h, Nat.mod_self]

theorem Reader.Knows.of_write {r : Reader α} {c o : Nat} {pushed data : List α} {ix : Nat} {x : α}
    (h : r.Knows size c o pushed data) (hne : c < pushed.length → ix ≠ (c + 1) % (size + 1))
    (hc : r.published = 1 → c < pushed.length) : r.Knows size c o pushed (data.set ix x) := by
  cases r with
  | popRead => exact (List.getElem?_set_ne (hne (hc rfl))).trans h
  | popReadSlot jx =>
    obtain ⟨rfl, h⟩ := h
    exact ⟨rfl, (List.getElem?_set_ne (hne (hc rfl))).trans h⟩
  | _ => exact h

theorem Reader.Knows.of_push {r : Reader α} {c o : Nat} {pushed data : List α} {x : α}
    (h : r.Knows size c o pushed data) (hc : r.published = 1 → c < pushed.length) :
    r.Knows size c o (pushed ++ [x]) data := by
  have hlen : (pushed ++ [x]).length = pushed.length + 1 := by simp
  cases r with
  | emptyStart k e =>
    obtain ⟨P₀, h₁, h₂, h₃, h₄, h₅⟩ := h
    exact ⟨P₀, h₁, by omega, h₃, h₄, h₅⟩
  | usedStart i1 =>
    obtain ⟨P₀, h₁, h₂, h₃, h₄, h₅⟩ := h
    exact ⟨P₀, h₁, by omega, h₃, h₄, h₅⟩
  | popStart => exact Nat.lt_of_lt_of_le h (by omega)
  | popStore new => exact ⟨h.1, Nat.lt_of_lt_of_le h.2 (by omega)⟩
  | frontStart => exact Nat.lt_of_lt_of_le h (by omega)
  | frontSlot ix => exact ⟨h.1, Nat.lt_of_lt_of_le h.2 (by omega)⟩
  | popRead => exact Eq.trans h (List.getElem?_append_left (hc rfl)).symm
  | popReadSlot ix => exact ⟨h.1, h.2.trans (List.getElem?_append_left (hc rfl)).symm⟩
  | popReset item => exact Eq.trans (List.getElem?_append_left (hc rfl)) h
  | popResetSlot item ix => exact ⟨h.1, (List.getElem?_append_left (hc rfl)).trans h.2⟩
  | _ => trivial

theorem Inv.popped_lt (hi : Inv size s) (h : s.reader.published = 1) : s.popped.length < s.pushed.length := by
  have := hi.taken_le
  rw [Fifo.taken, h] at this
  omega

theorem Inv.popped_le (hi : Inv size s) : s.popped.length ≤ s.pushed.length :=
  Nat.le_trans (Nat.le_add_right _ _) hi.taken_le

theorem Reader.published_le (r : Reader α) : r.published ≤ 1 := by
  cases r <;> simp [published]

/-- **The writer's slot is not the reader's**: it lies less than a turn behind it. -/
theorem slot_ne (hroom : s.pushed.length < s.taken + size)
    (hc : s.popped.length < s.pushed.length) :
    (s.pushed.length + 1) % (size + 1) ≠ (s.popped.length + 1) % (size + 1) := by
  have := s.reader.published_le
  rw [Fifo.taken] at hroom
  exact (mod_ne (by omega) (by omega)).symm

/-- **The slot is written**: it is none of those filled. -/
theorem Inv.write {item : α} {new : Nat} (hi : Inv size s) (hpc : s.writer = .pushData item new) :
    new < s.data.length ∧ Inv size { s with data := s.data.set new item, writer := .pushStore item new } := by
  have hk := hi.writer
  rw [hpc] at hk
  obtain ⟨rfl, hroom⟩ := hk
  have hin : (s.pushed.length + 1) % (size + 1) < s.data.length := by
    rw [hi.length]
    exact Nat.mod_lt _ (Nat.succ_pos size)
  have hother : ∀ k, s.taken ≤ k → k < s.pushed.length →
      (s.pushed.length + 1) % (size + 1) ≠ (k + 1) % (size + 1) := fun k hle hlt =>
    (mod_ne (by omega) (by omega)).symm
  refine ⟨hin, { hi with
    length := (List.length_set ..).trans hi.length
    filled := fun k hle hlt => (List.getElem?_set_ne (hother k hle hlt)).trans (hi.filled k hle hlt)
    writer := ⟨rfl, hroom, List.getElem?_set_self hin⟩
    reader := hi.reader.of_write (slot_ne hroom) hi.popped_lt }⟩

/-- **The item is published.** -/
theorem Inv.publish {item : α} {new : Nat} (hi : Inv size s) (hpc : s.writer = .pushStore item new) :
    Inv size { s with
      indexEnd := new, nIn := s.nIn + 1, pushed := s.pushed ++ [item], writer := .idle,
      written := s.written ++ [.done] } := by
  have hk := hi.writer
  rw [hpc] at hk
  obtain ⟨rfl, hroom, hdata⟩ := hk
  have hlen : (s.pushed ++ [item]).length = s.pushed.length + 1 := by simp
  have hle := hi.taken_le
  have hread := hi.owed_read
  have hwritten := hi.owed_written
  have htaken : s.popped.length ≤ s.taken := Nat.le_add_right _ _
  refine ⟨hi.length, by rw [hlen], hi.starts, ?_, ?_, ?_, fun k hk hlt => ?_, trivial,
    hi.reader.of_push hi.popped_lt, ?_, hi.nOut, ?_, ?_, owed_append_singleton hi.written (fun h => by cases h),
      hi.read⟩
  · rw [hlen]
    exact Nat.le_succ_of_le hle
  · rw [hlen]
    exact hroom
  · exact hi.popped.trans (List.take_append_of_le_length hi.popped_le).symm
  · rw [hlen] at hlt
    obtain hlt | rfl := Nat.lt_succ_iff_lt_or_eq.1 hlt
    · exact (hi.filled k hk hlt).trans (List.getElem?_append_left hlt).symm
    · simpa using hdata
  · simp [hi.nIn]
  · rw [owed_done, hlen]
    exact Nat.sub_le_of_le_add (by simp only [Fifo.taken] at hwritten hroom ⊢; omega)
  · rw [hlen]
    exact Nat.le_trans hread (Nat.sub_le_sub_right (Nat.le_succ _) _)

/-- **Every step of the writer** has a result and keeps the invariant. -/
theorem inv_stepWriter (hsize : size < intMax) (hi : Inv size s) (hw : s.writer.isIdle = false) :
    ∃ s', stepWriter size s = some s' ∧ Inv size s' := by
  have hk := hi.writer
  have hlt : s.pushed.length % (size + 1) < size + 1 := Nat.mod_lt _ (Nat.succ_pos size)
  have hnext : next size s.indexEnd = some ((s.pushed.length + 1) % (size + 1)) := by
    rw [hi.ends, next_mod hsize]
  have hadd : intAdd s.indexEnd 1 = some (s.pushed.length % (size + 1) + 1) := by
    rw [hi.ends, intAdd_of_le (by omega)]
  unfold stepWriter
  cases hpc : s.writer with
  | idle =>
    rw [hpc] at hw
    cases hw
  | pushEnd item =>
    refine ⟨{ s with writer := .pushStart item ((s.pushed.length + 1) % (size + 1)) }, ?_, ?_⟩
    · simp only [hnext, Option.map_some]
    · exact hi.writer_moves rfl hi.owed_written hi.written
  | pushStart item new =>
    rw [hpc] at hk
    obtain rfl : new = _ := hk
    by_cases hfull : (s.pushed.length + 1) % (size + 1) = s.indexStart
    · have h0 : owed s.written = 0 := by
        have := hi.owed_written
        rw [hi.no_room hfull] at this
        omega
      refine ⟨_, if_pos hfull, hi.writer_moves trivial ?_ (owed_append_singleton hi.written fun _ => h0)⟩
      rw [owed_refused, h0]
      exact Nat.zero_le _
    · exact ⟨_, if_neg hfull, hi.writer_moves ⟨rfl, hi.room_of_ne hfull⟩ hi.owed_written hi.written⟩
  | pushData item new =>
    obtain ⟨hin, hi'⟩ := hi.write hpc
    exact ⟨_, if_pos hin, hi'⟩
  | pushStore item new => exact ⟨_, rfl, hi.publish hpc⟩
  | fullEnd =>
    refine ⟨{ s with writer := .fullStart (s.pushed.length % (size + 1) + 1) }, ?_, ?_⟩
    · simp only [hadd, Option.map_some]
    · exact hi.writer_moves rfl hi.owed_written hi.written
  | fullStart e =>
    rw [hpc] at hk
    obtain rfl : e = _ := hk
    by_cases hfull : s.pushed.length % (size + 1) + 1 = s.indexStart
    · refine ⟨_, if_pos hfull, hi.writer_moves trivial ?_ (owed_append_singleton hi.written fun h => by cases h)⟩
      simpa using hi.owed_written
    · refine ⟨_, if_neg hfull, hi.writer_moves (fun hle => ?_) hi.owed_written hi.written⟩
      exact hi.room_of_ne (by rwa [succ_mod_of_le hle])
  | fullEndAgain =>
    rw [hpc] at hk
    by_cases hgt : s.pushed.length % (size + 1) + 1 > size
    · refine ⟨{ s with writer := .fullStartAgain }, by simp only [hadd, Option.map_some, if_pos hgt], ?_⟩
      exact hi.writer_moves (by simp only [Writer.Knows]; omega) hi.owed_written hi.written
    · have hroom := hk (Nat.le_of_not_lt hgt)
      refine ⟨s.writerSees (.room 1), by simp only [hadd, Option.map_some, if_neg hgt], ?_⟩
      refine hi.writer_moves trivial ?_ (owed_append_singleton hi.written fun h => by cases h)
      have := hi.owed_written
      rw [owed_room]
      omega
  | fullStartAgain =>
    rw [hpc] at hk
    by_cases h0 : s.indexStart = 0
    · refine ⟨_, if_pos h0, hi.writer_moves trivial ?_ (owed_append_singleton hi.written fun h => by cases h)⟩
      simpa using hi.owed_written
    · have hroom := hi.room_of_ne (by rw [succ_mod_of_eq hk]; exact Ne.symm h0)
      refine ⟨_, if_neg h0, hi.writer_moves trivial ?_ (owed_append_singleton hi.written fun h => by cases h)⟩
      have := hi.owed_written
      rw [owed_room]
      omega
  | freeEnd => exact ⟨_, rfl, hi.writer_moves hi.ends hi.owed_written hi.written⟩
  | freeStart i1 =>
    rw [hpc] at hk
    obtain rfl : i1 = _ := hk
    refine ⟨_, rfl, hi.writer_moves trivial ?_ (owed_append_singleton hi.written fun h => by cases h)⟩
    have := hi.owed_written
    rw [owed_room, hi.starts, numberOfFreeSlots_mod hi.taken_le hi.room]
    omega

/-! ## The reader's steps -/

theorem Writer.Knows.of_take {w : Writer α} {P t t' : Nat} {data data' : List α} (h : w.Knows size P t data)
    (ht : t ≤ t') (hd : P < t + size → data'[(P + 1) % (size + 1)]? = data[(P + 1) % (size + 1)]?) :
    w.Knows size P t' data' := by
  cases w with
  | pushData item new => exact ⟨h.1, Nat.lt_of_lt_of_le h.2 (Nat.add_le_add_right ht _)⟩
  | pushStore item new =>
    obtain ⟨rfl, hroom, hdata⟩ := h
    exact ⟨rfl, Nat.lt_of_lt_of_le hroom (Nat.add_le_add_right ht _), (hd hroom).trans hdata⟩
  | fullEndAgain => exact fun hle => Nat.lt_of_lt_of_le (h hle) (Nat.add_le_add_right ht _)
  | _ => exact h

theorem Inv.loaded (hi : Inv size s) (hp : s.reader.published = 0) :
    Loaded size s.popped.length s.pushed.length s.indexEnd (owed s.read) := by
  have hroom := hi.room
  rw [Fifo.taken, hp] at hroom
  exact ⟨s.pushed.length, hi.popped_le, Nat.le_refl _, hroom, hi.ends, hi.owed_read⟩

theorem Inv.starts_idle (hi : Inv size s) (hp : s.reader.published = 0) :
    s.indexStart = s.popped.length % (size + 1) := by
  rw [hi.starts, Fifo.taken, hp, Nat.add_zero]

/-- An index loaded earlier that equals `indexStart` was loaded when there was nothing to take. -/
theorem Loaded.empty {c P e o : Nat} (h : Loaded size c P e o) (he : e = c % (size + 1)) : o = 0 := by
  obtain ⟨P₀, h₁, -, h₃, h₄, h₅⟩ := h
  rcases Nat.eq_or_lt_of_le h₁ with rfl | hlt
  · omega
  · exact absurd (h₄ ▸ he).symm (mod_ne hlt h₃)

theorem Loaded.lt {c P e o : Nat} (h : Loaded size c P e o) (he : e ≠ c % (size + 1)) : c < P := by
  obtain ⟨P₀, h₁, h₂, -, h₄, -⟩ := h
  refine Nat.lt_of_lt_of_le (Nat.lt_of_le_of_ne h₁ ?_) h₂
  rintro rfl
  exact he h₄

/-- **The reader looks** whether there is an item, with the `indexEnd` it has loaded. -/
theorem Inv.look {k : Caller} {e : Nat} (zero : α) (hi : Inv size s) (hpc : s.reader = .emptyStart k e) :
    ∃ s', stepReader size zero s = some s' ∧ Inv size s' := by
  have hp : s.reader.published = 0 := by rw [hpc]; rfl
  have hstart := hi.starts_idle hp
  have hk := hi.reader
  rw [hpc] at hk
  unfold stepReader
  rw [hpc]
  by_cases he : e = s.indexStart
  · have h0 : owed s.read = 0 := Loaded.empty hk (he.trans hstart)
    simp only [if_pos he]
    cases k with
    | pop =>
      refine ⟨_, rfl, hi.reader_moves hp.symm trivial ?_ (owed_append_singleton hi.read fun _ => h0)⟩
      rw [owed_refused, h0]
      exact Nat.zero_le _
    | front => exact ⟨_, rfl, hi.reader_moves hp.symm trivial hi.owed_read hi.read⟩
    | isEmpty =>
      refine ⟨_, rfl, hi.reader_moves hp.symm trivial ?_ (owed_append_singleton hi.read fun h => by cases h)⟩
      simpa using hi.owed_read
  · have hlt := Loaded.lt hk (hstart ▸ he)
    simp only [if_neg he]
    cases k with
    | pop => exact ⟨_, rfl, hi.reader_moves hp.symm hlt hi.owed_read hi.read⟩
    | front => exact ⟨_, rfl, hi.reader_moves hp.symm hlt hi.owed_read hi.read⟩
    | isEmpty =>
      refine ⟨_, rfl, hi.reader_moves hp.symm trivial ?_ (owed_append_singleton hi.read fun h => by cases h)⟩
      have := hi.owed_read
      rw [owed_room]
      omega

/-- **The item is taken.** -/
theorem Inv.take {new : Nat} (hi : Inv size s) (hpc : s.reader = .popStore new) :
    Inv size { s with indexStart := new, reader := .popRead } := by
  have hp : s.reader.published = 0 := by rw [hpc]; rfl
  have ht : s.taken = s.popped.length := by rw [Fifo.taken, hp, Nat.add_zero]
  have hk := hi.reader
  rw [hpc] at hk
  obtain ⟨rfl, hlt⟩ := hk
  have hroom := hi.room
  have hwritten := hi.owed_written
  have hwriter := hi.writer
  have hfilled := hi.filled
  rw [ht] at hroom hwritten hwriter hfilled
  refine ⟨hi.length, hi.ends, rfl, hlt, ?_, hi.popped, fun k hk => hfilled k (Nat.le_of_succ_le hk),
    hwriter.of_take (Nat.le_succ _) (fun _ => rfl), hfilled _ (Nat.le_refl _) hlt, hi.nIn, hi.nOut, ?_, hi.owed_read,
    hi.written, hi.read⟩
  · exact Nat.le_trans hroom (Nat.add_le_add_right (Nat.le_succ _) _)
  · exact Nat.le_trans hwritten (Nat.sub_le_sub_right (Nat.add_le_add_right (Nat.le_succ _) _) _)

/-- **The slot is reset**: it is neither filled nor the writer's. -/
theorem Inv.reset {item : α} {ix : Nat} (zero : α) (hi : Inv size s) (hpc : s.reader = .popResetSlot item ix) :
    ix < s.data.length ∧ Inv size { s with
      data := s.data.set ix zero, nOut := s.nOut + 1, popped := s.popped ++ [item], reader := .idle,
      read := s.read ++ [.done] } := by
  have hp : s.reader.published = 1 := by rw [hpc]; rfl
  have ht : s.taken = s.popped.length + 1 := by rw [Fifo.taken, hp]
  have hlt := hi.popped_lt hp
  have hk := hi.reader
  rw [hpc] at hk
  obtain ⟨rfl, hitem⟩ := hk
  have hin : (s.popped.length + 1) % (size + 1) < s.data.length := by
    rw [hi.length]
    exact Nat.mod_lt _ (Nat.succ_pos size)
  have hroom := hi.room
  have hlen : (s.popped ++ [item]).length = s.popped.length + 1 := by simp
  have ht' : s.taken = (s.popped ++ [item]).length + 0 := ht.trans hlen.symm
  -- the slot that is reset is a turn behind those still filled, and not the writer's
  have hother : ∀ k, s.taken ≤ k → k < s.pushed.length →
      (s.popped.length + 1) % (size + 1) ≠ (k + 1) % (size + 1) := fun k hle hlt =>
    mod_ne (by omega) (by omega)
  have hread := hi.owed_read
  refine ⟨hin, (List.length_set ..).trans hi.length, hi.ends, hi.starts.trans (by rw [ht']; rfl),
    ?_, ?_, ?_, fun k hle hlt => ?_, ?_, trivial, hi.nIn, ?_, ?_, ?_, hi.written,
    owed_append_singleton hi.read (fun h => by cases h)⟩
  · exact ht'.symm.trans_le hi.taken_le
  · exact hroom.trans_eq (congrArg (· + size) ht')
  · refine Eq.trans ?_ (congrArg (s.pushed.take ·) hlen).symm
    rw [List.take_add_one, ← hi.popped, hitem]
    rfl
  · have hle' : s.taken ≤ k := ht'.trans_le hle
    exact (List.getElem?_set_ne (hother k hle' hlt)).trans (hi.filled k hle' hlt)
  · have hw : s.writer.Knows size s.pushed.length s.taken (s.data.set ((s.popped.length + 1) % (size + 1)) zero) :=
      hi.writer.of_take (Nat.le_refl _) fun hfree => List.getElem?_set_ne (slot_ne hfree hlt).symm
    rwa [ht'] at hw
  · simp [hi.nOut]
  · exact hi.owed_written.trans_eq (congrArg (· + size - s.pushed.length) ht')
  · rw [owed_done, hlen]
    exact (Nat.sub_le_sub_right hread 1).trans_eq (Nat.sub_sub ..)

/-- **Every step of the reader** has a result and keeps the invariant. -/
theorem inv_stepReader (hsize : size < intMax) (zero : α) (hi : Inv size s) (hr : s.reader.isIdle = false) :
    ∃ s', stepReader size zero s = some s' ∧ Inv size s' := by
  have hk := hi.reader
  unfold stepReader
  cases hpc : s.reader with
  | idle =>
    rw [hpc] at hr
    cases hr
  | emptyEnd k =>
    have hp : s.reader.published = 0 := by rw [hpc]; rfl
    exact ⟨_, rfl, hi.reader_moves hp.symm (hi.loaded hp) hi.owed_read hi.read⟩
  | emptyStart k e =>
    obtain ⟨s', hs, hi'⟩ := hi.look zero hpc
    rw [stepReader, hpc] at hs
    exact ⟨s', hs, hi'⟩
  | popStart =>
    have hp : s.reader.published = 0 := by rw [hpc]; rfl
    rw [hpc] at hk
    refine ⟨{ s with reader := .popStore ((s.popped.length + 1) % (size + 1)) }, ?_,
      hi.reader_moves hp.symm ⟨rfl, hk⟩ hi.owed_read hi.read⟩
    simp only [hi.starts_idle hp, next_mod hsize, Option.map_some]
  | popStore new => exact ⟨_, rfl, hi.take hpc⟩
  | popRead =>
    have hp : s.reader.published = 1 := by rw [hpc]; rfl
    have hstart := hi.starts
    rw [Fifo.taken, hp] at hstart
    rw [hpc] at hk
    exact ⟨_, rfl, hi.reader_moves hp.symm ⟨hstart, by rw [hstart]; exact hk⟩ hi.owed_read hi.read⟩
  | popReadSlot ix =>
    have hp : s.reader.published = 1 := by rw [hpc]; rfl
    have hlt := hi.popped_lt hp
    rw [hpc] at hk
    have hitem : s.data[ix]? = some s.pushed[s.popped.length] := by rw [hk.2, List.getElem?_eq_getElem hlt]
    refine ⟨{ s with reader := .popReset s.pushed[s.popped.length] }, ?_,
      hi.reader_moves hp.symm (List.getElem?_eq_getElem hlt) hi.owed_read hi.read⟩
    simp only [hitem, Option.map_some]
  | popReset item =>
    have hp : s.reader.published = 1 := by rw [hpc]; rfl
    have hstart := hi.starts
    rw [Fifo.taken, hp] at hstart
    rw [hpc] at hk
    exact ⟨_, rfl, hi.reader_moves hp.symm ⟨hstart, hk⟩ hi.owed_read hi.read⟩
  | popResetSlot item ix =>
    obtain ⟨hin, hi'⟩ := hi.reset zero hpc
    exact ⟨_, if_pos hin, hi'⟩
  | frontStart =>
    have hp : s.reader.published = 0 := by rw [hpc]; rfl
    rw [hpc] at hk
    have hlt : s.popped.length % (size + 1) < size + 1 := Nat.mod_lt _ (Nat.succ_pos size)
    refine ⟨{ s with reader := .frontSlot ((s.popped.length + 1) % (size + 1)) }, ?_,
      hi.reader_moves hp.symm ⟨rfl, hk⟩ hi.owed_read hi.read⟩
    simp only [hi.starts_idle hp]
    rw [intAdd_of_le (by omega), intAdd_of_le (by omega), Option.bind_some, Option.map_some, Nat.mod_add_mod]
  | frontSlot ix =>
    have hp : s.reader.published = 0 := by rw [hpc]; rfl
    have ht : s.taken = s.popped.length := by rw [Fifo.taken, hp, Nat.add_zero]
    rw [hpc] at hk
    obtain ⟨rfl, hlt⟩ := hk
    have hitem := hi.filled _ (Nat.le_of_eq ht) hlt
    rw [List.getElem?_eq_getElem hlt] at hitem
    refine ⟨{ s with reader := .idle }, by simp only [hitem, Option.map_some], ?_⟩
    exact hi.reader_moves hp.symm trivial hi.owed_read hi.read
  | usedEnd =>
    have hp : s.reader.published = 0 := by rw [hpc]; rfl
    obtain ⟨P₀, h₁, h₂, h₃, h₄, -⟩ := hi.loaded hp
    exact ⟨_, rfl, hi.reader_moves hp.symm ⟨P₀, h₁, h₂, h₃, h₄, Nat.zero_le _⟩ hi.owed_read hi.read⟩
  | usedStart i1 =>
    have hp : s.reader.published = 0 := by rw [hpc]; rfl
    rw [hpc] at hk
    obtain ⟨P₀, h₁, h₂, h₃, rfl, -⟩ := hk
    refine ⟨_, rfl, hi.reader_moves hp.symm trivial ?_ (owed_append_singleton hi.read fun h => by cases h)⟩
    have := hi.owed_read
    rw [owed_room, hi.starts_idle hp, numberOfFreeSlots_mod h₁ h₃]
    omega

/-! ## The result -/

theorem inv_step (hsize : size < intMax) (zero : α) (s : Fifo α) (a : Action α) (hi : Inv size s) (hok : Proper s a) :
    ∃ s', step size zero s a = some s' ∧ Inv size s' := by
  have hidle : s.reader.isIdle = true → s.reader.published = 0 := by
    intro h
    cases hr : s.reader <;> rw [hr] at h <;> first | rfl | cases h
  cases a with
  | push item => exact ⟨_, rfl, hi.writer_moves trivial hi.owed_written hi.written⟩
  | isFull => exact ⟨_, rfl, hi.writer_moves trivial hi.owed_written hi.written⟩
  | getNumberOfFreeSlots => exact ⟨_, rfl, hi.writer_moves trivial hi.owed_written hi.written⟩
  | pop => exact ⟨_, rfl, hi.reader_moves (hidle hok).symm trivial hi.owed_read hi.read⟩
  | front => exact ⟨_, rfl, hi.reader_moves (hidle hok).symm trivial hi.owed_read hi.read⟩
  | isEmpty => exact ⟨_, rfl, hi.reader_moves (hidle hok).symm trivial hi.owed_read hi.read⟩
  | getNumberOfUsedSlots => exact ⟨_, rfl, hi.reader_moves (hidle hok).symm trivial hi.owed_read hi.read⟩
  | writer => exact inv_stepWriter hsize hi hok
  | reader => exact inv_stepReader hsize zero hi hok

/-- The slot the writer is about to write. -/
def Writer.slot : Writer α → Option Nat
  | .pushData _ ix => some ix
  | _              => none

/-- The slot the reader is at, from the start of its accesses to their end. -/
def Fifo.readSlot (s : Fifo α) : Option Nat :=
  match s.reader with
  | .popRead | .popReset _                                => some s.indexStart
  | .popReadSlot ix | .popResetSlot _ ix | .frontSlot ix  => some ix
  | _                                                     => none

/-- What both sides rely on. -/
structure Correct (size : Nat) (s : Fifo α) : Prop where
  popped_prefix : s.popped <+: s.pushed
  apart : ∀ w ∈ s.writer.slot, ∀ r ∈ s.readSlot, w ≠ r
  in_data : s.data.length = size + 1 ∧ (∀ w ∈ s.writer.slot, w < size + 1) ∧ ∀ r ∈ s.readSlot, r < size + 1
  front : ∀ ix, s.reader = .frontSlot ix → s.data[ix]? = s.pushed[s.popped.length]?
  written : Honoured s.written
  read : Honoured s.read

theorem Inv.writer_slot (hi : Inv size s) : ∀ w ∈ s.writer.slot,
    w = (s.pushed.length + 1) % (size + 1) ∧ s.pushed.length < s.taken + size := by
  have hk := hi.writer
  intro w hw
  cases hpc : s.writer <;> rw [hpc] at hw hk <;> cases hw
  exact hk

theorem Inv.readSlot (hi : Inv size s) : ∀ r ∈ s.readSlot,
    r = (s.popped.length + 1) % (size + 1) ∧ s.popped.length < s.pushed.length := by
  have hk := hi.reader
  have hs := hi.starts
  have hlt := hi.popped_lt
  intro r hr
  unfold Fifo.readSlot at hr
  cases hpc : s.reader with
  | popRead =>
    rw [hpc] at hr hlt
    rw [Fifo.taken, hpc] at hs
    cases hr
    exact ⟨hs, hlt rfl⟩
  | popReset item =>
    rw [hpc] at hr hlt
    rw [Fifo.taken, hpc] at hs
    cases hr
    exact ⟨hs, hlt rfl⟩
  | popReadSlot ix =>
    rw [hpc] at hr hlt hk
    cases hr
    exact ⟨hk.1, hlt rfl⟩
  | popResetSlot item ix =>
    rw [hpc] at hr hlt hk
    cases hr
    exact ⟨hk.1, hlt rfl⟩
  | frontSlot ix =>
    rw [hpc] at hr hk
    cases hr
    exact hk
  | _ =>
    rw [hpc] at hr
    cases hr

theorem Inv.correct (hi : Inv size s) : Correct size s where
  popped_prefix := by
    rw [hi.popped]
    exact List.take_prefix _ _
  apart w hw r hr := by
    obtain ⟨rfl, hroom⟩ := hi.writer_slot w hw
    obtain ⟨rfl, hlt⟩ := hi.readSlot r hr
    exact slot_ne hroom hlt
  in_data := by
    refine ⟨hi.length, fun w hw => ?_, fun r hr => ?_⟩
    · rw [(hi.writer_slot w hw).1]
      exact Nat.mod_lt _ (Nat.succ_pos size)
    · rw [(hi.readSlot r hr).1]
      exact Nat.mod_lt _ (Nat.succ_pos size)
  front ix hpc := by
    have hk := hi.reader
    rw [hpc] at hk
    obtain ⟨rfl, hlt⟩ := hk
    exact hi.filled _ (by rw [Fifo.taken, hpc]; exact Nat.le_refl _) hlt
  written := honoured_of_owed hi.written
  read := honoured_of_owed hi.read

/-- **A queue of one writer and one reader is right under every interleaving** exactly when `size + 1` is an `int`. -/
theorem correct_iff (size : Nat) (blank zero : α) :
    (∃ s₀, Fifo.create size blank = some s₀ ∧ ∀ as, Legal (step size zero) Proper s₀ as →
      ∃ s, run (step size zero) s₀ as = some s ∧ Correct size s) ↔ size < intMax := by
  constructor
  · rintro ⟨s₀, hs, -⟩
    obtain ⟨n, hn, -⟩ := Option.map_eq_some_iff.1 hs
    have := (intAdd_eq_some hn).2
    omega
  · intro hsize
    obtain ⟨s₀, hs, hi⟩ := inv_create hsize blank
    refine ⟨s₀, hs, fun as hl => ?_⟩
    obtain ⟨s, hr, hi'⟩ := run_inv (inv_step hsize zero) as s₀ hi hl
    exact ⟨s, hr, hi'.correct⟩

/-- **The largest size has no queue.** -/
theorem largest_size_overflows : ¬ ∃ s₀, Fifo.create intMax 0 = some s₀ ∧
    ∀ as, Legal (step intMax 0) Proper s₀ as → ∃ s, run (step intMax 0) s₀ as = some s ∧ Correct intMax s := by
  rintro ⟨s₀, hs, -⟩
  obtain ⟨n, hn, -⟩ := Option.map_eq_some_iff.1 hs
  exact absurd (intAdd_eq_some hn).2 (by decide)

end Common
end Flp
