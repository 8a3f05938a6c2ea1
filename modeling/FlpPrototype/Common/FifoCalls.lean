import FlpPrototype.Common.FifoRuns
/-!
# FifoCalls — a call of one side, as its caller sees it

A call goes through its accesses while the other side goes through its own.  Its caller sees what it ends with: `isFull`
with an answer that was true when it was given, `push` with the item behind those pushed, `isEmpty` with an answer,
`pop` with the next item.  A caller who was answered that there is room, or an item, is not refused.
-/
namespace Flp
namespace Common

variable {α : Type} {size : Nat} {zero item : α} {s s' : Fifo α}

/-- In a call of `isFull`. -/
def Writer.IsFull : Writer α → Prop
  | .fullEnd | .fullStart _ | .fullEndAgain | .fullStartAgain => True
  | _                                                         => False

/-- In a call of `push` for an item. -/
def Writer.Pushes (item : α) : Writer α → Prop
  | .pushEnd x | .pushStart x _ | .pushData x _ | .pushStore x _ => x = item
  | _                                                            => False

/-- In a call of `isEmpty`. -/
def Reader.IsEmpty : Reader α → Prop
  | .emptyEnd k | .emptyStart k _ => k = .isEmpty
  | _                             => False

/-- In a call of `pop`. -/
def Reader.Pops : Reader α → Prop
  | .emptyEnd k | .emptyStart k _                                                             => k = .pop
  | .popStart | .popStore _ | .popRead | .popReadSlot _ | .popReset _ | .popResetSlot _ _ => True
  | _                                                                                         => False

theorem Writer.IsFull.not_idle {w : Writer α} (h : w.IsFull) : w.isIdle = false := by
  cases w <;> first | rfl | exact h.elim

theorem Writer.Pushes.not_idle {w : Writer α} (h : w.Pushes item) : w.isIdle = false := by
  cases w <;> first | rfl | exact h.elim

theorem Reader.IsEmpty.not_idle {r : Reader α} (h : r.IsEmpty) : r.isIdle = false := by
  cases r <;> first | rfl | exact h.elim

theorem Reader.Pops.not_idle {r : Reader α} (h : r.Pops) : r.isIdle = false := by
  cases r <;> first | rfl | exact h.elim

/-- What is the reader's stays. -/
structure SameReading (s s' : Fifo α) : Prop where
  reader : s'.reader = s.reader
  read : s'.read = s.read
  popped : s'.popped = s.popped

/-- What is the writer's stays. -/
structure SameWriting (s s' : Fifo α) : Prop where
  writer : s'.writer = s.writer
  written : s'.written = s.written
  pushed : s'.pushed = s.pushed

theorem stepWriter_reading (hs : stepWriter size s = some s') : SameReading s s' := by
  unfold stepWriter at hs
  cases hpc : s.writer <;> simp only [hpc] at hs
  case idle => cases hs
  case pushEnd | fullEnd =>
    obtain ⟨_, -, rfl⟩ := Option.map_eq_some_iff.1 hs
    exact ⟨rfl, rfl, rfl⟩
  case pushData =>
    obtain ⟨-, hs⟩ := Option.ite_none_right_eq_some.1 hs
    obtain rfl := Option.some.inj hs
    exact ⟨rfl, rfl, rfl⟩
  case fullEndAgain =>
    obtain ⟨_, -, rfl⟩ := Option.map_eq_some_iff.1 hs
    split <;> exact ⟨rfl, rfl, rfl⟩
  case pushStart | fullStart | fullStartAgain =>
    split at hs <;> obtain rfl := Option.some.inj hs <;> exact ⟨rfl, rfl, rfl⟩
  case pushStore | freeEnd | freeStart =>
    obtain rfl := Option.some.inj hs
    exact ⟨rfl, rfl, rfl⟩

theorem stepReader_writing (hs : stepReader size zero s = some s') : SameWriting s s' := by
  unfold stepReader at hs
  cases hpc : s.reader <;> simp only [hpc] at hs
  case idle => cases hs
  case emptyStart k e =>
    split at hs <;> cases k <;> obtain rfl := Option.some.inj hs <;> exact ⟨rfl, rfl, rfl⟩
  case popStart | popReadSlot | frontSlot =>
    obtain ⟨_, -, rfl⟩ := Option.map_eq_some_iff.1 hs
    exact ⟨rfl, rfl, rfl⟩
  case popResetSlot =>
    obtain ⟨-, hs⟩ := Option.ite_none_right_eq_some.1 hs
    obtain rfl := Option.some.inj hs
    exact ⟨rfl, rfl, rfl⟩
  case frontStart =>
    obtain ⟨_, -, hs⟩ := Option.bind_eq_some_iff.1 hs
    obtain ⟨_, -, rfl⟩ := Option.map_eq_some_iff.1 hs
    exact ⟨rfl, rfl, rfl⟩
  case emptyEnd | popStore | popRead | popReset | usedEnd | usedStart =>
    obtain rfl := Option.some.inj hs
    exact ⟨rfl, rfl, rfl⟩

/-! ## The writer's calls -/

/-- `isFull` goes on, or answers; "full" when it is. -/
theorem stepWriter_isFull (hi : Inv size s) (hw : s.writer.IsFull) (hs : stepWriter size s = some s') :
    s'.pushed = s.pushed ∧ (s'.writer.IsFull ∧ s'.written = s.written ∨
      s'.writer = .idle ∧ s'.written = s.written ++ [.room 0] ∧ s.pushed.length = s.taken + size ∨
      s'.writer = .idle ∧ s'.written = s.written ++ [.room 1]) := by
  have hk := hi.writer
  have hlt := Nat.mod_lt s.taken (Nat.succ_pos size)
  rw [← hi.starts] at hlt
  unfold stepWriter at hs
  cases hpc : s.writer with
  | fullEnd =>
    simp only [hpc] at hs
    obtain ⟨_, -, rfl⟩ := Option.map_eq_some_iff.1 hs
    exact ⟨rfl, .inl ⟨trivial, rfl⟩⟩
  | fullStart e =>
    rw [hpc] at hk
    obtain rfl : e = _ := hk
    simp only [hpc] at hs
    split at hs
    · rename_i hfull
      obtain rfl := Option.some.inj hs
      exact ⟨rfl, .inr (.inl ⟨rfl, rfl, hi.no_room ((succ_mod_of_le (by omega)).trans hfull)⟩)⟩
    · obtain rfl := Option.some.inj hs
      exact ⟨rfl, .inl ⟨trivial, rfl⟩⟩
  | fullEndAgain =>
    simp only [hpc] at hs
    obtain ⟨_, -, rfl⟩ := Option.map_eq_some_iff.1 hs
    split
    · exact ⟨rfl, .inl ⟨trivial, rfl⟩⟩
    · exact ⟨rfl, .inr (.inr ⟨rfl, rfl⟩)⟩
  | fullStartAgain =>
    rw [hpc] at hk
    simp only [hpc] at hs
    split at hs
    · rename_i hzero
      obtain rfl := Option.some.inj hs
      exact ⟨rfl, .inr (.inl ⟨rfl, rfl, hi.no_room ((succ_mod_of_eq hk).trans hzero.symm)⟩)⟩
    · obtain rfl := Option.some.inj hs
      exact ⟨rfl, .inr (.inr ⟨rfl, rfl⟩)⟩
  | idle | pushEnd | pushStart | pushData | pushStore | freeEnd | freeStart =>
    rw [hpc] at hw
    exact hw.elim

/-- **`push` behind an answer that there is room** is not refused. -/
theorem stepWriter_push (hi : Inv size s) (hw : s.writer.Pushes item) (howed : 0 < owed s.written)
    (hs : stepWriter size s = some s') :
    s'.writer.Pushes item ∧ s'.written = s.written ∧ s'.pushed = s.pushed ∨
      s'.writer = .idle ∧ s'.written = s.written ++ [.done] ∧ s'.pushed = s.pushed ++ [item] := by
  have hk := hi.writer
  unfold stepWriter at hs
  cases hpc : s.writer with
  | pushEnd x =>
    rw [hpc] at hw
    simp only [hpc] at hs
    obtain ⟨_, -, rfl⟩ := Option.map_eq_some_iff.1 hs
    exact .inl ⟨hw, rfl, rfl⟩
  | pushStart x new =>
    rw [hpc] at hw hk
    obtain rfl : new = _ := hk
    simp only [hpc] at hs
    split at hs
    · rename_i hfull
      have := hi.owed_written
      rw [hi.no_room hfull] at this
      omega
    · obtain rfl := Option.some.inj hs
      exact .inl ⟨hw, rfl, rfl⟩
  | pushData x new =>
    rw [hpc] at hw
    simp only [hpc] at hs
    obtain ⟨-, hs⟩ := Option.ite_none_right_eq_some.1 hs
    obtain rfl := Option.some.inj hs
    exact .inl ⟨hw, rfl, rfl⟩
  | pushStore x new =>
    rw [hpc] at hw
    obtain rfl : x = item := hw
    simp only [hpc] at hs
    obtain rfl := Option.some.inj hs
    exact .inr ⟨rfl, rfl, rfl⟩
  | idle | fullEnd | fullStart | fullEndAgain | fullStartAgain | freeEnd | freeStart =>
    rw [hpc] at hw
    exact hw.elim

/-! ## The reader's calls -/

/-- `isEmpty` goes on, or answers. -/
theorem stepReader_isEmpty (hr : s.reader.IsEmpty) (hs : stepReader size zero s = some s') :
    s'.popped = s.popped ∧ (s'.reader.IsEmpty ∧ s'.read = s.read ∨
      s'.reader = .idle ∧ s'.read = s.read ++ [.room 0] ∨ s'.reader = .idle ∧ s'.read = s.read ++ [.room 1]) := by
  unfold stepReader at hs
  cases hpc : s.reader with
  | emptyEnd k =>
    rw [hpc] at hr
    simp only [hpc] at hs
    obtain rfl := Option.some.inj hs
    exact ⟨rfl, .inl ⟨hr, rfl⟩⟩
  | emptyStart k e =>
    rw [hpc] at hr
    obtain rfl : k = .isEmpty := hr
    simp only [hpc] at hs
    split at hs
    · obtain rfl := Option.some.inj hs
      exact ⟨rfl, .inr (.inl ⟨rfl, rfl⟩)⟩
    · obtain rfl := Option.some.inj hs
      exact ⟨rfl, .inr (.inr ⟨rfl, rfl⟩)⟩
  | idle | popStart | popStore | popRead | popReadSlot | popReset | popResetSlot | frontStart | frontSlot | usedEnd
    | usedStart =>
    rw [hpc] at hr
    exact hr.elim

/-- **`pop` behind an answer that there is an item** gets one. -/
theorem stepReader_pop (hi : Inv size s) (hr : s.reader.Pops) (howed : 0 < owed s.read)
    (hs : stepReader size zero s = some s') :
    s'.reader.Pops ∧ s'.read = s.read ∧ s'.popped = s.popped ∨
      s'.reader = .idle ∧ s'.read = s.read ++ [.done] ∧ ∃ item, s'.popped = s.popped ++ [item] := by
  have hk := hi.reader
  have hstart := hi.starts
  rw [Fifo.taken] at hstart
  unfold stepReader at hs
  cases hpc : s.reader with
  | emptyEnd k =>
    rw [hpc] at hr
    simp only [hpc] at hs
    obtain rfl := Option.some.inj hs
    exact .inl ⟨hr, rfl, rfl⟩
  | emptyStart k e =>
    rw [hpc] at hr hk hstart
    obtain rfl : k = .pop := hr
    simp only [hpc] at hs
    split at hs
    · rename_i he
      have := Loaded.empty hk (he.trans hstart)
      omega
    · obtain rfl := Option.some.inj hs
      exact .inl ⟨trivial, rfl, rfl⟩
  | popStart | popReadSlot ix =>
    simp only [hpc] at hs
    obtain ⟨_, -, rfl⟩ := Option.map_eq_some_iff.1 hs
    exact .inl ⟨trivial, rfl, rfl⟩
  | popStore new | popRead | popReset x =>
    simp only [hpc] at hs
    obtain rfl := Option.some.inj hs
    exact .inl ⟨trivial, rfl, rfl⟩
  | popResetSlot x ix =>
    simp only [hpc] at hs
    obtain ⟨-, hs⟩ := Option.ite_none_right_eq_some.1 hs
    obtain rfl := Option.some.inj hs
    exact .inr ⟨rfl, rfl, x, rfl⟩
  | idle | frontStart | frontSlot | usedEnd | usedStart =>
    rw [hpc] at hr
    exact hr.elim

end Common
end Flp
