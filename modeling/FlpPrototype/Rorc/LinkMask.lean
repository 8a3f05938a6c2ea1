import FlpPrototype.Lib.CString
import FlpPrototype.Lib.Decimal
import FlpPrototype.Lib.Lines
import Mathlib.Data.Finset.Insert
/-!
# LinkMask — `Parameters::linkMaskFromString`

The string is cut at its commas, an element with a dash at its dashes, and a range is put into the set by a loop over
a `uint32_t`.  The loop's condition holds of every `uint32_t` if the range ends with the largest one: such a range is
never left (`linkMask_exact_iff`).
-/
namespace Flp
namespace Rorc

def comma : UInt8 := 44
def dash : UInt8 := 45

structure ParseException where
  Message : String
  deriving DecidableEq, Repr

/-- What is thrown inside the `try`. -/
inductive Thrown where
  | parseException (e : ParseException)
  | badLexicalCast (what : String)
  deriving DecidableEq, Repr

abbrev LinkMask := Finset UInt32

/-- `for (uint32_t i = start; i <= end; ++i)`, as long as there is fuel. -/
def insertRange : Nat → UInt32 → UInt32 → LinkMask → Option LinkMask
  | 0, _, _, _                      => none
  | fuel + 1, i, end_, links =>
    if i ≤ end_ then insertRange fuel (i + 1) end_ (insert i links) else some links

/-- `lexical_cast<uint32_t>`, with what `bad_lexical_cast` tells. -/
abbrev Cast := Bytes → Except String UInt32

/-- The body of the loop over the elements. -/
def insertElement (lexicalCast : Cast) (fuel : Nat) (commaSeparated : Bytes) (links : LinkMask) :
    Option (Except Thrown LinkMask) :=
  if dash ∈ commaSeparated then
    match lines dash commaSeparated with
    | [first, second] =>
      match lexicalCast first with
      | .error what => some (.error (.badLexicalCast what))
      | .ok start   =>
        match lexicalCast second with
        | .error what => some (.error (.badLexicalCast what))
        | .ok end_    => (insertRange fuel start end_ links).map .ok
    | _ => some (.error (.parseException ⟨"Invalid link string format"⟩))
  else
    match lexicalCast commaSeparated with
    | .error what => some (.error (.badLexicalCast what))
    | .ok n       => some (.ok (insert n links))

def insertElements (lexicalCast : Cast) (fuel : Nat) : List Bytes → LinkMask → Option (Except Thrown LinkMask)
  | [], links => some (.ok links)
  | e :: es, links =>
    match insertElement lexicalCast fuel e links with
    | none                => none
    | some (.error t)     => some (.error t)
    | some (.ok links)    => insertElements lexicalCast fuel es links

/-- `linkMaskFromString`; no result means that the fuel was not enough. -/
def linkMaskFromString (lexicalCast : Cast) (fuel : Nat) (string : Bytes) : Option (Except ParseException LinkMask) :=
  (insertElements lexicalCast fuel (lines comma string) ∅).map fun
    | .ok links                       => .ok links
    | .error (.parseException e)      => .error e
    | .error (.badLexicalCast what)   => .error ⟨"Invalid link string format: " ++ what⟩

/-! ## What a string means -/

/-- A 32-bit numeral: digits, which may follow a plus sign. -/
def numeral (s : Bytes) : Option UInt32 :=
  let digits := if s.head? = some 43 then s.tail else s
  if digits ≠ [] ∧ digits.all isDigit ∧ digitsValue digits < 2 ^ 32 then some (UInt32.ofNat (digitsValue digits))
    else none

/-- An element is a numeral, or two of them joined by a dash. -/
def Bounds (e : Bytes) (a b : UInt32) : Prop :=
  numeral e = some a ∧ b = a ∨ ∃ x y, e = x ++ dash :: y ∧ numeral x = some a ∧ numeral y = some b

def WellFormed (e : Bytes) : Prop := ∃ a b, Bounds e a b

/-- The numbers listed and those of the ranges. -/
def Listed (es : List Bytes) (n : UInt32) : Prop := ∃ e ∈ es, ∃ a b, Bounds e a b ∧ a ≤ n ∧ n ≤ b

/-- What the code relies on: the conversion gives the value of a numeral, and fails on anything else.  It is not asked
about strings with a dash. -/
def LexicalCast (lexicalCast : Cast) : Prop :=
  ∀ s, dash ∉ s → ∀ n, lexicalCast s = .ok n ↔ numeral s = some n

/-- The call ends; it throws exactly if an element is malformed; and the mask is the union of what is listed. -/
structure Exact (lexicalCast : Cast) (string : Bytes) : Prop where
  ends : ∃ fuel r, linkMaskFromString lexicalCast fuel string = some r
  throws : ∀ fuel r, linkMaskFromString lexicalCast fuel string = some r →
    ((∃ e, r = .error e) ↔ ∃ e ∈ lines comma string, ¬ WellFormed e)
  returns : ∀ fuel links, linkMaskFromString lexicalCast fuel string = some (.ok links) →
    ∀ n, n ∈ links ↔ Listed (lines comma string) n

/-- A range up to the largest number. -/
def Endless (e : Bytes) : Prop := ∃ x y a, e = x ++ dash :: y ∧ numeral x = some a ∧ numeral y = some 4294967295

/-- No range up to the largest number comes before the first malformed element. -/
def NoEndless : List Bytes → Prop
  | []      => True
  | e :: es => ¬ Endless e ∧ (WellFormed e → NoEndless es)

/-! ## The loop over a range -/

theorem toNat_add_one {i e : UInt32} (hi : i ≤ e) (he : e ≠ 4294967295) : (i + 1).toNat = i.toNat + 1 := by
  have hlt : e.toNat ≠ 4294967295 := fun h => he (UInt32.toNat_inj.1 h)
  have := e.toNat_lt
  rw [UInt32.le_iff_toNat_le] at hi
  rw [UInt32.toNat_add, show (1 : UInt32).toNat = 1 from rfl, Nat.mod_eq_of_lt (by omega)]

/-- A loop that ends was not over a range up to the largest number, and has put in the range. -/
theorem mem_insertRange : ∀ {fuel : Nat} {i e : UInt32} {links result : LinkMask},
    insertRange fuel i e links = some result →
    e ≠ 4294967295 ∧ ∀ n, n ∈ result ↔ n ∈ links ∨ i ≤ n ∧ n ≤ e
  | 0, _, _, _, _, h => by cases h
  | fuel + 1, i, e, links, result, h => by
    rw [insertRange] at h
    split at h
    · rename_i hi
      obtain ⟨he, hmem⟩ := mem_insertRange h
      refine ⟨he, fun n => ?_⟩
      have hnext := toNat_add_one hi he
      rw [hmem, Finset.mem_insert]
      simp only [UInt32.le_iff_toNat_le, ← UInt32.toNat_inj, hnext] at hi ⊢
      grind
    · rename_i hi
      cases h
      have := i.toNat_lt
      simp only [UInt32.le_iff_toNat_le, ne_eq, ← UInt32.toNat_inj] at hi ⊢
      refine ⟨?_, fun n => ?_⟩
      · show e.toNat ≠ 4294967295
        omega
      · grind

theorem insertRange_ends {e : UInt32} (he : e ≠ 4294967295) : ∀ {fuel : Nat} {i : UInt32} (links : LinkMask),
    e.toNat + 1 - i.toNat < fuel → ∃ result, insertRange fuel i e links = some result
  | 0, _, _, h => absurd h (Nat.not_lt_zero _)
  | fuel + 1, i, links, h => by
    rw [insertRange]
    split
    · rename_i hi
      have hnext := toNat_add_one hi he
      rw [UInt32.le_iff_toNat_le] at hi
      exact insertRange_ends he _ (by omega)
    · exact ⟨links, rfl⟩

/-! ## An element -/

theorem dash_not_mem_of_numeral {s : Bytes} {n : UInt32} (h : numeral s = some n) : dash ∉ s := by
  have digits : ∀ ds : Bytes, (ds ≠ [] ∧ ds.all isDigit ∧ digitsValue ds < 2 ^ 32) → dash ∉ ds := fun ds hds hmem =>
    absurd (List.all_eq_true.1 hds.2.1 _ hmem) (by decide)
  have hok := (Option.ite_none_right_eq_some.1 h).1
  cases s with
  | nil => exact List.not_mem_nil
  | cons c s =>
    by_cases hc : c = 43
    · rw [hc, List.head?_cons, if_pos rfl] at hok
      rw [hc, List.mem_cons, not_or]
      exact ⟨by decide, digits s hok⟩
    · rw [List.head?_cons, if_neg (fun e => hc (Option.some.inj e))] at hok
      exact digits _ hok

theorem bounds_of_mem {e : Bytes} (h : dash ∈ e) {a b : UInt32} :
    Bounds e a b ↔ ∃ x y, lines dash e = [x, y] ∧ numeral x = some a ∧ numeral y = some b := by
  constructor
  · rintro (⟨ha, _⟩ | ⟨x, y, he, ha, hb⟩)
    · exact absurd h (dash_not_mem_of_numeral ha)
    · exact ⟨x, y, (lines_eq_pair dash).2 ⟨he, dash_not_mem_of_numeral ha, dash_not_mem_of_numeral hb⟩, ha, hb⟩
  · rintro ⟨x, y, hxy, ha, hb⟩
    exact .inr ⟨x, y, ((lines_eq_pair dash).1 hxy).1, ha, hb⟩

theorem bounds_of_not_mem {e : Bytes} (h : dash ∉ e) {a b : UInt32} :
    Bounds e a b ↔ numeral e = some a ∧ b = a := by
  refine ⟨?_, .inl⟩
  rintro (hab | ⟨x, y, rfl, _⟩)
  · exact hab
  · exact absurd (by simp) h

theorem bounds_unique {e : Bytes} {a b a' b' : UInt32} (h : Bounds e a b) (h' : Bounds e a' b') :
    a' = a ∧ b' = b := by
  by_cases hd : dash ∈ e
  · obtain ⟨x, y, hxy, ha, hb⟩ := (bounds_of_mem hd).1 h
    obtain ⟨x', y', hxy', ha', hb'⟩ := (bounds_of_mem hd).1 h'
    obtain ⟨rfl, rfl⟩ : x' = x ∧ y' = y := by simpa [hxy, eq_comm] using hxy'
    exact ⟨by simpa [ha] using ha'.symm, by simpa [hb] using hb'.symm⟩
  · obtain ⟨ha, rfl⟩ := (bounds_of_not_mem hd).1 h
    obtain ⟨ha', rfl⟩ := (bounds_of_not_mem hd).1 h'
    rw [ha, Option.some.injEq] at ha'
    exact ⟨ha'.symm, ha'.symm⟩

theorem endless_iff {e : Bytes} {a b : UInt32} (h : Bounds e a b) : Endless e ↔ dash ∈ e ∧ b = 4294967295 := by
  constructor
  · rintro ⟨x, y, a', he, ha, hb⟩
    exact ⟨by rw [he]; simp, ((bounds_unique h (.inr ⟨x, y, he, ha, hb⟩)).2).symm⟩
  · rintro ⟨hd, rfl⟩
    obtain ⟨x, y, hxy, ha, hb⟩ := (bounds_of_mem hd).1 h
    exact ⟨x, y, a, ((lines_eq_pair dash).1 hxy).1, ha, hb⟩

theorem wellFormed_of_endless {e : Bytes} : Endless e → WellFormed e
  | ⟨x, y, a, he, ha, hb⟩ => ⟨a, _, .inr ⟨x, y, he, ha, hb⟩⟩

section Conversion

variable {lexicalCast : Cast} (hcast : LexicalCast lexicalCast)
include hcast

theorem lexicalCast_error {s : Bytes} (hs : dash ∉ s) {what : String} (h : lexicalCast s = .error what) :
    numeral s = none := by
  cases hn : numeral s with
  | none => rfl
  | some n =>
    have := (hcast s hs n).2 hn
    rw [h] at this
    cases this

/-- What one turn does: it runs over the range, puts in the number, or throws. -/
theorem insertElement_cases (fuel : Nat) (e : Bytes) (links : LinkMask) :
    (∃ a b, dash ∈ e ∧ Bounds e a b ∧ insertElement lexicalCast fuel e links = (insertRange fuel a b links).map .ok) ∨
    (∃ a, dash ∉ e ∧ Bounds e a a ∧ insertElement lexicalCast fuel e links = some (.ok (insert a links))) ∨
    ¬ WellFormed e ∧ ∃ t, insertElement lexicalCast fuel e links = some (.error t) := by
  unfold insertElement
  split
  · rename_i hd
    have malformed : (∀ x y a b, lines dash e = [x, y] → numeral x = some a → numeral y ≠ some b) →
        ¬ WellFormed e := by
      rintro hno ⟨a, b, hab⟩
      obtain ⟨x, y, hxy, ha, hb⟩ := (bounds_of_mem hd).1 hab
      exact hno x y a b hxy ha hb
    split
    · rename_i first second hsplit
      obtain ⟨-, hfirst, hsecond⟩ := (lines_eq_pair dash).1 hsplit
      split
      · rename_i hstart
        refine .inr (.inr ⟨malformed fun x y a b hxy ha => ?_, _, rfl⟩)
        rw [hsplit, List.cons.injEq] at hxy
        rw [← hxy.1, lexicalCast_error hcast hfirst hstart] at ha
        cases ha
      · rename_i start hstart
        split
        · rename_i hend
          refine .inr (.inr ⟨malformed fun x y a b hxy _ hb => ?_, _, rfl⟩)
          rw [hsplit, List.cons.injEq, List.cons.injEq] at hxy
          rw [← hxy.2.1, lexicalCast_error hcast hsecond hend] at hb
          cases hb
        · rename_i end_ hend
          have bounds := (bounds_of_mem hd).2
            ⟨first, second, hsplit, (hcast _ hfirst _).1 hstart, (hcast _ hsecond _).1 hend⟩
          exact .inl ⟨start, end_, hd, bounds, rfl⟩
    · rename_i hsplit
      exact .inr (.inr ⟨malformed fun x y a b hxy _ _ => hsplit x y hxy, _, rfl⟩)
  · rename_i hd
    split
    · rename_i hn
      refine .inr (.inr ⟨?_, _, rfl⟩)
      rintro ⟨a, b, hab⟩
      have := ((bounds_of_not_mem hd).1 hab).1
      rw [lexicalCast_error hcast hd hn] at this
      cases this
    · rename_i n hn
      exact .inr (.inl ⟨n, hd, (bounds_of_not_mem hd).2 ⟨(hcast _ hd _).1 hn, rfl⟩, rfl⟩)

theorem insertElement_ok {fuel : Nat} {e : Bytes} {links result : LinkMask}
    (h : insertElement lexicalCast fuel e links = some (.ok result)) :
    ¬ Endless e ∧ WellFormed e ∧ ∀ n, n ∈ result ↔ n ∈ links ∨ ∃ a b, Bounds e a b ∧ a ≤ n ∧ n ≤ b := by
  have listed : ∀ {a b}, Bounds e a b → ∀ n, (∃ a b, Bounds e a b ∧ a ≤ n ∧ n ≤ b) ↔ a ≤ n ∧ n ≤ b := by
    refine fun hab n => ⟨?_, fun hn => ⟨_, _, hab, hn⟩⟩
    rintro ⟨a', b', hab', hn⟩
    obtain ⟨rfl, rfl⟩ := bounds_unique hab hab'
    exact hn
  rcases insertElement_cases hcast fuel e links with ⟨a, b, hd, hab, hr⟩ | ⟨a, hd, hab, hr⟩ | ⟨-, t, hr⟩
  · rw [hr, Option.map_eq_some_iff] at h
    obtain ⟨_, hrange, hok⟩ := h
    cases hok
    obtain ⟨hb, hmem⟩ := mem_insertRange hrange
    refine ⟨fun he => hb ((endless_iff hab).1 he).2, ⟨a, b, hab⟩, fun n => ?_⟩
    rw [hmem, listed hab]
  · rw [hr] at h
    cases h
    refine ⟨fun he => hd ((endless_iff hab).1 he).1, ⟨a, a, hab⟩, fun n => ?_⟩
    rw [listed hab, Finset.mem_insert, or_comm, eq_comm, ← UInt32.le_antisymm_iff]
  · rw [hr] at h
    cases h

theorem insertElement_error {fuel : Nat} {e : Bytes} {links : LinkMask} {t : Thrown}
    (h : insertElement lexicalCast fuel e links = some (.error t)) : ¬ WellFormed e := by
  rcases insertElement_cases hcast fuel e links with ⟨a, b, hd, hab, hr⟩ | ⟨a, hd, hab, hr⟩ | ⟨hw, -⟩
  · rw [hr, Option.map_eq_some_iff] at h
    obtain ⟨_, _, hok⟩ := h
    cases hok
  · rw [hr] at h
    cases h
  · exact hw

/-- As much fuel as there are numbers is enough. -/
theorem insertElement_ends {e : Bytes} (he : ¬ Endless e) (links : LinkMask) :
    ∃ r, insertElement lexicalCast (2 ^ 32) e links = some r := by
  rcases insertElement_cases hcast (2 ^ 32) e links with ⟨a, b, hd, hab, hr⟩ | ⟨a, hd, hab, hr⟩ | ⟨hw, t, hr⟩
  · have hb : b ≠ 4294967295 := fun hb => he ((endless_iff hab).2 ⟨hd, hb⟩)
    have hne : b.toNat ≠ 4294967295 := fun h => hb (UInt32.toNat_inj.1 h)
    have := b.toNat_lt
    obtain ⟨result, hrange⟩ := insertRange_ends hb links (show b.toNat + 1 - a.toNat < 2 ^ 32 by omega)
    exact ⟨_, by rw [hr, hrange, Option.map_some]⟩
  · exact ⟨_, hr⟩
  · exact ⟨_, hr⟩

/-! ## The elements -/

theorem insertElements_ok : ∀ {fuel : Nat} {es : List Bytes} {links result : LinkMask},
    insertElements lexicalCast fuel es links = some (.ok result) →
    NoEndless es ∧ (∀ e ∈ es, WellFormed e) ∧ ∀ n, n ∈ result ↔ n ∈ links ∨ Listed es n
  | _, [], _, _, h => by
    cases h
    exact ⟨trivial, fun _ he => absurd he List.not_mem_nil, fun n => by simp [Listed]⟩
  | fuel, e :: es, links, result, h => by
    rw [insertElements] at h
    split at h
    · cases h
    · cases h
    · rename_i after hafter
      obtain ⟨hend, hw, hmem⟩ := insertElement_ok hcast hafter
      obtain ⟨hends, hws, hmems⟩ := insertElements_ok h
      refine ⟨⟨hend, fun _ => hends⟩, List.forall_mem_cons.2 ⟨hw, hws⟩, fun n => ?_⟩
      rw [hmems, hmem, or_assoc]
      simp only [Listed, List.exists_mem_cons_iff]

theorem insertElements_error : ∀ {fuel : Nat} {es : List Bytes} {links : LinkMask} {t : Thrown},
    insertElements lexicalCast fuel es links = some (.error t) → NoEndless es ∧ ∃ e ∈ es, ¬ WellFormed e
  | _, [], _, _, h => by cases h
  | fuel, e :: es, links, t, h => by
    rw [insertElements] at h
    split at h
    · cases h
    · rename_i hthrown
      have hw := insertElement_error hcast hthrown
      exact ⟨⟨fun he => hw (wellFormed_of_endless he), fun h => absurd h hw⟩, e, List.mem_cons_self, hw⟩
    · rename_i after hafter
      obtain ⟨hend, -, -⟩ := insertElement_ok hcast hafter
      obtain ⟨hends, e', he', hw⟩ := insertElements_error h
      exact ⟨⟨hend, fun _ => hends⟩, e', List.mem_cons_of_mem _ he', hw⟩

theorem insertElements_ends : ∀ {es : List Bytes}, NoEndless es → ∀ links,
    ∃ r, insertElements lexicalCast (2 ^ 32) es links = some r
  | [], _, links => ⟨_, rfl⟩
  | e :: es, ⟨he, hes⟩, links => by
    obtain ⟨r, hr⟩ := insertElement_ends hcast he links
    cases r with
    | error t => exact ⟨_, by rw [insertElements, hr]⟩
    | ok after =>
      obtain ⟨r, hafter⟩ := insertElements_ends (hes (insertElement_ok hcast hr).2.1) after
      exact ⟨r, by rw [insertElements, hr]; exact hafter⟩

theorem linkMask_ok {fuel : Nat} {string : Bytes} {links : LinkMask}
    (h : linkMaskFromString lexicalCast fuel string = some (.ok links)) :
    NoEndless (lines comma string) ∧ (∀ e ∈ lines comma string, WellFormed e) ∧
      ∀ n, n ∈ links ↔ Listed (lines comma string) n := by
  obtain ⟨r, hr, hok⟩ := Option.map_eq_some_iff.1 h
  split at hok
  · cases hok
    obtain ⟨hends, hw, hmem⟩ := insertElements_ok hcast hr
    exact ⟨hends, hw, fun n => by rw [hmem]; simp⟩
  · cases hok
  · cases hok

theorem linkMask_error {fuel : Nat} {string : Bytes} {e : ParseException}
    (h : linkMaskFromString lexicalCast fuel string = some (.error e)) :
    NoEndless (lines comma string) ∧ ∃ e ∈ lines comma string, ¬ WellFormed e := by
  obtain ⟨r, hr, herr⟩ := Option.map_eq_some_iff.1 h
  cases r with
  | error t => exact insertElements_error hcast hr
  | ok links => cases herr

theorem linkMask_noEndless {fuel : Nat} {string : Bytes} {r : Except ParseException LinkMask}
    (h : linkMaskFromString lexicalCast fuel string = some r) : NoEndless (lines comma string) := by
  cases r with
  | error e => exact (linkMask_error hcast h).1
  | ok links => exact (linkMask_ok hcast h).1

theorem linkMask_ends {string : Bytes} (h : NoEndless (lines comma string)) :
    ∃ r, linkMaskFromString lexicalCast (2 ^ 32) string = some r := by
  obtain ⟨r, hr⟩ := insertElements_ends hcast h ∅
  exact ⟨_, by rw [linkMaskFromString, hr, Option.map_some]⟩

theorem linkMask_exact {string : Bytes} (h : NoEndless (lines comma string)) : Exact lexicalCast string where
  ends := ⟨2 ^ 32, linkMask_ends hcast h⟩
  throws fuel r hr := by
    cases r with
    | error e => exact ⟨fun _ => (linkMask_error hcast hr).2, fun _ => ⟨e, rfl⟩⟩
    | ok links =>
      refine ⟨?_, fun ⟨e, he, hw⟩ => absurd ((linkMask_ok hcast hr).2.1 e he) hw⟩
      rintro ⟨_, he⟩
      cases he
  returns _ _ hr := (linkMask_ok hcast hr).2.2

/-- Strings that list the same numbers give the same mask. -/
theorem linkMask_eq_of_listed {s t : Bytes} (hs : NoEndless (lines comma s)) (ht : NoEndless (lines comma t))
    (hws : ∀ e ∈ lines comma s, WellFormed e) (hwt : ∀ e ∈ lines comma t, WellFormed e)
    (hst : ∀ n, Listed (lines comma s) n ↔ Listed (lines comma t) n) :
    ∃ links, linkMaskFromString lexicalCast (2 ^ 32) s = some (.ok links) ∧
      linkMaskFromString lexicalCast (2 ^ 32) t = some (.ok links) := by
  have returned : ∀ {u : Bytes}, NoEndless (lines comma u) → (∀ e ∈ lines comma u, WellFormed e) →
      ∃ links, linkMaskFromString lexicalCast (2 ^ 32) u = some (.ok links) := by
    intro u hu hw
    obtain ⟨r, hr⟩ := linkMask_ends hcast hu
    cases r with
    | error e =>
      obtain ⟨e, he, hn⟩ := (linkMask_error hcast hr).2
      exact absurd (hw e he) hn
    | ok links => exact ⟨links, hr⟩
  obtain ⟨links, hlinks⟩ := returned hs hws
  obtain ⟨links', hlinks'⟩ := returned ht hwt
  have same : links' = links := by
    ext n
    rw [(linkMask_ok hcast hlinks').2.2, (linkMask_ok hcast hlinks).2.2, hst]
  exact ⟨links, hlinks, by rw [hlinks', same]⟩

end Conversion

/-- The parsing ends and is exact unless it comes to a range up to the largest number; and then the spelling of the
numbers does not matter. -/
theorem linkMask_exact_iff {lexicalCast : Cast} (hcast : LexicalCast lexicalCast) :
    (∀ string, Exact lexicalCast string ↔ NoEndless (lines comma string)) ∧
    ∀ s t, NoEndless (lines comma s) → NoEndless (lines comma t) →
      (∀ e ∈ lines comma s, WellFormed e) → (∀ e ∈ lines comma t, WellFormed e) →
      (∀ n, Listed (lines comma s) n ↔ Listed (lines comma t) n) →
      ∃ links, linkMaskFromString lexicalCast (2 ^ 32) s = some (.ok links) ∧
        linkMaskFromString lexicalCast (2 ^ 32) t = some (.ok links) := by
  refine ⟨fun string => ⟨fun h => ?_, linkMask_exact hcast⟩, fun s t => linkMask_eq_of_listed hcast⟩
  obtain ⟨fuel, r, hr⟩ := h.ends
  exact linkMask_noEndless hcast hr

/-- A conversion as the code relies on. -/
def exactCast : Cast := fun s =>
  match numeral s with
  | none   => .error "bad lexical cast: source type value could not be interpreted as target"
  | some n => .ok n

theorem exactCast_lexicalCast : LexicalCast exactCast := by
  intro s _ n
  unfold exactCast
  split <;> simp [*]

/-! ## Two spellings of a set -/

/-- Elements and the ranges they stand for. -/
def Spelled : List Bytes → List (UInt32 × UInt32) → Prop := List.Forall₂ fun e r => Bounds e r.1 r.2

theorem wellFormed_of_spelled {es : List Bytes} {rs : List (UInt32 × UInt32)} (h : Spelled es rs) :
    ∀ e ∈ es, WellFormed e := by
  induction h with
  | nil => exact fun _ he => absurd he List.not_mem_nil
  | cons hr _ ih => exact List.forall_mem_cons.2 ⟨⟨_, _, hr⟩, ih⟩

theorem noEndless_of_spelled {es : List Bytes} {rs : List (UInt32 × UInt32)} (h : Spelled es rs)
    (hrs : ∀ r ∈ rs, r.2 ≠ 4294967295) : NoEndless es := by
  induction h with
  | nil => trivial
  | cons hr _ ih =>
    obtain ⟨hne, hrs⟩ := List.forall_mem_cons.1 hrs
    exact ⟨fun he => hne ((endless_iff hr).1 he).2, fun _ => ih hrs⟩

theorem listed_of_spelled {es : List Bytes} {rs : List (UInt32 × UInt32)} (h : Spelled es rs) (n : UInt32) :
    Listed es n ↔ ∃ r ∈ rs, r.1 ≤ n ∧ n ≤ r.2 := by
  induction h with
  | nil => simp [Listed]
  | @cons e r es rs hr _ ih =>
    unfold Listed at ih ⊢
    rw [List.exists_mem_cons_iff, List.exists_mem_cons_iff, ih]
    refine or_congr_left ⟨?_, fun hn => ⟨_, _, hr, hn⟩⟩
    rintro ⟨a, b, hab, hn⟩
    obtain ⟨rfl, rfl⟩ := bounds_unique hr hab
    exact hn

theorem spelled_numbers : Spelled (lines comma (ascii ['0', ',', '1', ',', '4', ',', '5', ',', '6']))
    [(0, 0), (1, 1), (4, 4), (5, 5), (6, 6)] := by
  have number : ∀ {s : Bytes} {n : UInt32}, numeral s = some n → Bounds s n n := fun h => .inl ⟨h, rfl⟩
  exact .cons (number (by decide)) (.cons (number (by decide)) (.cons (number (by decide))
    (.cons (number (by decide)) (.cons (number (by decide)) .nil))))

theorem spelled_ranges : Spelled (lines comma (ascii ['0', '-', '1', ',', '4', '-', '6'])) [(0, 1), (4, 6)] :=
  .cons (.inr ⟨ascii ['0'], ascii ['1'], by decide, by decide, by decide⟩)
    (.cons (.inr ⟨ascii ['4'], ascii ['6'], by decide, by decide, by decide⟩) .nil)

theorem linkMask_exact_iff_spellings :
    Exact exactCast (ascii ['0', '-', '1', ',', '4', '-', '6']) ∧
    ∃ links, linkMaskFromString exactCast (2 ^ 32) (ascii ['0', ',', '1', ',', '4', ',', '5', ',', '6'])
        = some (.ok links) ∧
      linkMaskFromString exactCast (2 ^ 32) (ascii ['0', '-', '1', ',', '4', '-', '6']) = some (.ok links) := by
  obtain ⟨exact_iff, same⟩ := linkMask_exact_iff exactCast_lexicalCast
  have hs := noEndless_of_spelled spelled_numbers (by simp)
  have ht := noEndless_of_spelled spelled_ranges (by simp)
  refine ⟨(exact_iff _).2 ht, same _ _ hs ht (wellFormed_of_spelled spelled_numbers)
    (wellFormed_of_spelled spelled_ranges) fun n => ?_⟩
  rw [listed_of_spelled spelled_numbers, listed_of_spelled spelled_ranges]
  simp only [List.exists_mem_cons_iff, List.not_mem_nil, false_and, exists_false, or_false, UInt32.le_iff_toNat_le,
    UInt32.toNat_ofNat]
  omega

/-- The range of the largest number alone is never left. -/
theorem largest_link_not_exact :
    ¬ Exact exactCast (ascii ['4', '2', '9', '4', '9', '6', '7', '2', '9', '5', '-',
      '4', '2', '9', '4', '9', '6', '7', '2', '9', '5']) := by
  intro h
  obtain ⟨fuel, r, hr⟩ := h.ends
  have hends := (linkMask_noEndless exactCast_lexicalCast hr).1
  refine hends ⟨ascii ['4', '2', '9', '4', '9', '6', '7', '2', '9', '5'],
    ascii ['4', '2', '9', '4', '9', '6', '7', '2', '9', '5'], 4294967295, ?_, ?_, ?_⟩
  · decide
  · decide
  · decide

end Rorc
end Flp
