import Mathlib.Data.List.Induction
import Mathlib.Data.List.TakeWhile
import Mathlib.Data.Nat.Digits.Defs
import Abacus.Number.Numeral

/-!
# Literals

The grammar of integers, apart from the reader of numerals: digits, or the marker of a base with
digits of that base behind it. A literal denotes the number that its digits have by their places.
`Numeral.read` accepts a word if and only if it is the spelling of a literal, and gives the number
that the literal denotes unless the word is too long.
-/
namespace Abacus

def Base.markers : Base → List (List Char)
  | decimal => [[]]
  | hexadecimal => [['0', 'x'], ['0', 'X']]
  | binary => [['0', 'b'], ['0', 'B']]

structure Literal where
  base : Base
  marker : List Char
  digits : List Char
  marker_mem : marker ∈ base.markers
  digits_ne_nil : digits ≠ []
  isDigit_of_mem : ∀ c ∈ digits, base.isDigit c

namespace Literal

def spelling (l : Literal) : List Char := l.marker ++ l.digits

def value (l : Literal) : Nat :=
  Nat.ofDigits l.base.radix (l.digits.reverse.map digitValue)

def TooLong (l : Literal) : Prop := l.base = .decimal ∧ digitLimit < l.digits.length

instance (l : Literal) : Decidable l.TooLong := inferInstanceAs (Decidable (_ ∧ _))

end Literal

theorem ofDigits_eq_natOfDigits (radix : Nat) (digits : List Char) :
    ofDigits radix digits = Nat.ofDigits radix (digits.reverse.map digitValue) := by
  induction digits using List.reverseRecOn with
  | nil => rfl
  | append_singleton ds d ih =>
    have hstep : ofDigits radix (ds ++ [d]) = ofDigits radix ds * radix + digitValue d := by
      simp [ofDigits]
    rw [hstep, ih, List.reverse_append, List.reverse_singleton, List.singleton_append,
      List.map_cons, Nat.ofDigits_cons, Nat.mul_comm, Nat.add_comm]

theorem Base.isAlphanum_of_isDigit {b : Base} {c : Char} (h : b.isDigit c) : c.isAlphanum := by
  unfold Char.isAlphanum Char.isAlpha Char.isUpper Char.isLower Char.isDigit
  simp only [Bool.or_eq_true, Bool.and_eq_true, decide_eq_true_eq, UInt32.le_iff_toNat_le,
    ge_iff_le]
  cases b with
  | decimal =>
    simp only [Base.isDigit, Char.isDigit, Bool.and_eq_true, decide_eq_true_eq,
      UInt32.le_iff_toNat_le, ge_iff_le] at h
    exact .inr h
  | hexadecimal =>
    simp only [Base.isDigit, Char.isDigit, Bool.or_eq_true, Bool.and_eq_true, decide_eq_true_eq,
      Char.le_def, UInt32.le_iff_toNat_le, ge_iff_le] at h
    have hf : 'f'.val.toNat = 102 := rfl
    have ha : 'a'.val.toNat = 97 := rfl
    have hF : 'F'.val.toNat = 70 := rfl
    have hA : 'A'.val.toNat = 65 := rfl
    have hz : 'z'.val.toNat = 122 := rfl
    have hZ : 'Z'.val.toNat = 90 := rfl
    omega
  | binary =>
    simp only [Base.isDigit, Bool.or_eq_true, beq_iff_eq] at h
    rcases h with rfl | rfl <;> decide

theorem Base.isAlphanum_of_mem_marker (b : Base) {m : List Char} (hm : m ∈ b.markers) {c : Char}
    (hc : c ∈ m) : c.isAlphanum := by
  have hall : b.markers.all fun m => m.all Char.isAlphanum := by
    cases b <;> rfl
  exact List.all_eq_true.mp (List.all_eq_true.mp hall m hm) c hc

theorem Base.announced_digits {ds : List Char} (h : ∀ c ∈ ds, Base.decimal.isDigit c) :
    Base.announced ds = (.decimal, 0) := by
  unfold Base.announced
  split
  all_goals first
    | rfl
    | exact absurd (h _ (List.mem_cons_of_mem _ List.mem_cons_self)) (by decide)

theorem Base.take_announced_mem (w : List Char) :
    w.take (announced w).2 ∈ (announced w).1.markers := by
  unfold Base.announced
  split <;> simp [Base.markers]

namespace Literal

def ofWord? (w : List Char) : Option Literal :=
  let x := Numeral.leading w
  if h : x.digits ≠ [] ∧ w.drop x.length = [] then
    some ⟨x.base, w.take x.marker, x.digits, Base.take_announced_mem w, h.1,
      fun _ hc => List.mem_takeWhile_imp hc⟩
  else none

/-- A marker is a zero with a letter behind it, but a decimal literal has none. -/
theorem marker_cases (l : Literal) :
    (l.base = .decimal ∧ l.marker = []) ∨
      ∃ c, l.marker = ['0', c] ∧ ∀ ds, Base.announced ('0' :: c :: ds) = (l.base, 2) := by
  obtain ⟨base, marker, digits, hm, hne, hd⟩ := l
  cases base with
  | decimal => exact .inl ⟨rfl, by simpa [Base.markers] using hm⟩
  | hexadecimal =>
    obtain rfl | rfl : marker = ['0', 'x'] ∨ marker = ['0', 'X'] := by
      simpa [Base.markers] using hm
    · exact .inr ⟨'x', rfl, fun _ => rfl⟩
    · exact .inr ⟨'X', rfl, fun _ => rfl⟩
  | binary =>
    obtain rfl | rfl : marker = ['0', 'b'] ∨ marker = ['0', 'B'] := by
      simpa [Base.markers] using hm
    · exact .inr ⟨'b', rfl, fun _ => rfl⟩
    · exact .inr ⟨'B', rfl, fun _ => rfl⟩

theorem announced_spelling (l : Literal) :
    Base.announced l.spelling = (l.base, l.marker.length) := by
  rcases l.marker_cases with ⟨hb, hm⟩ | ⟨c, hm, hc⟩
  · rw [spelling, hb, hm]
    exact Base.announced_digits fun d hd => hb ▸ l.isDigit_of_mem d hd
  · rw [spelling, hm]
    exact hc l.digits

theorem leading_spelling (l : Literal) :
    Numeral.leading l.spelling = ⟨l.base, l.marker.length, l.digits⟩ := by
  have hrun : l.digits.takeWhile l.base.isDigit = l.digits :=
    List.takeWhile_eq_self_iff.mpr l.isDigit_of_mem
  have hdrop : l.spelling.drop l.marker.length = l.digits := List.drop_left
  simp only [Numeral.leading, announced_spelling, hdrop, hrun]

/-- A word that spells a literal is read as the number that the literal denotes, if at all. -/
theorem read_spelling (l : Literal) :
    Numeral.read l.spelling = if l.TooLong then .tooLong else .value l.value := by
  have hdrop : l.spelling.drop (l.marker.length + l.digits.length) = [] := by
    simp [spelling]
  have hne : l.digits.isEmpty = false := by simpa using l.digits_ne_nil
  simp only [Numeral.read, leading_spelling, Numeral.length, hdrop, hne, Numeral.value,
    ofDigits_eq_natOfDigits]
  rfl

theorem ofWord?_spelling (l : Literal) : ofWord? l.spelling = some l := by
  have hdrop : l.spelling.drop (l.marker.length + l.digits.length) = [] := by
    simp [spelling]
  have htake : l.spelling.take l.marker.length = l.marker := List.take_left
  simp only [ofWord?, leading_spelling, Numeral.length, hdrop, htake, l.digits_ne_nil,
    ne_eq, not_false_eq_true, and_self, dite_true]

theorem spelling_of_ofWord? {w : List Char} {l : Literal} (h : ofWord? w = some l) :
    l.spelling = w := by
  simp only [ofWord?, Option.dite_none_right_eq_some, Option.some.injEq] at h
  obtain ⟨⟨hne, hdrop⟩, rfl⟩ := h
  let x := Numeral.leading w
  have hprefix : x.digits = (w.drop x.marker).take x.digits.length :=
    List.prefix_iff_eq_take.mp (List.takeWhile_prefix _)
  have hrest : (w.drop x.marker).drop x.digits.length = [] := by
    rw [List.drop_drop]
    exact hdrop
  calc w.take x.marker ++ x.digits
      = w.take x.marker ++ ((w.drop x.marker).take x.digits.length ++
          (w.drop x.marker).drop x.digits.length) := by rw [hrest, List.append_nil, ← hprefix]
    _ = w := by rw [List.take_append_drop, List.take_append_drop]

/-- A run of letters and digits that spells no literal is a malformed numeral. -/
theorem read_eq_malformed {w : List Char} (hw : ∀ c ∈ w, c.isAlphanum)
    (h : ofWord? w = none) : Numeral.read w = .malformed := by
  let x := Numeral.leading w
  have hx : x.digits = [] ∨ w.drop x.length ≠ [] := by
    simp only [ofWord?, dite_eq_right_iff, reduceCtorEq, imp_false] at h
    exact not_and_or.mp h |>.imp not_not.mp id
  have hmal : (x.digits.isEmpty || (w.drop x.length).head?.any Char.isAlphanum) = true := by
    rcases hx with hx | hx
    · simp [hx]
    · obtain ⟨c, cs, hc⟩ := List.exists_cons_of_ne_nil hx
      have hmem : c ∈ w := List.mem_of_mem_drop (hc ▸ List.mem_cons_self)
      simp [hc, hw c hmem]
  exact if_pos hmal

theorem isAlphanum_of_mem_spelling (l : Literal) {c : Char} (hc : c ∈ l.spelling) :
    c.isAlphanum := by
  rcases List.mem_append.mp hc with hc | hc
  · exact Base.isAlphanum_of_mem_marker l.base l.marker_mem hc
  · exact Base.isAlphanum_of_isDigit (l.isDigit_of_mem c hc)

theorem isDigit_head_spelling (l : Literal) : l.spelling.head?.any Char.isDigit := by
  rcases l.marker_cases with ⟨hb, hm⟩ | ⟨c, hm, -⟩
  · obtain ⟨d, ds, hd⟩ := List.exists_cons_of_ne_nil l.digits_ne_nil
    have hdigit : l.base.isDigit d := l.isDigit_of_mem d (hd ▸ List.mem_cons_self)
    rw [spelling, hm, hd]
    rw [hb] at hdigit
    exact hdigit
  · rw [spelling, hm]
    rfl

theorem spelling_ne_nil (l : Literal) : l.spelling ≠ [] :=
  List.append_ne_nil_of_right_ne_nil _ l.digits_ne_nil

end Literal

end Abacus
