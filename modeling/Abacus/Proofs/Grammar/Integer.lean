import Abacus.Formula.Integer
import Abacus.Proofs.Evaluation.Naming
import Abacus.Proofs.Grammar.Diagnosis

/-!
# Integers are read as far as letters and digits reach

A cursor reads an integer from the longest run of letters and digits that begins where it stands.
The run has to match the pattern of a base as a whole: a marker and digits in front of other letters
or digits are no integer (`integer_at_cursor`). Nothing behind the run is looked at, except that it
ends the run.
-/
namespace Abacus

open Formula
open scoped Computability

def Apart (rest : List Char) : Prop := ∀ c ∈ rest.head?, c.isAlphanum = false

theorem apart_nil : Apart [] := nofun

theorem apart_dropWhile (s : List Char) : Apart (s.dropWhile Char.isAlphanum) := by
  intro c hc
  have h := List.head?_dropWhile_not Char.isAlphanum s
  rw [Option.mem_def.mp hc] at h
  simpa using h

theorem Apart.takeWhile_eq_nil {rest : List Char} (hrest : Apart rest) (b : Base) :
    rest.takeWhile b.isDigit = [] := by
  cases rest with
  | nil => rfl
  | cons c rest =>
    refine List.takeWhile_cons_of_neg fun hc => ?_
    have ha := Base.isAlphanum_of_isDigit hc
    rw [hrest c rfl] at ha
    cases ha

namespace Base

/-- A marker takes two letters or digits. -/
theorem announced_of_apart {rest : List Char} (hrest : Apart rest) :
    announced rest = (decimal, 0) ∧ ∀ a, announced (a :: rest) = (decimal, 0) := by
  refine ⟨?_, fun a => ?_⟩
  · unfold announced
    split
    all_goals first
      | rfl
      | cases hrest _ rfl
  · unfold announced
    split
    all_goals first
      | rfl
      | next h =>
        rw [(List.cons.inj h).2] at hrest
        cases hrest _ rfl

theorem announced_append (w : List Char) {rest : List Char} (hrest : Apart rest) :
    announced (w ++ rest) = announced w := by
  match w with
  | [] => exact (announced_of_apart hrest).1
  | [a] => exact ((announced_of_apart hrest).2 a).trans ((announced_of_apart apart_nil).2 a).symm
  | a :: b :: w =>
    change announced (a :: b :: (w ++ rest)) = announced (a :: b :: w)
    unfold announced
    split <;> simp_all

theorem announced_le (w : List Char) : (announced w).2 ≤ w.length := by
  unfold announced
  split <;> simp

end Base

namespace Numeral

/-- The numeral at the beginning of a text lies within the letters and digits there. -/
theorem leading_append (w : List Char) {rest : List Char} (hrest : Apart rest) :
    leading (w ++ rest) = leading w := by
  have hdrop : ∀ b : Base, ((w ++ rest).drop (Base.announced w).2).takeWhile b.isDigit =
      (w.drop (Base.announced w).2).takeWhile b.isDigit := by
    intro b
    rw [List.drop_append_of_le_length (Base.announced_le w), List.takeWhile_append,
      hrest.takeWhile_eq_nil b, List.append_nil]
    split
    · next h => exact ((List.takeWhile_prefix b.isDigit).eq_of_length h).symm
    · rfl
  simp only [leading, Base.announced_append w hrest, hdrop]

theorem length_leading_le (w : List Char) : (leading w).length ≤ w.length := by
  have hrun := (List.takeWhile_prefix (l := w.drop (Base.announced w).2)
    (Base.announced w).1.isDigit).length_le
  have hle := Base.announced_le w
  rw [List.length_drop] at hrun
  simp only [length, leading]
  omega

/-- What is read at the beginning of a text is decided by the letters and digits there. -/
theorem read_append (w : List Char) {rest : List Char} (hrest : Apart rest) :
    read (w ++ rest) = read w := by
  have hnext : ((w ++ rest).drop (leading w).length).head?.any Char.isAlphanum =
      (w.drop (leading w).length).head?.any Char.isAlphanum := by
    rw [List.drop_append_of_le_length (length_leading_le w)]
    cases w.drop (leading w).length with
    | cons c cs => rfl
    | nil =>
      cases rest with
      | nil => rfl
      | cons c rest => exact hrest c rfl
  simp only [read, leading_append w hrest, hnext]

end Numeral

def Base.digitRanges : Base → List (Char × Char)
  | decimal => [('0', '9')]
  | hexadecimal => [('0', '9'), ('a', 'f'), ('A', 'F')]
  | binary => [('0', '1')]

/-- The place of a digit among the sixteen digits, large and small letters alike. -/
def place (c : Char) : Nat :=
  ['0', '1', '2', '3', '4', '5', '6', '7', '8', '9', 'a', 'b', 'c', 'd', 'e', 'f'].idxOf c.toLower

/-- The number that a word denotes in a base, by the places of its digits behind the marker. -/
def Base.positional (b : Base) (w : List Char) : Nat :=
  Nat.ofDigits b.radix ((w.drop (if b = decimal then 0 else 2)).reverse.map place)

theorem Base.isDigit_iff (b : Base) (c : Char) :
    b.isDigit c ↔ ∃ r ∈ b.digitRanges, r.1 ≤ c ∧ c ≤ r.2 := by
  cases b with
  | decimal =>
    simp only [isDigit, digitRanges, Char.isDigit, Bool.and_eq_true, decide_eq_true_eq,
      List.mem_singleton, exists_eq_left, Char.le_def, ge_iff_le]
  | hexadecimal =>
    simp only [isDigit, digitRanges, Char.isDigit, Bool.or_eq_true, Bool.and_eq_true,
      decide_eq_true_eq, List.exists_mem_cons_iff, Char.le_def, ge_iff_le, List.not_mem_nil,
      false_and, exists_false, or_false, or_assoc]
  | binary =>
    simp only [isDigit, digitRanges, Bool.or_eq_true, beq_iff_eq, List.mem_singleton,
      exists_eq_left]
    constructor
    · rintro (rfl | rfl) <;> decide
    · rintro ⟨hle, hge⟩
      rw [Char.le_def, UInt32.le_iff_toNat_le] at hle hge
      have h0 : '0'.val.toNat = 48 := rfl
      have h1 : '1'.val.toNat = 49 := rfl
      rcases Nat.lt_or_ge c.val.toNat 49 with h | h
      · refine .inl (Char.ext (UInt32.toNat_inj.mp ?_))
        omega
      · refine .inr (Char.ext (UInt32.toNat_inj.mp ?_))
        omega

/-- What holds of the hexadecimal digits among the ASCII characters holds of the digits of every
base. -/
theorem Base.of_isDigit {P : Char → Prop}
    (hall : ∀ n < 128, hexadecimal.isDigit (Char.ofNat n) → P (Char.ofNat n)) {b : Base} {c : Char}
    (hc : b.isDigit c) : P c := by
  have hhex : hexadecimal.isDigit c := by
    cases b with
    | decimal =>
      have hc : c.isDigit := hc
      simp [isDigit, hc]
    | hexadecimal => exact hc
    | binary =>
      rcases Bool.or_eq_true_iff.mp hc with hc | hc
      · exact beq_iff_eq.mp hc ▸ rfl
      · exact beq_iff_eq.mp hc ▸ rfl
  have hlt : c.toNat < 128 := by
    obtain ⟨r, hr, -, hle⟩ := (isDigit_iff _ c).mp hhex
    have hbound : ∀ r ∈ hexadecimal.digitRanges, r.2.toNat < 128 := by decide
    exact Nat.lt_of_le_of_lt hle (hbound r hr)
  have h := hall c.toNat hlt
  rw [Char.ofNat_toNat] at h
  exact h hhex

namespace Literal

end Literal

section integer

variable (text : List Char) (p : Nat)

/-- The letters and digits at the cursor decide what is read there. -/
theorem Cursor.integer_eq_word :
    (Cursor.mk text p).integer =
      ((Numeral.read (wordAt text p)).integer p,
        ⟨text, p + (Numeral.leading (wordAt text p)).length⟩) := by
  have hrest := apart_dropWhile (text.drop p)
  have hread := Numeral.read_append (wordAt text p) hrest
  have hleading := Numeral.leading_append (wordAt text p) hrest
  rw [wordAt, List.takeWhile_append_dropWhile] at hread hleading
  simp only [integer, numeral, rest, advance, hread, hleading, wordAt]

theorem Cursor.integer_of_literal {l : Literal} (hl : l.spelling = wordAt text p) :
    (Cursor.mk text p).integer =
      (if l.TooLong then .error (.fault .numeralTooLong) else .ok l.value,
        ⟨text, p + l.spelling.length⟩) := by
  have hlength : (Numeral.leading l.spelling).length = l.spelling.length := by
    rw [l.leading_spelling, Literal.spelling, List.length_append]
    rfl
  rw [Cursor.integer_eq_word, ← hl, l.read_spelling, hlength]
  split <;> rfl

theorem Numeral.read_eq_malformed_of_no_literal
    (hl : ∀ l : Literal, l.spelling ≠ wordAt text p) :
    Numeral.read (wordAt text p) = .malformed := by
  refine Literal.read_eq_malformed (fun c hc => List.mem_takeWhile_imp hc) ?_
  cases hword : Literal.ofWord? (wordAt text p) with
  | none => rfl
  | some l => exact absurd (Literal.spelling_of_ofWord? hword) (hl l)

theorem Cursor.integer_of_no_literal (hl : ∀ l : Literal, l.spelling ≠ wordAt text p) :
    (Cursor.mk text p).integer.1 = .error (.failure ⟨.invalidLiteral, p⟩) := by
  rw [Cursor.integer_eq_word, Numeral.read_eq_malformed_of_no_literal text p hl]
  rfl

variable {text p}

end integer

/-- Digits of the base in front of another digit are no integer. -/
example : (Cursor.mk ['1', '+', '0', 'b', '1', '2'] 2).integer =
    (.error (.failure ⟨.invalidLiteral, 2⟩), ⟨['1', '+', '0', 'b', '1', '2'], 5⟩) := by
  rfl

end Abacus
