import Abacus.Proofs.Grammar.Integer

/-!
# What a cursor passes over

A cursor goes onward: each primitive leaves the text as it is, moves the position forwards if at
all, and not beyond the end of the text. What a primitive reports is told by the character that the
cursor shows.
-/
namespace Abacus

theorem drop_length_takeWhile {α : Type} (p : α → Bool) (s : List α) :
    s.drop (s.takeWhile p).length = s.dropWhile p := by
  have hdrop : (s.takeWhile p ++ s.dropWhile p).drop (s.takeWhile p).length = s.dropWhile p :=
    List.drop_left
  rwa [List.takeWhile_append_dropWhile] at hdrop

namespace Cursor

variable {c c₁ c₂ : Cursor} {ch : Char} {cs : List Char}

/-- The cursor has been moved from `c` to `c₁`, within the text if at all. -/
structure Onward (c c₁ : Cursor) : Prop where
  text : c₁.text = c.text
  le : c.pos ≤ c₁.pos
  within : c₁.pos ≤ max c.pos c.text.length

namespace Onward

theorem refl (c : Cursor) : c.Onward c := ⟨rfl, Nat.le_refl _, Nat.le_max_left _ _⟩

theorem trans (h : c.Onward c₁) (h₁ : c₁.Onward c₂) : c.Onward c₂ where
  text := h₁.text.trans h.text
  le := Nat.le_trans h.le h₁.le
  within := by
    have hwithin := h₁.within
    rw [h.text] at hwithin
    exact hwithin.trans (Nat.max_le.mpr ⟨h.within, Nat.le_max_right _ _⟩)

theorem pos_le (h : c.Onward c₁) (hc : c.pos ≤ c.text.length) : c₁.pos ≤ c₁.text.length := by
  rw [h.text]
  exact h.within.trans (Nat.max_le.mpr ⟨hc, Nat.le_refl _⟩)

theorem length_rest_le (h : c.Onward c₁) : c₁.rest.length ≤ c.rest.length := by
  rw [rest, rest, List.length_drop, List.length_drop, h.text]
  exact Nat.sub_le_sub_left h.le _

theorem length_rest_lt (h : c.Onward c₁) (hlt : c.pos < c₁.pos) :
    c₁.rest.length < c.rest.length := by
  have hwithin := h.within
  rw [rest, rest, List.length_drop, List.length_drop, h.text]
  omega

end Onward

theorem onward_advance {n : Nat} (hn : n ≤ c.rest.length) : c.Onward (c.advance n) where
  text := rfl
  le := Nat.le_add_right c.pos n
  within := by
    rw [rest, List.length_drop] at hn
    change c.pos + n ≤ max c.pos c.text.length
    omega

theorem rest_advance (c : Cursor) (n : Nat) : (c.advance n).rest = c.rest.drop n := by
  rw [rest, rest, List.drop_drop]
  rfl

theorem rest_of_peek (h : c.peek = some ch) : c.rest = ch :: (c.advance 1).rest := by
  obtain ⟨rest, hrest⟩ := List.head?_eq_some_iff.mp h
  rw [rest_advance, hrest]
  rfl

theorem onward_of_peek (h : c.peek = some ch) : c.Onward (c.advance 1) := by
  refine onward_advance ?_
  rw [rest_of_peek h]
  exact Nat.succ_le_succ (Nat.zero_le _)

theorem peek_eq_none_iff : c.peek = none ↔ c.atEnd := by
  rw [peek, List.head?_eq_none_iff, rest, List.drop_eq_nil_iff, atEnd, decide_eq_true_iff]

theorem rest_of_peek_eq_none (h : c.peek = none) : c.rest = [] := List.head?_eq_none_iff.mp h

section skipBlanks

theorem rest_skipBlanks (c : Cursor) : c.skipBlanks.2.rest = c.rest.dropWhile isBlank :=
  (c.rest_advance _).trans (drop_length_takeWhile isBlank c.rest)

theorem onward_skipBlanks (c : Cursor) : c.Onward c.skipBlanks.2 :=
  onward_advance (List.takeWhile_prefix isBlank).length_le

theorem skipBlanks_cases (c : Cursor) :
    (c.skipBlanks.1 = true ∧ ∃ ch, c.skipBlanks.2.peek = some ch ∧ isBlank ch = false) ∨
      (c.skipBlanks.1 = false ∧ c.skipBlanks.2.peek = none) := by
  have hatEnd : c.skipBlanks.1 = !c.skipBlanks.2.atEnd := rfl
  cases hpeek : c.skipBlanks.2.peek with
  | none =>
    right
    rw [hatEnd, peek_eq_none_iff.mp hpeek]
    exact ⟨rfl, rfl⟩
  | some ch =>
    left
    refine ⟨?_, ch, rfl, ?_⟩
    · rw [hatEnd, Bool.not_eq_true', Bool.eq_false_iff, Ne, ← peek_eq_none_iff, hpeek]
      exact Option.some_ne_none ch
    · have hnot := List.head?_dropWhile_not isBlank c.rest
      rw [← rest_skipBlanks, ← peek, hpeek] at hnot
      simpa using hnot

end skipBlanks

theorem takeAny_cases (c : Cursor) (cs : List Char) :
    (∃ ch ∈ cs, c.peek = some ch ∧ c.takeAny cs = (some ch, c.advance 1)) ∨
      (∀ ch ∈ c.peek, ch ∉ cs) ∧ c.takeAny cs = (none, c) := by
  cases hpeek : c.peek with
  | none =>
    right
    exact ⟨nofun, by simp only [takeAny, hpeek]⟩
  | some ch =>
    by_cases hch : ch ∈ cs
    · left
      refine ⟨ch, hch, rfl, ?_⟩
      simp only [takeAny, hpeek, List.contains_iff_mem.mpr hch, if_true]
    · right
      refine ⟨fun ch' hch' => Option.some.inj hch' ▸ hch, ?_⟩
      simp only [takeAny, hpeek, if_neg (mt List.contains_iff_mem.mp hch)]

theorem takeShown_cases (c : Cursor) (ch : Char) :
    (c.peek = some ch ∧ c.takeShown [ch] = (true, c.advance 1)) ∨
      (c.peek ≠ some ch ∧ c.takeShown [ch] = (false, c)) := by
  have hshown : c.peek.toList = [ch] ↔ c.peek = some ch := by
    cases c.peek with
    | none => exact ⟨nofun, nofun⟩
    | some x => simp
  by_cases hpeek : c.peek = some ch
  · exact .inl ⟨hpeek, if_pos (hshown.mpr hpeek)⟩
  · exact .inr ⟨hpeek, if_neg (mt hshown.mp hpeek)⟩

theorem onward_takeAny (c : Cursor) (cs : List Char) : c.Onward (c.takeAny cs).2 := by
  rcases c.takeAny_cases cs with ⟨ch, -, hpeek, htake⟩ | ⟨-, htake⟩
  · rw [htake]
    exact onward_of_peek hpeek
  · rw [htake]
    exact .refl c

theorem onward_takeShown (c : Cursor) (ch : Char) : c.Onward (c.takeShown [ch]).2 := by
  rcases c.takeShown_cases ch with ⟨hpeek, htake⟩ | ⟨-, htake⟩
  · rw [htake]
    exact onward_of_peek hpeek
  · rw [htake]
    exact .refl c

theorem onward_takeWhile (c : Cursor) (p : Char → Bool) : c.Onward (c.takeWhile p).2 :=
  onward_advance (List.takeWhile_prefix p).length_le

theorem pos_lt_takeWhile {p : Char → Bool} (h : c.peek.any p) : c.pos < (c.takeWhile p).2.pos := by
  obtain ⟨ch, hch, hp⟩ := (Option.any_eq_true _ _).mp h
  change c.pos < c.pos + (c.rest.takeWhile p).length
  rw [rest_of_peek hch, List.takeWhile_cons_of_pos hp, List.length_cons]
  omega

theorem onward_integer (c : Cursor) : c.Onward c.integer.2 :=
  onward_advance (Numeral.length_leading_le c.rest)

/-- An integer has at least one digit. -/
theorem pos_lt_integer {n : Nat} (h : c.integer.1 = .ok n) : c.pos < c.integer.2.pos := by
  have hdigits : (Numeral.leading c.rest).digits ≠ [] := by
    intro hnil
    have hmalformed : Numeral.read c.rest = .malformed := by
      simp only [Numeral.read, hnil, List.isEmpty_nil, Bool.true_or, if_true]
    have herror : c.integer.1 = .error (.failure ⟨.invalidLiteral, c.pos⟩) :=
      congrArg (Numeral.Reading.integer c.pos) hmalformed
    cases herror.symm.trans h
  have hlength := List.length_pos_iff.mpr hdigits
  change c.pos < c.pos + (Numeral.leading c.rest).length
  rw [Numeral.length]
  omega

end Cursor

end Abacus
