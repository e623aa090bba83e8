import Abacus.Proofs.Descent.Cursor

/-!
# Passages of a cursor

A cursor is driven through a text by its primitives, in any order and with any arguments. Each step
passes over what it reports to have matched and over nothing else (`Primitive.exact_passage`), so
that all steps together pass over the text up to where the cursor stands (`passages_exact`). What a
step has to report is said here by the text and the positions alone.
-/
namespace Abacus

/-- What can be done with a cursor. The text that is to be found in one place is not empty: an empty
one would be found at the end of the text, and lead beyond it. -/
inductive Primitive
  | skipBlanks
  | peek
  | atEnd
  | take (s : List Char)
  | takeShown (s : List Char) (hs : s ≠ [])
  | takeAny (cs : List Char)
  | takeWhile (p : Char → Bool)

inductive Report
  | answer (b : Bool)
  | character (ch : Option Char)
  | run (cs : List Char)

structure Passage where
  primitive : Primitive
  report : Report
  before : Cursor
  after : Cursor

namespace Primitive

def run (c : Cursor) : Primitive → Report × Cursor
  | skipBlanks => (.answer c.skipBlanks.1, c.skipBlanks.2)
  | peek => (.character c.peek, c)
  | atEnd => (.answer c.atEnd, c)
  | take s => (.answer (c.take s).1, (c.take s).2)
  | takeShown s _ => (.answer (c.takeShown s).1, (c.takeShown s).2)
  | takeAny cs => (.character (c.takeAny cs).1, (c.takeAny cs).2)
  | takeWhile p => (.run (c.takeWhile p).1, (c.takeWhile p).2)

def passage (x : Primitive) (c : Cursor) : Passage := ⟨x, (x.run c).1, c, (x.run c).2⟩

end Primitive

namespace Cursor

def passages (c : Cursor) : List Primitive → List Passage
  | [] => []
  | x :: xs => x.passage c :: (x.run c).2.passages xs

def drive (c : Cursor) (xs : List Primitive) : Cursor := xs.foldl (fun c x => (x.run c).2) c

end Cursor

namespace Passage

def slice (x : Passage) : List Char := x.before.text.extract x.before.pos x.after.pos

def matched? (x : Passage) : Option (List Char) :=
  match x.primitive, x.report with
  | .take s, .answer true => some s
  | .takeShown s _, .answer true => some s
  | .takeAny _, .character (some ch) => some [ch]
  | .takeWhile _, .run cs => some cs
  | _, _ => none

/-- What a step has to report that leads from position `p` of the text to position `q`. -/
def Tells (text : List Char) (p q : Nat) : Primitive → Report → Prop
  | .skipBlanks, r =>
    (∀ ch ∈ text.extract p q, isBlank ch) ∧ (∀ ch ∈ text[q]?, ¬ isBlank ch) ∧
      r = .answer (decide (q < text.length))
  | .peek, r => r = .character text[p]?
  | .atEnd, r => r = .answer (decide (p = text.length))
  | .take s, r => r = .answer (s.isPrefixOf (text.drop p))
  | .takeShown s _, r => r = .answer (decide (text[p]?.toList = s))
  | .takeAny cs, r => r = .character (text[p]?.filter cs.contains)
  | .takeWhile pred, r =>
    r = .run (text.extract p q) ∧ (∀ ch ∈ text.extract p q, pred ch) ∧ ∀ ch ∈ text[q]?, ¬ pred ch

/-- The step goes onward within the text. It passes over the text that it reports to have matched;
if it reports none, the cursor stays, except that blanks are passed over without a report. -/
structure Exact (text : List Char) (x : Passage) : Prop where
  text_before : x.before.text = text
  text_after : x.after.text = text
  le : x.before.pos ≤ x.after.pos
  le_length : x.after.pos ≤ text.length
  matched : ∀ s, x.matched? = some s → x.slice = s ∧ x.after.pos = x.before.pos + s.length
  stays : x.matched? = none → x.primitive ≠ .skipBlanks → x.after = x.before
  tells : Tells text x.before.pos x.after.pos x.primitive x.report

end Passage

namespace Cursor

variable (c : Cursor)

theorem peek_eq_getElem? : c.peek = c.text[c.pos]? := List.head?_drop

theorem extract_advance (n : Nat) : c.text.extract c.pos (c.advance n).pos = c.rest.take n := by
  rw [List.extract_eq_take_drop]
  exact congrArg (c.rest.take ·) (Nat.add_sub_cancel_left c.pos n)

theorem extract_takeWhile (p : Char → Bool) :
    c.text.extract c.pos (c.takeWhile p).2.pos = c.rest.takeWhile p ∧
      ∀ ch ∈ c.text[(c.takeWhile p).2.pos]?, ¬ p ch := by
  have hnext : c.text[(c.takeWhile p).2.pos]? = (c.rest.dropWhile p).head? := by
    rw [← drop_length_takeWhile, ← rest_advance]
    exact (c.takeWhile p).2.peek_eq_getElem?.symm
  refine ⟨(c.extract_advance _).trans ?_, fun ch hch => ?_⟩
  · exact (List.prefix_iff_eq_take.mp (List.takeWhile_prefix p)).symm
  · have hnot := List.head?_dropWhile_not p c.rest
    rw [← hnext, hch] at hnot
    exact Bool.eq_false_iff.mp hnot

theorem take_cases (s : List Char) (hc : c.pos ≤ c.text.length) :
    (s <+: c.rest ∧ c.take s = (true, c.advance s.length)) ∨
      (¬ s <+: c.rest ∧ c.take s = (false, c)) := by
  by_cases hs : s <+: c.rest
  · exact .inl ⟨hs, if_pos ⟨hc, List.isPrefixOf_iff_prefix.mpr hs⟩⟩
  · exact .inr ⟨hs, if_neg fun h => hs (List.isPrefixOf_iff_prefix.mp h.2)⟩

/-- Only a single character can be found in one place. -/
theorem takeShown_text_cases {s : List Char} (hs : s ≠ []) :
    (∃ ch, s = [ch] ∧ c.peek = some ch ∧ c.takeShown s = (true, c.advance 1)) ∨
      (c.peek.toList ≠ s ∧ c.takeShown s = (false, c)) := by
  by_cases hshown : c.peek.toList = s
  · have htake : c.takeShown s = (true, c.advance 1) := if_pos hshown
    cases hpeek : c.peek with
    | none => exact absurd (hpeek ▸ hshown).symm hs
    | some ch => exact .inl ⟨ch, (hpeek ▸ hshown).symm, rfl, htake⟩
  · exact .inr ⟨hshown, if_neg hshown⟩

theorem singleton_prefix_of_peek {c : Cursor} {ch : Char} (h : c.peek = some ch) :
    [ch] <+: c.rest := ⟨_, (rest_of_peek h).symm⟩

end Cursor

namespace Primitive

variable (x : Primitive) {c : Cursor}

/-- Blanks apart, a step reports a match, which begins the rest of the text, and passes over it, or
it reports none and passes over nothing. -/
theorem run_cases (hc : c.pos ≤ c.text.length) (hx : x ≠ .skipBlanks) :
    (∃ s, (x.passage c).matched? = some s ∧ s <+: c.rest ∧ (x.run c).2 = c.advance s.length) ∨
      ((x.passage c).matched? = none ∧ (x.run c).2 = c) := by
  cases x with
  | skipBlanks => exact absurd rfl hx
  | peek => exact .inr ⟨rfl, rfl⟩
  | atEnd => exact .inr ⟨rfl, rfl⟩
  | take s =>
    rcases c.take_cases s hc with ⟨hs, htake⟩ | ⟨-, htake⟩
    · exact .inl ⟨s, by simp only [passage, run, Passage.matched?, htake], hs,
        by simp only [run, htake]⟩
    · exact .inr (by simp only [passage, run, Passage.matched?, htake, and_self])
  | takeShown s hs =>
    rcases c.takeShown_text_cases hs with ⟨ch, rfl, hpeek, htake⟩ | ⟨-, htake⟩
    · exact .inl ⟨[ch], by simp only [passage, run, Passage.matched?, htake],
        Cursor.singleton_prefix_of_peek hpeek, by simp only [run, htake, List.length_singleton]⟩
    · exact .inr (by simp only [passage, run, Passage.matched?, htake, and_self])
  | takeAny cs =>
    rcases c.takeAny_cases cs with ⟨ch, -, hpeek, htake⟩ | ⟨-, htake⟩
    · exact .inl ⟨[ch], by simp only [passage, run, Passage.matched?, htake],
        Cursor.singleton_prefix_of_peek hpeek, by simp only [run, htake, List.length_singleton]⟩
    · exact .inr (by simp only [passage, run, Passage.matched?, htake, and_self])
  | takeWhile p => exact .inl ⟨_, rfl, List.takeWhile_prefix p, rfl⟩

theorem onward_run (hc : c.pos ≤ c.text.length) : c.Onward (x.run c).2 := by
  by_cases hx : x = .skipBlanks
  · subst hx
    exact c.onward_skipBlanks
  · rcases x.run_cases hc hx with ⟨s, -, hs, hrun⟩ | ⟨-, hrun⟩
    · rw [hrun]
      exact Cursor.onward_advance hs.length_le
    · rw [hrun]
      exact .refl c

theorem tells_run (hc : c.pos ≤ c.text.length) :
    Passage.Tells c.text c.pos (x.run c).2.pos x (x.run c).1 := by
  cases x with
  | skipBlanks =>
    obtain ⟨hslice, hnext⟩ := c.extract_takeWhile isBlank
    refine ⟨fun ch hch => List.mem_takeWhile_imp (hslice ▸ hch), hnext, ?_⟩
    exact congrArg Report.answer (decide_not.symm.trans (decide_eq_decide.mpr Nat.not_le))
  | peek => exact congrArg Report.character c.peek_eq_getElem?
  | atEnd =>
    refine congrArg Report.answer (decide_eq_decide.mpr ?_)
    omega
  | take s =>
    refine congrArg Report.answer (Bool.eq_iff_iff.mpr ?_)
    rw [List.isPrefixOf_iff_prefix]
    rcases c.take_cases s hc with ⟨hs, htake⟩ | ⟨hs, htake⟩
    · rw [htake]
      exact iff_of_true rfl hs
    · rw [htake]
      exact iff_of_false Bool.false_ne_true hs
  | takeShown s hs =>
    refine congrArg Report.answer (Bool.eq_iff_iff.mpr (Iff.trans ?_ decide_eq_true_iff.symm))
    rw [← c.peek_eq_getElem?]
    rcases c.takeShown_text_cases hs with ⟨ch, rfl, hpeek, htake⟩ | ⟨hne, htake⟩
    · rw [htake, hpeek]
      exact iff_of_true rfl rfl
    · rw [htake]
      exact iff_of_false Bool.false_ne_true hne
  | takeAny cs =>
    refine congrArg Report.character ?_
    rw [← c.peek_eq_getElem?]
    rcases c.takeAny_cases cs with ⟨ch, hch, hpeek, htake⟩ | ⟨hnot, htake⟩
    · rw [htake, hpeek]
      exact (Option.filter_some_pos (List.contains_iff_mem.mpr hch)).symm
    · rw [htake]
      refine (Option.filter_eq_none_iff.mpr fun ch hch hmem => ?_).symm
      exact hnot ch hch (List.contains_iff_mem.mp hmem)
  | takeWhile p =>
    obtain ⟨hslice, hnext⟩ := c.extract_takeWhile p
    refine ⟨congrArg Report.run hslice.symm, fun ch hch => ?_, hnext⟩
    exact List.mem_takeWhile_imp (hslice ▸ hch)

theorem exact_passage (hc : c.pos ≤ c.text.length) : (x.passage c).Exact c.text where
  text_before := rfl
  text_after := (x.onward_run hc).text
  le := (x.onward_run hc).le
  le_length := (x.onward_run hc).text ▸ (x.onward_run hc).pos_le hc
  matched s hs := by
    have hx : x ≠ .skipBlanks := by
      rintro rfl
      cases hs
    rcases x.run_cases hc hx with ⟨t, ht, hprefix, hrun⟩ | ⟨hnone, -⟩
    · obtain rfl : t = s := Option.some.inj (ht.symm.trans hs)
      change c.text.extract c.pos (x.run c).2.pos = t ∧ (x.run c).2.pos = _
      rw [hrun]
      exact ⟨(c.extract_advance _).trans (List.prefix_iff_eq_take.mp hprefix).symm, rfl⟩
    · cases hnone.symm.trans hs
  stays hnone hx := by
    rcases x.run_cases hc hx with ⟨s, hs, -, -⟩ | ⟨-, hrun⟩
    · cases hnone.symm.trans hs
    · exact hrun
  tells := x.tells_run hc

end Primitive

theorem Cursor.take_append_slices {c : Cursor} (hc : c.pos ≤ c.text.length) (xs : List Primitive) :
    c.text.take c.pos ++ ((c.passages xs).map Passage.slice).flatten =
      c.text.take (c.drive xs).pos := by
  induction xs generalizing c with
  | nil => exact List.append_nil _
  | cons x xs ih =>
    have honward := x.onward_run hc
    have hstep : c.text.take c.pos ++ (x.passage c).slice = c.text.take (x.run c).2.pos := by
      change c.text.take c.pos ++ c.text.extract c.pos (x.run c).2.pos = _
      rw [List.extract_eq_take_drop, ← List.take_add, Nat.add_sub_cancel' honward.le]
    have ih := ih (honward.pos_le hc)
    rw [honward.text] at ih
    rw [passages, List.map_cons, List.flatten_cons, ← List.append_assoc, hstep]
    exact ih

theorem Cursor.exact_of_mem_passages {c : Cursor} (hc : c.pos ≤ c.text.length)
    (xs : List Primitive) : ∀ x ∈ c.passages xs, x.Exact c.text := by
  induction xs generalizing c with
  | nil => exact nofun
  | cons x xs ih =>
    have honward := x.onward_run hc
    have ih := ih (honward.pos_le hc)
    rw [honward.text] at ih
    exact List.forall_mem_cons.mpr ⟨x.exact_passage hc, ih⟩

/-- However a new cursor is driven through a text, each step goes onward within the text, passes
over exactly what it reports to have matched, and reports what the text says. Together the steps
pass over the text up to where the cursor stands. -/
theorem passages_exact (text : List Char) (xs : List Primitive) :
    (∀ x ∈ (Cursor.mk text 0).passages xs, x.Exact text) ∧
      (((Cursor.mk text 0).passages xs).map Passage.slice).flatten =
        text.take ((Cursor.mk text 0).drive xs).pos := by
  have hc : (Cursor.mk text 0).pos ≤ text.length := Nat.zero_le _
  exact ⟨Cursor.exact_of_mem_passages hc xs, Cursor.take_append_slices hc xs⟩

/-- An empty text is found at the end, where the cursor shows nothing. -/
example : (Cursor.mk ['a'] 1).takeShown [] = (true, ⟨['a'], 2⟩) := rfl

end Abacus
