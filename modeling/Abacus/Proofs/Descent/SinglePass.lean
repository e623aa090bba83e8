import Abacus.Proofs.Descent.Agreement
import Abacus.Proofs.Descent.Locality
import Abacus.Proofs.Evaluation.Interruption

/-!
# Evaluation passes over a text once

Two runs on texts that agree up to the character at the cursor are the same run, whatever the texts
go on with: a failure at that character is a failure of both, and the calls of the one are those of
the other (`eval_of_take`).
-/
namespace Abacus.Formula

variable {φ ε : Type}

theorem take_of_begins {α : Type} {s s' : List α} {n : Nat} (hn : n ≤ s.length)
    (h : s.take n <+: s') : s'.take n = s.take n := by
  rw [List.prefix_iff_eq_take, List.length_take_of_le hn] at h
  exact h.symm

/-- A descent that does not come to the end of its text evaluates every text that goes on otherwise
behind the character at the cursor. -/
theorem evaluation_of_descend {h : Host φ ε} {text text' : List Char} {c : Calculator φ ε}
    {r : Except Ending Int} {d : Desk φ ε} (hd : descend h text c = some (r, d))
    (htake : text'.take (d.cursor.pos + 1) = text.take (d.cursor.pos + 1)) :
    evaluate h text' c = (.ofResult r, d.calculator) ∧ (evaluation h text' c).calls = d.calls :=
  evaluation_of_formula (d := d.onText text') ((local_formula h (fuelFor text)).congr hd htake)

/-- A call is made at the parenthesis that closes it, on every text that agrees up to there, behind
the same calls. -/
theorem calls_of_take {h : Host φ ε} {text text' : List Char} {c : Calculator φ ε}
    {later earlier : List (Call φ)} {y : Call φ}
    (hcalls : (evaluation h text c).calls = later ++ y :: earlier)
    (htake : text'.take (y.closing + 1) = text.take (y.closing + 1)) :
    text[y.closing]? = some ')' ∧
      ∃ later', (evaluation h text' c).calls = later' ++ y :: earlier := by
  obtain ⟨before, x, behind, s, s', htokens, hbefore, hread⟩ :=
    Evaluation.exists_of_calls_foldl hcalls
  obtain ⟨hclosing, hclosed, -⟩ := State.of_read_call hread
  obtain rfl : x = ⟨.ofMark ')', y.closing⟩ := by
    rw [State.closing_of_closed? hclosed]
    exact congrArg (Lexeme.mk · x.pos) hclosing
  obtain ⟨hchar, rest, hrest⟩ := tokens_of_take_eq (by decide) (by decide) htokens htake
  refine ⟨hchar, ?_⟩
  let e : Evaluation φ ε := ⟨.reading s, earlier, afterCalls h c earlier⟩
  have hcall : (e.advance h ⟨.ofMark ')', y.closing⟩).calls = y :: earlier := by
    simp only [e, Evaluation.advance, hread]
  obtain ⟨later', hlater⟩ := Evaluation.calls_suffix_foldl h (e.advance h _) rest
  refine ⟨later', ?_⟩
  rw [evaluation, hrest, List.foldl_append, hbefore, List.foldl_cons, ← hlater, hcall]

/-- Evaluation is a single pass. It does what the descent does, and where the cursor of the descent
comes to stand before the end of a text, every text that begins with what is passed over and the
character at the cursor is evaluated alike: with the same error, at the same position, after the
same calls. A call is made at the parenthesis that closes it, and every text that begins like the
first one up to that parenthesis makes it too, after the same calls. -/
theorem eval_of_take (h : Host φ ε) (c : Calculator φ ε) (t : String) :
    ∃ r d, descend h t.toList c = some (r, d) ∧
      c.eval h (.text t) = ((Ending.ofResult r).toOutcome, d.calculator) ∧
      (evaluation h t.toList c).calls = d.calls ∧
      (d.cursor.pos < t.length → ∀ t' : String,
        t.toList.take (d.cursor.pos + 1) <+: t'.toList →
          c.eval h (.text t') = c.eval h (.text t) ∧
            (evaluation h t'.toList c).calls = (evaluation h t.toList c).calls) ∧
      ∀ later y earlier, (evaluation h t.toList c).calls = later ++ y :: earlier →
        t.toList[y.closing]? = some ')' ∧
          ∀ t' : String, t.toList.take (y.closing + 1) <+: t'.toList →
            ∃ later', (evaluation h t'.toList c).calls = later' ++ y :: earlier := by
  obtain ⟨r, d, hd, -, -⟩ := exists_descend h t.toList c
  obtain ⟨heval, hcalls⟩ := evaluation_of_descend hd rfl
  have hvalue : c.eval h (.text t) = ((Ending.ofResult r).toOutcome, d.calculator) := by
    simp only [Calculator.eval, heval]
  refine ⟨r, d, hd, hvalue, hcalls, fun hpos t' ht' => ?_, fun later y earlier hmade => ?_⟩
  · rw [← String.length_toList] at hpos
    obtain ⟨heval', hcalls'⟩ := evaluation_of_descend hd (take_of_begins hpos ht')
    refine ⟨?_, hcalls'.trans hcalls.symm⟩
    rw [hvalue]
    simp only [Calculator.eval, heval']
  · have hclosing := (calls_of_take hmade rfl).1
    refine ⟨hclosing, fun t' ht' => (calls_of_take hmade (take_of_begins ?_ ht')).2⟩
    exact (List.getElem?_eq_some_iff.mp hclosing).1

/-- The cursor stands at what is no operand: whatever follows it is not read. -/
example : (descend (Script.host 1) "f(2,3) + ) 4".toList adder).map (·.2.cursor.pos) = some 9 := by
  decide +kernel

end Abacus.Formula
