import Abacus.Proofs.Evaluation.Arrival
import Abacus.Proofs.Evaluation.Blanks
import Abacus.Proofs.Evaluation.Calls

/-!
# Behind a complete formula

A formula that has a value is complete where it ends: only blanks or an operator can follow. Any
other token fails where it stands, whatever comes behind it, and no call is made any more
(`eval_append_trailing`).
-/
namespace Abacus.Formula

variable {φ ε : Type}

def Token.IsOperator : Token → Prop
  | .sign _ => True
  | .factor _ => True
  | _ => False

theorem mem_of_isOperator_ofMark {ch : Char} (h : (Token.ofMark ch).IsOperator) :
    ch ∈ ['+', '-', '*', '/', '%'] := by
  have hspelling : (Token.ofMark ch).spelling = [ch] := spelling_ofMark
  generalize Token.ofMark ch = t at h hspelling
  cases t with
  | sign minus =>
    obtain rfl := (List.cons.inj hspelling).1
    cases minus <;> decide
  | factor op =>
    cases op <;> (obtain rfl := (List.cons.inj hspelling).1; decide)
  | _ => exact absurd h id

theorem exists_tokens_cons (i : Nat) {ch : Char} (hblank : isBlank ch = false) (cs : List Char) :
    ∃ t xs, tokens i (ch :: cs) = ⟨t, i⟩ :: xs ∧
      (t = .ofMark ch ∧ ch.isAlphanum = false ∨ t.IsWord ∧ ch.isAlphanum) := by
  by_cases ha : ch.isAlphanum
  · rw [tokens_cons_alphanum ha]
    rcases join_cases i ch (tokens (i + 1) cs) with ⟨w, ys, -, hj⟩ | ⟨-, hj⟩
    · exact ⟨_, _, hj, .inr ⟨trivial, ha⟩⟩
    · exact ⟨_, _, hj, .inr ⟨trivial, ha⟩⟩
  · have ha : ch.isAlphanum = false := Bool.not_eq_true _ ▸ ha
    exact ⟨_, _, tokens_cons_mark hblank ha, .inl ⟨rfl, ha⟩⟩

namespace State

/-- The product of a complete formula, if the state is that of one. -/
inductive Complete : State φ → Prop
  | primary {v p : Int} {r : RunningSum} (hv : r.multiply v = .ok p) : Complete ⟨.primary v, r, []⟩
  | product (p : Int) (r : RunningSum) : Complete ⟨.product p, r, []⟩

theorem complete_of_finish {symbols : Symbols φ} {stop : Nat} {s : State φ} {n : Int}
    (h : s.finish symbols stop = .value n) : s.Complete := by
  obtain ⟨phase, sum, enclosures⟩ := s
  have htotal : ∀ p : Int, (if enclosures.isEmpty then Ending.value (sum.add p) else
      .failure ⟨.syntaxError, stop⟩) = .value n → enclosures = [] := by
    intro p hp
    split at hp
    · next hempty => exact List.isEmpty_iff.mp hempty
    · cases hp
  cases phase with
  | arguments => cases h
  | operand => cases h
  | name x pos => cases h
  | primary v =>
    cases hm : sum.multiply v with
    | error e =>
      simp only [finish, hm] at h
      cases h
    | ok p =>
      simp only [finish, hm] at h
      obtain rfl := htotal p h
      exact .primary hm
  | product p =>
    obtain rfl := htotal p h
    exact .product p sum

/-- Outside of all groups and calls nothing but an operator can follow a product. -/
theorem readOperator_of_not_isOperator {x : Lexeme} (hx : ¬ x.token.IsOperator) (p : Int)
    (phase : Phase) (r : RunningSum) :
    readOperator x p (⟨phase, r, []⟩ : State φ) = .fail .syntaxError x.pos := by
  obtain ⟨t, pos⟩ := x
  cases t <;> first | rfl | exact absurd trivial hx

theorem Complete.read {s : State φ} (hs : s.Complete) {x : Lexeme} (hx : ¬ x.token.IsOperator)
    (symbols : Symbols φ) : s.read symbols x = .fail .syntaxError x.pos := by
  cases hs with
  | primary hv =>
    by_cases hopening : x.token = .opening
    · simp only [State.read, if_pos hopening]
    · simp only [State.read, if_neg hopening, hv]
      exact readOperator_of_not_isOperator hx _ _ _
  | product p r => exact readOperator_of_not_isOperator hx p _ r

end State

/-- An evaluation that has a value is under way up to the end of its text, in a complete state. -/
theorem exists_complete_of_value {h : Host φ ε} {text : List Char} {c : Calculator φ ε} {n : Int}
    (hn : (evaluate h text c).1 = .value n) :
    ∃ s : State φ, s.Complete ∧ evaluation h text c =
      ⟨.reading s, (evaluation h text c).calls, (evaluate h text c).2⟩ := by
  rcases evaluation_cases h c text with
    ⟨s, ⟨calls, hs⟩, hfinish⟩ | ⟨before, x, behind, s, c₁, -, -, hleads⟩
  · refine ⟨s, State.complete_of_finish (hfinish.symm.trans hn), ?_⟩
    have hevaluation : evaluation h text c = ⟨.reading s, calls, (evaluate h text c).2⟩ := hs
    rw [hevaluation]
  · rw [hn] at hleads
    cases hleads with
    | stop hread => exact absurd hread State.stop_ne_value

/-- What follows a text that has a value fails at its first character, unless that is a blank or an
operator. The evaluation makes the calls of that text and no others. -/
theorem evaluation_append_trailing {h : Host φ ε} {c : Calculator φ ε} {text : List Char} {n : Int}
    (hn : (evaluate h text c).1 = .value n) {ch : Char} (hblank : isBlank ch = false)
    (hoperator : ch ∉ ['+', '-', '*', '/', '%']) (cs : List Char) :
    evaluation h (text ++ ' ' :: ch :: cs) c =
      ⟨.ended (.failure ⟨.syntaxError, text.length + 1⟩), (evaluation h text c).calls,
        (evaluate h text c).2⟩ := by
  obtain ⟨s, hs, hevaluation⟩ := exists_complete_of_value hn
  obtain ⟨t, xs, hxs, ht⟩ := exists_tokens_cons (text.length + 1) hblank cs
  have hnot : ¬ t.IsOperator := by
    rcases ht with ⟨rfl, -⟩ | ⟨hword, -⟩
    · exact fun hmark => hoperator (mem_of_isOperator_ofMark hmark)
    · cases t with
      | word w => exact id
      | _ => exact absurd hword id
  have htokens : tokens 0 (text ++ ' ' :: ch :: cs) =
      tokens 0 text ++ ⟨t, text.length + 1⟩ :: xs := by
    have hspace : ∀ d ∈ (' ' :: ch :: cs).head?, d = ' ' := by
      rintro d ⟨⟩
      rfl
    rw [tokens_append, tokens_cons_blank (by decide), Nat.zero_add, hxs]
    rintro e - d hd ⟨-, hda⟩
    rw [hspace d hd] at hda
    cases hda
  refine evaluation_of_ended htokens hevaluation ?_ rfl
  simp only [Evaluation.advance, hs.read (x := ⟨t, text.length + 1⟩) hnot, Step.fail]

/-- A text that has a value, followed by anything but a blank or an operator, fails there. Only the
calls of that text are made, and the calculator is left as it leaves it. -/
theorem eval_append_trailing (h : Host φ ε) (c : Calculator φ ε) (e s : String) (n : Int)
    (p : Option Int) (hn : (c.eval h (.text e)).1 = .ok ⟨.value n, p⟩) (ch : Char)
    (hch : s.toList.head? = some ch) (hblank : isBlank ch = false)
    (hoperator : ch ∉ ['+', '-', '*', '/', '%']) :
    c.eval h (.text (e ++ " " ++ s)) =
        (.ok ⟨.failure .syntaxError, some (e.length + 1 : Nat)⟩, (c.eval h (.text e)).2) ∧
      (evaluation h (e ++ " " ++ s).toList c).calls = (evaluation h e.toList c).calls := by
  have hvalue : (evaluate h e.toList c).1 = .value n := Ending.eq_value_of_toOutcome hn
  obtain ⟨cs, hcs⟩ := List.head?_eq_some_iff.mp hch
  have htext : (e ++ " " ++ s).toList = e.toList ++ ' ' :: ch :: cs := by
    simp [hcs]
  have hevaluation := evaluation_append_trailing hvalue hblank hoperator cs
  rw [← htext] at hevaluation
  refine ⟨?_, ?_⟩
  · rw [eval_of_ended hevaluation, String.length_toList]
    rfl
  · rw [hevaluation]

/-- A call that follows a complete formula is not made. -/
theorem eval_append_trailing_call :
    (adder.eval (Script.host 1) (.text "1+f(2,3)")).1 = .ok ⟨.value 6, none⟩ ∧
      "f(4,5)".toList.head? = some 'f' ∧ isBlank 'f' = false ∧
      'f' ∉ ['+', '-', '*', '/', '%'] ∧
      adder.eval (Script.host 1) (.text ("1+f(2,3)" ++ " " ++ "f(4,5)")) =
        (.ok ⟨.failure .syntaxError, some 9⟩, { adder with env := [("f", [2, 3])] }) := by
  have hvalue : (adder.eval (Script.host 1) (.text "1+f(2,3)")).1 = .ok ⟨.value 6, none⟩ := rfl
  refine ⟨hvalue, rfl, rfl, by decide, ?_⟩
  rw [(eval_append_trailing (Script.host 1) adder "1+f(2,3)" "f(4,5)" 6 none hvalue 'f' rfl rfl
    (by decide)).1]
  rfl

end Abacus.Formula
