import Abacus.Proofs.Evaluation.Cutting
import Abacus.Script

/-!
# Blanks between tokens

Blanks that do not cut a word leave the tokens of a text as they are, apart from the positions
behind them. A text is therefore evaluated alike with and without them.
-/
namespace Abacus

def Outcome.makeRoom (i k : Nat) (o : Outcome) : Outcome :=
  { o with position := o.position.map fun p : Int => if p < i then p else p + k }

namespace Formula

variable {φ ε : Type}

/-- Moves the positions from `i` on by `k`. -/
def makeRoom (i k p : Nat) : Nat := if p < i then p else p + k

theorem makeRoom_of_lt {i k p : Nat} (h : p < i) : makeRoom i k p = p := if_pos h

theorem makeRoom_of_le {i k p : Nat} (h : i ≤ p) : makeRoom i k p = p + k :=
  if_neg (Nat.not_lt.mpr h)

theorem tokens_blanks_append {w : List Char} (hw : ∀ c ∈ w, isBlank c) (i : Nat)
    (cs : List Char) : tokens i (w ++ cs) = tokens (i + w.length) cs := by
  induction w generalizing i with
  | nil => rfl
  | cons c w ih =>
    obtain ⟨hc, hw⟩ := List.forall_mem_cons.mp hw
    have hpos : i + 1 + w.length = i + (c :: w).length := by
      rw [List.length_cons]
      omega
    rw [List.cons_append, tokens_cons_blank hc, ih hw, hpos]

theorem tokens_insert_blanks {cs w ds : List Char}
    (hcut : ∀ c ∈ cs.getLast?, ∀ d ∈ ds.head?, ¬ (c.isAlphanum ∧ d.isAlphanum))
    (hw : ∀ c ∈ w, isBlank c) :
    tokens 0 (cs ++ (w ++ ds)) =
      (tokens 0 (cs ++ ds)).map (Lexeme.renumber (makeRoom cs.length w.length)) := by
  have hcut' : ∀ c ∈ cs.getLast?, ∀ d ∈ (w ++ ds).head?, ¬ (c.isAlphanum ∧ d.isAlphanum) := by
    cases w with
    | nil => exact hcut
    | cons b w =>
      rintro c - d hd ⟨-, hda⟩
      obtain rfl : b = d := Option.some.inj hd
      have hb : isBlank b = false := isBlank_eq_false_of_isAlphanum hda
      rw [hw b List.mem_cons_self] at hb
      cases hb
  have hbefore : ∀ x ∈ tokens 0 cs, x.renumber (makeRoom cs.length w.length) = x := by
    intro x hx
    have hpos := pos_lt_of_mem_tokens hx
    rw [Nat.zero_add] at hpos
    rw [Lexeme.renumber, makeRoom_of_lt hpos]
  have hbehind : ∀ x ∈ tokens cs.length ds,
      x.renumber (makeRoom cs.length w.length) = x.renumber (· + w.length) := by
    intro x hx
    rw [Lexeme.renumber, makeRoom_of_le (le_pos_of_mem_tokens hx)]
    rfl
  rw [tokens_append hcut', tokens_append hcut, tokens_blanks_append hw, List.map_append,
    List.map_congr_left hbefore, List.map_id', Nat.zero_add, tokens_add,
    List.map_congr_left hbehind]

theorem evaluation_insert_blanks (h : Host φ ε) (c : Calculator φ ε) {cs w ds : List Char}
    (hcut : ∀ c ∈ cs.getLast?, ∀ d ∈ ds.head?, ¬ (c.isAlphanum ∧ d.isAlphanum))
    (hw : ∀ c ∈ w, isBlank c) :
    evaluation h (cs ++ (w ++ ds)) c =
      (evaluation h (cs ++ ds) c).renumber (makeRoom cs.length w.length) := by
  rw [evaluation, tokens_insert_blanks hcut hw, evaluation, ← Evaluation.foldl_renumber]
  rfl

theorem evaluate_insert_blanks (h : Host φ ε) (c : Calculator φ ε) {cs w ds : List Char}
    (hcut : ∀ c ∈ cs.getLast?, ∀ d ∈ ds.head?, ¬ (c.isAlphanum ∧ d.isAlphanum))
    (hw : ∀ c ∈ w, isBlank c) :
    evaluate h (cs ++ (w ++ ds)) c =
      ((evaluate h (cs ++ ds) c).1.renumber (makeRoom cs.length w.length),
        (evaluate h (cs ++ ds) c).2) := by
  have hlength : (cs ++ (w ++ ds)).length = makeRoom cs.length w.length (cs ++ ds).length := by
    rw [makeRoom_of_le (by simp)]
    simp only [List.length_append]
    omega
  rw [evaluate, evaluation_insert_blanks h c hcut hw, hlength]
  simp only [Evaluation.finish_renumber]
  rfl

theorem Ending.toOutcome_renumber (r : Ending) (i k : Nat) :
    (r.renumber (makeRoom i k)).toOutcome = r.toOutcome.map (Outcome.makeRoom i k) := by
  cases r with
  | value n => rfl
  | fault f => rfl
  | failure e =>
    obtain ⟨kind, p⟩ := e
    have hp : ((makeRoom i k p : Nat) : Int) = if (p : Int) < i then (p : Int) else p + k := by
      unfold makeRoom
      split <;> split <;> omega
    simp only [renumber, Failure.renumber, toOutcome, hp, Except.map, Outcome.makeRoom,
      Option.map_some]

/-- Blanks may be put anywhere into a text, well formed or not, except between two letters or
digits. The evaluation makes the same calls, leaves the same calculator, and ends alike; only
positions from there on move. -/
theorem eval_insert_blanks (h : Host φ ε) (c : Calculator φ ε) (a w b : String)
    (hcut : ∀ x ∈ a.toList.getLast?, ∀ y ∈ b.toList.head?, ¬ (x.isAlphanum ∧ y.isAlphanum))
    (hw : ∀ x ∈ w.toList, isBlank x) :
    c.eval h (.text (a ++ w ++ b)) =
        ((c.eval h (.text (a ++ b))).1.map (Outcome.makeRoom a.length w.length),
          (c.eval h (.text (a ++ b))).2) ∧
      (evaluation h (a ++ w ++ b).toList c).calls =
        (evaluation h (a ++ b).toList c).calls.map
          (Call.renumber (makeRoom a.length w.length)) := by
  have htext : (a ++ w ++ b).toList = a.toList ++ (w.toList ++ b.toList) := by
    simp
  have hevaluate := evaluate_insert_blanks h c hcut hw
  have hevaluation := evaluation_insert_blanks h c hcut hw
  rw [String.length_toList, String.length_toList] at hevaluate hevaluation
  refine ⟨?_, ?_⟩
  · simp only [Calculator.eval, htext, hevaluate, Ending.toOutcome_renumber, String.toList_append]
  · rw [htext, hevaluation, String.toList_append]
    rfl

def adder : Calculator Script.Handle Script.Log where
  symbols := ({} : Symbols Script.Handle).putFunction "f"
    (Callable.routine { handle := .script "f" .sum, shown := "f" } 2)
  env := []

/-- Blanks before an operator that fails. -/
theorem eval_insert_blanks_adder :
    (∀ x ∈ "5".toList.getLast?, ∀ y ∈ "%f(7,-7)".toList.head?,
        ¬ (x.isAlphanum ∧ y.isAlphanum)) ∧
      (∀ x ∈ " \t".toList, isBlank x) ∧
      adder.eval (Script.host 1) (.text ("5" ++ " \t" ++ "%f(7,-7)")) =
        (.ok ⟨.failure .divideByZero, some 3⟩, { adder with env := [("f", [7, -7])] }) := by
  have hcut : ∀ x ∈ "5".toList.getLast?, ∀ y ∈ "%f(7,-7)".toList.head?,
      ¬ (x.isAlphanum ∧ y.isAlphanum) := by
    rintro _ ⟨⟩ _ ⟨⟩
    decide
  have hw : ∀ x ∈ " \t".toList, isBlank x := List.all_eq_true.mp rfl
  refine ⟨hcut, hw, ?_⟩
  rw [(eval_insert_blanks (Script.host 1) adder "5" " \t" "%f(7,-7)" hcut hw).1]
  rfl

end Formula

end Abacus
