import Abacus.Proofs.Evaluation.Calls
import Abacus.Proofs.Evaluation.Cutting
import Abacus.Proofs.Evaluation.Preservation
import Abacus.Script

/-!
# Interruption

A call that raises a fault is the last call of its evaluation: the fault leaves the evaluation as it
is, with the calculator as the call has left it. What stands behind the call in the text is never
read (`eval_of_call_error`).
-/
namespace Abacus.Formula

variable {φ ε : Type}

theorem Call.run_callable (h : Host φ ε) {y : Call φ} (hy : y.args.length = y.routine.arity)
    {g : Callable φ} (hg : y.routine.code = .callable g) (c : Calculator φ ε) :
    y.run h c =
      (g.answer (h.invoke g.handle y.args c).1, (h.invoke g.handle y.args c).2) := by
  rw [y.run_eq_code_run h hy, hg]
  exact h.run_eq g y.args c

theorem evaluation_of_call_error {h : Host φ ε} {c c₁ : Calculator φ ε} {text : List Char}
    {before behind : List Lexeme} {x : Lexeme} {s s' : State φ} {y : Call φ}
    {earlier : List (Call φ)} {f : Fault} (htokens : tokens 0 text = before ++ x :: behind)
    (hbefore : before.foldl (Evaluation.advance h) { calculator := c } =
      ⟨.reading s, earlier, c₁⟩)
    (hread : s.read c₁.symbols x = .call y s') (hf : (y.run h c₁).1 = .error f) :
    evaluation h text c = ⟨.ended (.fault f), y :: earlier, (y.run h c₁).2⟩ := by
  have hended : (⟨.reading s, earlier, c₁⟩ : Evaluation φ ε).advance h x =
      ⟨.ended (.fault f), y :: earlier, (y.run h c₁).2⟩ := by
    simp only [Evaluation.advance, hread, hf, State.resume]
  exact evaluation_of_ended htokens hbefore hended rfl

/-- If one of the calls of an evaluation raises a fault, it is the last one. The evaluation raises
this very fault and leaves the calculator as the call has left it. So does the evaluation of any
other text that agrees with the first one up to the parenthesis that closes the call; it makes the
same calls. A callable raises what it raises to the host, or else the answer is no integer. -/
theorem eval_of_call_error (h : Host φ ε) (c : Calculator φ ε) (t : String)
    {later earlier : List (Call φ)} {y : Call φ} {f : Fault}
    (hcalls : (evaluation h t.toList c).calls = later ++ y :: earlier)
    (hf : (y.run h (afterCalls h c earlier)).1 = .error f) :
    later = [] ∧
      c.eval h (.text t) = (.error f, (y.run h (afterCalls h c earlier)).2) ∧
      (∀ g, y.routine.code = .callable g → y.run h (afterCalls h c earlier) =
        (g.answer (h.invoke g.handle y.args (afterCalls h c earlier)).1,
          (h.invoke g.handle y.args (afterCalls h c earlier)).2)) ∧
      t.toList[y.closing]? = some ')' ∧
      ∀ t' : String, t'.toList.take (y.closing + 1) = t.toList.take (y.closing + 1) →
        (evaluation h t'.toList c).calls = y :: earlier ∧
          c.eval h (.text t') = (.error f, (y.run h (afterCalls h c earlier)).2) := by
  obtain ⟨before, x, behind, s, s', htokens, hbefore, hread⟩ :=
    Evaluation.exists_of_calls_foldl hcalls
  obtain ⟨hclosing, hclosed, harity⟩ := State.of_read_call hread
  have hx : x = ⟨.ofMark ')', y.closing⟩ := by
    rw [State.closing_of_closed? hclosed]
    exact congrArg (Lexeme.mk · x.pos) hclosing
  subst hx
  have hother : ∀ t' : String, t'.toList.take (y.closing + 1) = t.toList.take (y.closing + 1) →
      evaluation h t'.toList c =
        ⟨.ended (.fault f), y :: earlier, (y.run h (afterCalls h c earlier)).2⟩ := by
    intro t' ht'
    obtain ⟨-, rest, hrest⟩ := tokens_of_take_eq (by decide) (by decide) htokens ht'
    exact evaluation_of_call_error hrest hbefore hread hf
  refine ⟨?_, eval_of_ended (hother t rfl), fun g hg => y.run_callable h harity hg _,
    (tokens_of_take_eq (by decide) (by decide) htokens rfl).1, fun t' ht' => ?_⟩
  · rw [hother t rfl] at hcalls
    exact List.self_eq_append_left.mp hcalls
  · exact ⟨by rw [hother t' ht'], eval_of_ended (hother t' ht')⟩

def binder : Routine Script.Handle :=
  Callable.routine { handle := .script "s" (.set (.text "n")), shown := "s" } 1

def divider : Routine Script.Handle :=
  Callable.routine { handle := .script "g" (.evaluate (.text "n / 0")), shown := "g" } 1

def interrupted : Calculator Script.Handle Script.Log where
  symbols := (({} : Symbols Script.Handle).putFunction "s" binder).putFunction "g" divider
  env := []

/-- The failure of a formula that a function evaluates, in the middle of a malformed text. -/
theorem eval_of_call_error_divider :
    (evaluation (Script.host 2) "s(7) + g(2) * ((".toList interrupted).calls =
        [] ++ ⟨divider, [2], 7, 10⟩ :: [⟨binder, [7], 0, 3⟩] ∧
      ((Call.mk divider [2] 7 10).run (Script.host 2)
        (afterCalls (Script.host 2) interrupted [⟨binder, [7], 0, 3⟩])).1 =
          .error (.evaluation ⟨.divideByZero, some 2⟩) ∧
      (interrupted.eval (Script.host 2) (.text "s(7) + g(2)")).1 =
        .error (.evaluation ⟨.divideByZero, some 2⟩) := by
  have hcalls : (evaluation (Script.host 2) "s(7) + g(2) * ((".toList interrupted).calls =
      [] ++ ⟨divider, [2], 7, 10⟩ :: [⟨binder, [7], 0, 3⟩] := rfl
  have hf : ((Call.mk divider [2] 7 10).run (Script.host 2)
      (afterCalls (Script.host 2) interrupted [⟨binder, [7], 0, 3⟩])).1 =
        .error (.evaluation ⟨.divideByZero, some 2⟩) := rfl
  obtain ⟨-, -, -, -, hother⟩ :=
    eval_of_call_error (Script.host 2) interrupted "s(7) + g(2) * ((" hcalls hf
  refine ⟨hcalls, hf, ?_⟩
  rw [(hother "s(7) + g(2)" rfl).2]

end Abacus.Formula
