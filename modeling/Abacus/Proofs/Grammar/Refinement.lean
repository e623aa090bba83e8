import Abacus.Proofs.Grammar.Course
import Abacus.Proofs.Grammar.ReadBack

/-!
# Evaluation is the walk over the derivation

A text that the grammar derives is evaluated as the walk over its derivation says: with the same
value, failure or fault, the same calls in the same order, and the same calculator left behind.
-/
namespace Abacus.Formula

variable {φ ε : Type}

/-- The evaluation of a derivable text ends like the walk over its derivation, makes the same calls
and leaves the same calculator. -/
theorem eval_eq_outcome (h : Host φ ε) (c : Calculator φ ε) (e : Expression) (s : String)
    (he : e.Spells s.toList) :
    c.eval h (.text s) =
        ((e.outcome h c).1.toOutcome, (e.outcome h c).2.calculator) ∧
      evaluate h s.toList c = ((e.outcome h c).1, (e.outcome h c).2.calculator) ∧
      (evaluation h s.toList c).calls = (e.outcome h c).2.calls := by
  have houtcome := e.evaluation_eq_outcome h c (Expression.spells_iff.mp he)
  have hevaluate : evaluate h s.toList c = ((e.outcome h c).1, (e.outcome h c).2.calculator) := by
    rw [← houtcome]
    rfl
  refine ⟨?_, hevaluate, ?_⟩
  · simp only [Calculator.eval, hevaluate]
  · rw [← houtcome]

def doubling : Host Unit Unit where
  invoke _ args c :=
    let n := 2 * args.headD 0
    (.ok (.int n), { c with symbols := c.symbols.putVariable "a" n })

def doubler : Calculator Unit Unit where
  symbols := (({} : Symbols Unit).putVariable "a" 5).putFunction "f"
    (Callable.routine { handle := (), shown := "f" } 1)
  env := ()

def doublingSum : Expression :=
  .add (.term (.signed (.operand (.call (.name ⟨"f", rfl⟩ 0) 1
    (.one (.term (.signed (.sign true 2 (.operand (.atom (.name ⟨"a", rfl⟩ 3))))))) 4))))
    false 6 (.signed (.operand (.atom (.name ⟨"a", rfl⟩ 8))))

theorem eval_doublingSum :
    doublingSum.Spells "f(-a) + a".toList ∧
      (doubler.eval doubling (.text "f(-a) + a")).1 = .ok ⟨.value (-20), none⟩ := by
  have hspells : doublingSum.Spells "f(-a) + a".toList := by
    exact Expression.spells_iff.mpr rfl
  refine ⟨hspells, ?_⟩
  rw [(eval_eq_outcome doubling doubler doublingSum "f(-a) + a" hspells).1]
  rfl

end Abacus.Formula
