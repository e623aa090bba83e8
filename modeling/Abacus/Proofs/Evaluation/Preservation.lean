import Abacus.Calculator

/-!
# What calls preserve

A property of calculators that every call of the host preserves is preserved by every evaluation,
however it ends.
-/
namespace Abacus

variable {φ ε : Type}

def Host.Preserves (h : Host φ ε) (P : Calculator φ ε → Prop) : Prop :=
  ∀ f args c, P c → P (h.invoke f args c).2

def Callable.answer (f : Callable φ) : Except Fault Datum → Except Fault Int
  | .ok (.int n) => .ok n
  | .ok d => .error (.type (.result f.title d.typeName))
  | .error e => .error e

theorem Host.run_eq (h : Host φ ε) (f : Callable φ) (args : List Int) (c : Calculator φ ε) :
    h.run f args c = (f.answer (h.invoke f.handle args c).1, (h.invoke f.handle args c).2) := by
  unfold Host.run
  rcases h.invoke f.handle args c with ⟨_ | d, c'⟩
  · rfl
  · cases d <;> rfl

namespace Host.Preserves

variable {h : Host φ ε} {P : Calculator φ ε → Prop} {c : Calculator φ ε}

theorem code (hP : h.Preserves P) (code : Code φ) (args : List Int) (hc : P c) :
    P (code.run h args c).2 := by
  cases code with
  | standard f => exact hc
  | callable f =>
    change P (h.run f args c).2
    rw [h.run_eq]
    exact hP f.handle args c hc

theorem routine (hP : h.Preserves P) (f : Routine φ) (args : List Int) (position : Option Int)
    (hc : P c) : P (f.call h args position c).2 := by
  unfold Routine.call
  split
  · exact hP.code f.code args hc
  · exact hc

theorem advance (hP : h.Preserves P) {e : Formula.Evaluation φ ε} (x : Formula.Lexeme)
    (he : P e.calculator) : P (e.advance h x).calculator := by
  obtain ⟨status, calls, c⟩ := e
  cases status with
  | ended r => exact he
  | reading s =>
    simp only [Formula.Evaluation.advance]
    cases s.read c.symbols x with
    | next s' => exact he
    | stop r => exact he
    | call y s' => exact hP.routine y.routine y.args (some y.pos) he

theorem foldl (hP : h.Preserves P) (xs : List Formula.Lexeme) {e : Formula.Evaluation φ ε}
    (he : P e.calculator) : P (xs.foldl (Formula.Evaluation.advance h) e).calculator := by
  induction xs generalizing e with
  | nil => exact he
  | cons x xs ih => exact ih (hP.advance x he)

/-- What every call preserves, every evaluation preserves. -/
theorem eval (hP : h.Preserves P) (expr : Datum) (hc : P c) : P (c.eval h expr).2 := by
  cases expr with
  | text s => exact hP.foldl (Formula.tokens 0 s.toList) (e := { calculator := c }) hc
  | _ => exact hc

theorem evaluate (hP : h.Preserves P) (expr : Datum) (hc : P c) : P (c.evaluate h expr).2 := by
  have heval := hP.eval expr hc
  unfold Calculator.evaluate
  generalize c.eval h expr = r at heval ⊢
  obtain ⟨r, c'⟩ := r
  cases r <;> exact heval

theorem detached (hP : h.Preserves P) : h.detached.Preserves fun c => P c.env :=
  fun f args c hc => hP f args c.env hc

theorem evaluateOnce (hP : h.Preserves P) (expr : Datum) (bindings : List (String × Datum))
    (functions : List (String × Offer φ)) (hc : P c) :
    P (evaluateOnce h expr bindings functions c).2 := by
  unfold Abacus.evaluateOnce
  cases Symbols.ofBindings bindings functions with
  | error e => exact hc
  | ok s => exact hP.detached.evaluate expr (c := ⟨s, c⟩) hc

end Host.Preserves

end Abacus
