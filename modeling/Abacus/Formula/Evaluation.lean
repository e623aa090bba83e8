import Abacus.Formula.State
import Abacus.Host

/-!
# Evaluation

A formula is evaluated by one fold over its tokens, from left to right. A call is made as soon as
its argument list is closed, in the calculator as it is by then; what the call raises ends the
evaluation. Nothing behind the token at which an evaluation ends is looked at.
-/
namespace Abacus.Formula

variable {φ ε : Type}

inductive Status (φ : Type)
  | reading (s : State φ)
  | ended (e : Ending)

/-- An evaluation under way: where it stands, the calls that it made, the latest first, and the
calculator as they left it. -/
structure Evaluation (φ ε : Type) where
  status : Status φ := .reading {}
  calls : List (Call φ) := []
  calculator : Calculator φ ε

def Call.run (h : Host φ ε) (x : Call φ) (c : Calculator φ ε) :
    Except Fault Int × Calculator φ ε :=
  x.routine.call h x.args (some x.pos) c

/-- Where an evaluation stands once the call that `s` waits for has ended. -/
def State.resume (s : State φ) : Except Fault Int → Status φ
  | .error e => .ended (.fault e)
  | .ok v =>
    match s.receive v with
    | .ok s => .reading s
    | .error e => .ended (.failure e)

namespace Evaluation

def advance (h : Host φ ε) (e : Evaluation φ ε) (x : Lexeme) : Evaluation φ ε :=
  match e.status with
  | .ended _ => e
  | .reading s =>
    match s.read e.calculator.symbols x with
    | .next s => { e with status := .reading s }
    | .stop r => { e with status := .ended r }
    | .call y s =>
      let r := y.run h e.calculator
      ⟨s.resume r.1, y :: e.calls, r.2⟩

def finish (n : Nat) (e : Evaluation φ ε) : Ending :=
  match e.status with
  | .ended r => r
  | .reading s => s.finish e.calculator.symbols n

end Evaluation

def evaluation (h : Host φ ε) (text : List Char) (c : Calculator φ ε) : Evaluation φ ε :=
  (tokens 0 text).foldl (Evaluation.advance h) { calculator := c }

def evaluate (h : Host φ ε) (text : List Char) (c : Calculator φ ε) : Ending × Calculator φ ε :=
  let e := evaluation h text c
  (e.finish text.length, e.calculator)

end Abacus.Formula
