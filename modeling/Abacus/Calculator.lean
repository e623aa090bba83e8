import Abacus.Configuration
import Abacus.Formula.Evaluation

/-!
# Calculators

The operations of a calculator: binding, unbinding and evaluation. An expression that fails gives
an outcome; a fault of a host function passes through unchanged.
-/
namespace Abacus

def Formula.Ending.toOutcome : Formula.Ending → Except Fault Outcome
  | .value n => .ok ⟨.value n, none⟩
  | .failure e => .ok ⟨.failure e.kind, some e.pos⟩
  | .fault e => .error e

namespace Calculator

variable {φ ε : Type}

def describe (c : Calculator φ ε) : String :=
  "Calculator(variables=" ++ toString c.symbols.values.size ++ ", functions=" ++
    toString c.symbols.routines.size ++ ")"

/-- Replaces the symbols by what an operation on them gives; if it raises, they stay. -/
def update {α : Type} (c : Calculator φ ε) (r : Except Fault (α × Symbols φ)) :
    Except Fault α × Calculator φ ε :=
  match r with
  | .ok (a, s) => (.ok a, { c with symbols := s })
  | .error e => (.error e, c)

/-- Binds a variable; gives its value before, if the name denoted a variable. -/
def set (c : Calculator φ ε) (name value : Datum) :
    Except Fault (Option Int) × Calculator φ ε :=
  c.update (c.symbols.setVariable name value)

def bindFunction (c : Calculator φ ε) (name : Datum) (offer : Offer φ) (arity : Option Int) :
    Except Fault Unit × Calculator φ ε :=
  c.update ((c.symbols.setFunction name offer arity).map ((), ·))

def install (c : Calculator φ ε) (names : Option (List String)) :
    Except Fault Unit × Calculator φ ε :=
  c.update ((c.symbols.install (Standard.selected names)).map ((), ·))

def unbind (c : Calculator φ ε) (name : String) : Bool × Calculator φ ε :=
  let r := c.symbols.remove name
  (r.1, { c with symbols := r.2 })

def eval (h : Host φ ε) (expr : Datum) (c : Calculator φ ε) :
    Except Fault Outcome × Calculator φ ε :=
  match expr with
  | .text s =>
    let r := Formula.evaluate h s.toList c
    (r.1.toOutcome, r.2)
  | d => (.error (.type (.expression d.typeName)), c)

def evaluate (h : Host φ ε) (expr : Datum) (c : Calculator φ ε) :
    Except Fault Int × Calculator φ ε :=
  match c.eval h expr with
  | (.ok o, c) => (o.unwrap.mapError .evaluation, c)
  | (.error e, c) => (.error e, c)

end Calculator

def Symbols.ofBindings {φ : Type} (bindings : List (String × Datum))
    (functions : List (String × Offer φ)) : Except Fault (Symbols φ) := do
  let s ← ({ bindings } : Configuration).symbols
  functions.foldlM (fun s (name, offer) => s.setFunction (.text name) offer none) s

/-- Evaluates an expression with a calculator made for this one use. Callables cannot see that one;
they run on the calculator `c`. -/
def evaluateOnce {φ ε : Type} (h : Host φ ε) (expr : Datum) (bindings : List (String × Datum))
    (functions : List (String × Offer φ)) (c : Calculator φ ε) :
    Except Fault Int × Calculator φ ε :=
  match Symbols.ofBindings bindings functions with
  | .error e => (.error e, c)
  | .ok s =>
    let r := (Calculator.mk s c).evaluate h.detached expr
    (r.1, r.2.env)

end Abacus
