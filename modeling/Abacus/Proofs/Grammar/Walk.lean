import Abacus.Proofs.Evaluation.Fairness
import Abacus.Proofs.Grammar.Tree

/-!
# Walking a derivation

The meaning of a derivation, apart from the way in which texts are evaluated: a walk over the tree
from left to right, in which each rule of the grammar computes its value from the values of its
parts. A walk makes the calls it meets, in the calculator as the calls before have left it, and
stops at the first failure or fault. Operators associate as the tree does.
-/
namespace Abacus.Formula

variable {φ ε α β : Type}

/-- What a walk leaves behind: its calls, the latest first, and the calculator. -/
structure Journal (φ ε : Type) where
  calls : List (Call φ) := []
  calculator : Calculator φ ε

abbrev Walk (φ ε : Type) := ExceptT Ending (StateM (Journal φ ε))

/-- What an atom stands for: an integer, or a name that is no variable. -/
inductive Sense
  | value (n : Int)
  | name (x : String) (pos : Nat)

namespace Walk

def run (w : Walk φ ε α) (j : Journal φ ε) : Except Ending α × Journal φ ε := StateT.run w j

def fail (kind : ErrorKind) (pos : Nat) : Walk φ ε α := throw (.failure ⟨kind, pos⟩)

def symbols : Walk φ ε (Symbols φ) := return (← get).calculator.symbols

def function (opening : Nat) : Sense → Walk φ ε (Routine φ × Nat)
  | .value _ => fail .syntaxError opening
  | .name x pos => do
    match (← symbols).routine? x with
    | some f => return (f, pos)
    | none => fail .unknownIdentifier pos

def value : Sense → Walk φ ε Int
  | .value n => return n
  | .name x pos => do
    match (← symbols).routine? x with
    | some _ => fail .syntaxError pos
    | none => fail .unknownIdentifier pos

def call (h : Host φ ε) (x : Call φ) : Walk φ ε Int := do
  if x.args.length = x.routine.arity then
    let j ← get
    let r := x.routine.code.run h x.args j.calculator
    set (Journal.mk (x :: j.calls) r.2)
    match r.1 with
    | .ok v => return v
    | .error e => throw (.fault e)
  else fail .argumentMismatch x.pos

theorem run_bind (w : Walk φ ε α) (f : α → Walk φ ε β) (j : Journal φ ε) :
    (w >>= f).run j =
      match w.run j with
      | (.ok a, j) => (f a).run j
      | (.error r, j) => (.error r, j) := by
  change (match w.run j with | (r, j) => (ExceptT.bindCont f r : StateM _ _) j) = _
  rcases w.run j with ⟨_ | a, j'⟩ <;> rfl

theorem run_symbols (j : Journal φ ε) :
    (symbols : Walk φ ε (Symbols φ)).run j = (.ok j.calculator.symbols, j) := rfl

theorem exists_of_run_bind {w : Walk φ ε α} {f : α → Walk φ ε β} {j j' : Journal φ ε} {b : β}
    (h : (w >>= f).run j = (.ok b, j')) :
    ∃ a j₁, w.run j = (.ok a, j₁) ∧ (f a).run j₁ = (.ok b, j') := by
  rw [run_bind] at h
  rcases hw : w.run j with ⟨r | a, j₁⟩
  · rw [hw] at h
    cases h
  · rw [hw] at h
    exact ⟨a, j₁, rfl, h⟩

theorem eq_of_run_pure {a b : α} {j j' : Journal φ ε}
    (h : (pure a : Walk φ ε α).run j = (.ok b, j')) : a = b ∧ j = j' := by
  obtain ⟨ha, hj⟩ := Prod.mk.inj h
  exact ⟨Except.ok.inj ha, hj⟩

theorem run_call (h : Host φ ε) {y : Call φ} (hy : y.args.length = y.routine.arity)
    (j : Journal φ ε) :
    (call h y).run j =
      ((y.run h j.calculator).1.mapError Ending.fault,
        ⟨y :: j.calls, (y.run h j.calculator).2⟩) := by
  rw [y.run_eq_code_run h hy, call, if_pos hy]
  change (match (y.routine.code.run h y.args j.calculator).1 with
    | .ok v => (return v : Walk φ ε Int)
    | .error e => throw (Ending.fault e)).run ⟨_, _⟩ = _
  rcases y.routine.code.run h y.args j.calculator with ⟨_ | v, c⟩ <;> rfl

end Walk

def Factor.walk (op : Factor) (pos : Nat) (a b : Int) : Walk φ ε Int :=
  match op with
  | .times => return a * b
  | .quotient => if b = 0 then .fail .divideByZero pos else return a.tdiv b
  | .remainder => if b = 0 then .fail .divideByZero pos else return a.tmod b

def Walk.literal (l : Literal) : Walk φ ε Int :=
  if l.TooLong then throw (.fault .numeralTooLong) else return l.value

mutual

def Expression.walk (h : Host φ ε) : Expression → Walk φ ε Int
  | .term m => m.walk h
  | .add e minus _ m => do
    let a ← e.walk h
    let b ← m.walk h
    return if minus then a - b else a + b

def Term.walk (h : Host φ ε) : Term → Walk φ ε Int
  | .signed u => u.walk h
  | .mul m op pos u => do
    let a ← m.walk h
    let b ← u.walk h
    op.walk pos a b

def Signed.walk (h : Host φ ε) : Signed → Walk φ ε Int
  | .operand o => o.walk h
  | .sign minus _ u => do
    let v ← u.walk h
    return if minus then -v else v

def Operand.walk (h : Host φ ε) : Operand → Walk φ ε Int
  | .atom a => do Walk.value (← a.walk h)
  | .nullary callee opening closing => do
    let (f, pos) ← Walk.function opening (← callee.walk h)
    Walk.call h ⟨f, [], pos, closing⟩
  | .call callee opening args closing => do
    let (f, pos) ← Walk.function opening (← callee.walk h)
    let vs ← args.walk h
    Walk.call h ⟨f, vs, pos, closing⟩

def Arguments.walk (h : Host φ ε) : Arguments → Walk φ ε (List Int)
  | .one e => do return [← e.walk h]
  | .more args _ e => do
    let vs ← args.walk h
    let v ← e.walk h
    return vs ++ [v]

def Atom.walk (h : Host φ ε) : Atom → Walk φ ε Sense
  | .group _ e _ => do return .value (← e.walk h)
  | .literal l _ => do return .value (← Walk.literal l)
  | .name x pos => do
    match (← Walk.symbols).value? x.name with
    | some v => return .value v
    | none => return .name x.name pos

end

theorem Atom.run_name (h : Host φ ε) (x : Identifier) (pos : Nat) (j : Journal φ ε) :
    ((Atom.name x pos).walk h).run j =
      (.ok (match j.calculator.symbols.value? x.name with
        | some v => .value v
        | none => .name x.name pos), j) := by
  change (match j.calculator.symbols.value? x.name with
    | some v => (return .value v : Walk φ ε Sense)
    | none => return .name x.name pos).run j = _
  cases j.calculator.symbols.value? x.name <;> rfl

theorem Walk.run_value_name (x : String) (pos : Nat) (j : Journal φ ε) :
    (value (.name x pos)).run j =
      (.error (.failure ⟨if (j.calculator.symbols.routine? x).isSome then .syntaxError
        else .unknownIdentifier, pos⟩), j) := by
  change (match j.calculator.symbols.routine? x with
    | some _ => (fail .syntaxError pos : Walk φ ε Int)
    | none => fail .unknownIdentifier pos).run j = _
  cases j.calculator.symbols.routine? x <;> rfl

theorem Walk.run_function_name (opening : Nat) (x : String) (pos : Nat) (j : Journal φ ε) :
    (function opening (.name x pos)).run j =
      (match j.calculator.symbols.routine? x with
        | some f => .ok (f, pos)
        | none => .error (.failure ⟨.unknownIdentifier, pos⟩), j) := by
  change (match j.calculator.symbols.routine? x with
    | some f => (return (f, pos) : Walk φ ε (Routine φ × Nat))
    | none => fail .unknownIdentifier pos).run j = _
  cases j.calculator.symbols.routine? x <;> rfl

def Walk.conclude : Except Ending Int × Journal φ ε → Ending × Journal φ ε
  | (.ok v, j) => (.value v, j)
  | (.error r, j) => (r, j)

/-- How the walk over a derivation ends in a calculator, and what it leaves behind. -/
def Expression.outcome (h : Host φ ε) (c : Calculator φ ε) (e : Expression) :
    Ending × Journal φ ε :=
  Walk.conclude ((e.walk h).run { calculator := c })

end Abacus.Formula
