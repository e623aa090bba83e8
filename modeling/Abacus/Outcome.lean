import Abacus.Number.Numeral

/-!
# Outcomes

The outcome of a formula is a value or a kind of failure, never both and never neither. A failure
usually comes with a position in the text, counted in characters from its beginning.
-/
namespace Abacus

inductive ErrorKind
  | syntaxError
  | invalidLiteral
  | unknownIdentifier
  | argumentMismatch
  | divideByZero
  deriving DecidableEq

namespace ErrorKind

def all : List ErrorKind :=
  [syntaxError, invalidLiteral, unknownIdentifier, argumentMismatch, divideByZero]

def label : ErrorKind → String
  | syntaxError => "syntax_error"
  | invalidLiteral => "invalid_literal"
  | unknownIdentifier => "unknown_identifier"
  | argumentMismatch => "arg_num_mismatch"
  | divideByZero => "divide_by_zero"

def ofLabel? (s : String) : Option ErrorKind := all.find? (·.label == s)

def message : ErrorKind → String
  | syntaxError => "Syntax error"
  | invalidLiteral => "Invalid literal"
  | unknownIdentifier => "Unknown identifier"
  | argumentMismatch => "Argument number mismatch"
  | divideByZero => "Divide by zero"

end ErrorKind

def describePosition : Option Int → String
  | none => "None"
  | some p => toString p

structure EvaluationError where
  kind : ErrorKind
  position : Option Int := none
  deriving DecidableEq

namespace EvaluationError

def message (e : EvaluationError) : String := e.kind.message

def describe (e : EvaluationError) : String :=
  "EvaluationError(" ++ e.kind.label ++ ", position=" ++ describePosition e.position ++ ")"

end EvaluationError

inductive Verdict
  | value (n : Int)
  | failure (kind : ErrorKind)
  deriving DecidableEq

structure Outcome where
  verdict : Verdict
  position : Option Int := none
  deriving DecidableEq

namespace Outcome

/-- Puts an outcome together from a value or the label of a kind, of which exactly one is given. -/
def ofParts? (value : Option Int) (kind : Option String) (position : Option Int) :
    Option Outcome :=
  match value, kind with
  | some n, none => some ⟨.value n, position⟩
  | none, some k => (ErrorKind.ofLabel? k).map fun k => ⟨.failure k, position⟩
  | _, _ => none

def value? (o : Outcome) : Option Int :=
  match o.verdict with
  | .value n => some n
  | .failure _ => none

def kind? (o : Outcome) : Option ErrorKind :=
  match o.verdict with
  | .value _ => none
  | .failure k => some k

def ok (o : Outcome) : Bool := o.kind?.isNone

def message? (o : Outcome) : Option String := o.kind?.map ErrorKind.message

def unwrap (o : Outcome) : Except EvaluationError Int :=
  match o.verdict with
  | .value n => .ok n
  | .failure k => .error ⟨k, o.position⟩

def describe (o : Outcome) : String :=
  match o.verdict with
  | .value n => toString n
  | .failure k => k.message ++ " (at " ++ describePosition o.position ++ ")"

end Outcome

end Abacus
