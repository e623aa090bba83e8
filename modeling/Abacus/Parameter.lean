/-!
# Parameter lists

A host function may disclose its parameters. From them follows the least number of arguments that
a call by position has to give, unless the list is open at the end or asks for an argument that
only a keyword can give.
-/
namespace Abacus

inductive ParameterKind
  | positionalOnly
  | positional
  | variadic
  | keywordOnly
  | keywords
  deriving DecidableEq

structure Parameter where
  name : String
  kind : ParameterKind
  optional : Bool := false
  deriving DecidableEq

namespace Parameter

def byPosition (p : Parameter) : Bool :=
  p.kind == .positionalOnly || p.kind == .positional

/-- What keeps a parameter list from having a fixed number of positional arguments. -/
inductive Obstacle
  | variadic
  | keyword (name : String)
  deriving DecidableEq

def obstacle? (p : Parameter) : Option Obstacle :=
  match p.kind, p.optional with
  | .variadic, _ => some .variadic
  | .keywordOnly, false => some (.keyword p.name)
  | _, _ => none

def required (ps : List Parameter) : Nat :=
  ps.countP fun p => p.byPosition && !p.optional

/-- `required`, unless some parameter is an obstacle; the first one is reported. -/
def arity (ps : List Parameter) : Except Obstacle Nat :=
  match ps.findSome? obstacle? with
  | some o => .error o
  | none => .ok (required ps)

end Parameter

end Abacus
