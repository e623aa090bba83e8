import Abacus.Formula.RunningSum
import Abacus.Number.Numeral
import Abacus.Symbols

/-!
# Reading a formula

A formula is computed while it is read, token by token. The state says what may come next, keeps
the running sum that the next operand belongs to, and holds a stack of the groups and calls that
are open around it. `State.read` is the whole effect of one token, except that a finished call is
handed to the host and `State.receive` takes its value back.
-/
namespace Abacus.Formula

variable {φ : Type}

/-- A group or an argument list that is open, with the sum that goes on behind it. -/
inductive Enclosure (φ : Type)
  | group (outer : RunningSum)
  | call (f : Routine φ) (pos : Nat) (args : List Int) (outer : RunningSum)

/-- What has just been read, and so what may come next. -/
inductive Phase
  /-- The parenthesis that opens an argument list: it may be closed at once. -/
  | arguments
  /-- An operand comes next. -/
  | operand
  /-- A name that is no variable; the next token tells whether it is called. -/
  | name (x : String) (pos : Nat)
  /-- A numeral, a variable or a group; no parenthesis may open behind it. -/
  | primary (v : Int)
  /-- The product so far, complete. -/
  | product (v : Int)
  deriving DecidableEq

structure State (φ : Type) where
  phase : Phase := .operand
  sum : RunningSum := {}
  enclosures : List (Enclosure φ) := []

inductive Ending
  | value (n : Int)
  | failure (e : Failure)
  | fault (e : Fault)
  deriving DecidableEq

/-- A call that is complete: its name stands at `pos`, its closing parenthesis at `closing`. -/
structure Call (φ : Type) where
  routine : Routine φ
  args : List Int
  pos : Nat
  closing : Nat

/-- The effect of a token: another state, a call whose value the state waits for, or the end. -/
inductive Step (φ : Type)
  | next (s : State φ)
  | call (x : Call φ) (s : State φ)
  | stop (e : Ending)

namespace Step

def fail (kind : ErrorKind) (pos : Nat) : Step φ := .stop (.failure ⟨kind, pos⟩)

end Step

namespace State

def receive (s : State φ) (v : Int) : Except Failure (State φ) :=
  (s.sum.multiply v).map fun p => { s with phase := .product p }

def readWord (symbols : Symbols φ) (w : List Char) (pos : Nat) (s : State φ) : Step φ :=
  if w.head?.any Char.isDigit then
    match Numeral.read w with
    | .value n => .next { s with phase := .primary n }
    | .malformed => .fail .invalidLiteral pos
    | .tooLong => .stop (.fault .numeralTooLong)
  else
    let x := String.ofList w
    match symbols.value? x with
    | some v => .next { s with phase := .primary v }
    | none => .next { s with phase := .name x pos }

def readOperand (symbols : Symbols φ) (x : Lexeme) (s : State φ) : Step φ :=
  match x.token with
  | .word w => s.readWord symbols w x.pos
  | .sign minus =>
    .next { s with phase := .operand, sum := { s.sum with negate := s.sum.negate ^^ minus } }
  | .opening => .next ⟨.operand, {}, .group s.sum :: s.enclosures⟩
  | _ => .fail .syntaxError x.pos

def close (x : Call φ) (outer : RunningSum) (around : List (Enclosure φ)) : Step φ :=
  if x.args.length = x.routine.arity then .call x ⟨.operand, outer, around⟩
  else .fail .argumentMismatch x.pos

def times (p : Int) (op : Factor) (pos : Nat) (s : State φ) : State φ :=
  { s with phase := .operand, sum := { s.sum with product := some (p, op, pos), negate := false } }

def plus (p : Int) (subtract : Bool) (s : State φ) : State φ :=
  { s with phase := .operand, sum := { total := s.sum.add p, subtract } }

def readOperator (x : Lexeme) (p : Int) (s : State φ) : Step φ :=
  match x.token, s.enclosures with
  | .sign minus, _ => .next (s.plus p minus)
  | .factor op, _ => .next (s.times p op x.pos)
  | .comma, .call f pos args outer :: around =>
    .next ⟨.operand, {}, .call f pos (args ++ [s.sum.add p]) outer :: around⟩
  | .closing, .call f pos args outer :: around =>
    close ⟨f, args ++ [s.sum.add p], pos, x.pos⟩ outer around
  | .closing, .group outer :: around => .next ⟨.primary (s.sum.add p), outer, around⟩
  | _, _ => .fail .syntaxError x.pos

def uncalled (symbols : Symbols φ) (name : String) : ErrorKind :=
  if (symbols.routine? name).isSome then .syntaxError else .unknownIdentifier

def read (symbols : Symbols φ) (x : Lexeme) (s : State φ) : Step φ :=
  match s.phase with
  | .arguments =>
    match x.token, s.enclosures with
    | .closing, .call f pos args outer :: around => close ⟨f, args, pos, x.pos⟩ outer around
    | _, _ => s.readOperand symbols x
  | .operand => s.readOperand symbols x
  | .name name pos =>
    match x.token, symbols.routine? name with
    | .opening, some f => .next ⟨.arguments, {}, .call f pos [] s.sum :: s.enclosures⟩
    | .opening, none => .fail .unknownIdentifier pos
    | _, _ => .fail (uncalled symbols name) pos
  | .primary v =>
    if x.token = .opening then .fail .syntaxError x.pos
    else
      match s.sum.multiply v with
      | .ok p => s.readOperator x p
      | .error e => .stop (.failure e)
  | .product p => s.readOperator x p

def finish (symbols : Symbols φ) (stop : Nat) (s : State φ) : Ending :=
  let total (p : Int) : Ending :=
    if s.enclosures.isEmpty then .value (s.sum.add p) else .failure ⟨.syntaxError, stop⟩
  match s.phase with
  | .arguments => .failure ⟨.syntaxError, stop⟩
  | .operand => .failure ⟨.syntaxError, stop⟩
  | .name name pos => .failure ⟨uncalled symbols name, pos⟩
  | .primary v =>
    match s.sum.multiply v with
    | .ok p => total p
    | .error e => .failure e
  | .product p => total p

end State

end Abacus.Formula
