import Abacus.Formula.Evaluation
import Abacus.Formula.Integer

/-!
# Recursive descent

The rules of the grammar, each computing the integer that its part of a text denotes while a cursor
passes over it. A name that is no variable stays pending until the next character tells whether it
is called. A descent reads a formula by these rules alone, without tokens and without a stack of
its own.
-/
namespace Abacus.Formula

variable {φ ε α : Type}

/-- All that a descent works on: the cursor, the name that is pending, with its position, the calls
that have been made, the latest first, and the calculator as they left it. -/
structure Desk (φ ε : Type) where
  cursor : Cursor
  pending : Option (String × Nat) := none
  calls : List (Call φ) := []
  calculator : Calculator φ ε

/-- A computation on a desk. What ends the formula leaves the desk as it is by then; without a
result the computation has run out of fuel. -/
abbrev Descent (φ ε : Type) := ExceptT Ending (StateT (Desk φ ε) Option)

namespace Descent

def on (x : Descent φ ε α) (d : Desk φ ε) : Option (Except Ending α × Desk φ ε) := x.run.run d

def exhausted : Descent φ ε α := fun _ => none

def fail (kind : ErrorKind) (pos : Nat) : Descent φ ε α := throw (.failure ⟨kind, pos⟩)

def step (f : Desk φ ε → Except Ending α × Desk φ ε) : Descent φ ε α := .mk (modifyGet f)

def scan (f : Cursor → α × Cursor) : Descent φ ε α :=
  step fun d => (.ok (f d.cursor).1, { d with cursor := (f d.cursor).2 })

def position : Descent φ ε Nat := scan fun c => (c.pos, c)

def peek : Descent φ ε (Option Char) := scan fun c => (c.peek, c)

def misplaced : Descent φ ε α := do fail .syntaxError (← position)

def integer : Descent φ ε Int :=
  step fun d => (d.cursor.integer.1.map Int.ofNat, { d with cursor := d.cursor.integer.2 })

def symbols : Descent φ ε (Symbols φ) := step fun d => (.ok d.calculator.symbols, d)

def setPending (name : String) (pos : Nat) : Descent φ ε Unit :=
  step fun d => (.ok (), { d with pending := some (name, pos) })

def takePending : Descent φ ε (Option (String × Nat)) :=
  step fun d => (.ok d.pending, { d with pending := none })

def call (h : Host φ ε) (x : Call φ) : Descent φ ε Int :=
  step fun d =>
    let r := x.run h d.calculator
    (r.1.mapError .fault, { d with calls := x :: d.calls, calculator := r.2 })

end Descent

def Factor.ofMark : Char → Factor
  | '*' => times
  | '/' => quotient
  | _ => remainder

/-- The rules, by what they give. A rule with `From` takes up a sum, a product or an argument list
behind what it has given so far. -/
inductive Rule : Type → Type
  | sum : Rule Int
  | sumFrom (v : Int) : Rule Int
  | product : Rule Int
  | productFrom (v : Int) : Rule Int
  /-- Any number of signs and an operand. -/
  | signed (negate : Bool) : Rule Int
  /-- An operand, with its argument list if it is a name that is no variable. -/
  | operand : Rule Int
  /-- An argument list, behind the parenthesis that opens it. -/
  | arguments : Rule (List Int)
  | argumentsFrom (args : List Int) : Rule (List Int)
  /-- A group, a numeral or a name. -/
  | primary : Rule Int

namespace Rule

open Descent

/-- What a rule does, if `enter` is what the rules do that it uses. -/
def body (h : Host φ ε) (enter : ∀ {β : Type}, Rule β → Descent φ ε β) : Rule α → Descent φ ε α
  | sum => do
    let v ← enter product
    enter (sumFrom v)
  | sumFrom v => do
    if ← scan Cursor.skipBlanks then
      match ← scan (Cursor.takeAny · ['+', '-']) with
      | some sign =>
        let w ← enter product
        enter (sumFrom (if sign = '+' then v + w else v - w))
      | none => return v
    else return v
  | product => do
    let v ← enter (signed false)
    enter (productFrom v)
  | productFrom v => do
    if ← scan Cursor.skipBlanks then
      let pos ← position
      match ← scan (Cursor.takeAny · ['*', '/', '%']) with
      | some mark =>
        let w ← enter (signed false)
        match (Factor.ofMark mark).apply v w with
        | some p => enter (productFrom p)
        | none => fail .divideByZero pos
      | none => return v
    else return v
  | signed negate => do
    if ← scan Cursor.skipBlanks then
      match ← scan (Cursor.takeAny · ['+', '-']) with
      | some sign => enter (signed (negate ^^ sign == '-'))
      | none =>
        let v ← enter operand
        return if negate then -v else v
    else misplaced
  | operand => do
    let v ← enter primary
    match ← takePending with
    | none =>
      let _ ← scan Cursor.skipBlanks
      if (← peek) = some '(' then misplaced else return v
    | some (name, pos) =>
      let _ ← scan Cursor.skipBlanks
      let s ← symbols
      if ← scan (Cursor.takeShown · ['(']) then
        match s.routine? name with
        | some f =>
          let args ← enter arguments
          if args.length = f.arity then call h ⟨f, args, pos, (← position) - 1⟩
          else fail .argumentMismatch pos
        | none => fail .unknownIdentifier pos
      else fail (State.uncalled s name) pos
  | arguments => do
    if ← scan Cursor.skipBlanks then
      if ← scan (Cursor.takeShown · [')']) then return [] else enter (argumentsFrom [])
    else misplaced
  | argumentsFrom args => do
    let v ← enter sum
    if ← scan Cursor.skipBlanks then
      if ← scan (Cursor.takeShown · [',']) then enter (argumentsFrom (args ++ [v]))
      else if ← scan (Cursor.takeShown · [')']) then return args ++ [v]
      else misplaced
    else misplaced
  | primary => do
    if ← scan Cursor.skipBlanks then
      let pos ← position
      let c ← peek
      if ← scan (Cursor.takeShown · ['(']) then
        let v ← enter sum
        if ← scan Cursor.skipBlanks then
          if ← scan (Cursor.takeShown · [')']) then return v else misplaced
        else misplaced
      else if c.any Char.isDigit then integer
      else if c.any Char.isAlpha then
        let name := String.ofList (← scan (Cursor.takeWhile · Char.isAlphanum))
        match (← symbols).value? name with
        | some v => return v
        | none =>
          setPending name pos
          -- Not the value of the name: the rule that entered this one takes what is pending.
          return 0
      else misplaced
    else misplaced

def run (h : Host φ ε) : Nat → ∀ {α : Type}, Rule α → Descent φ ε α
  | 0, _, _ => exhausted
  | fuel + 1, _, r => r.body h (run h fuel)

end Rule

def formula (h : Host φ ε) (fuel : Nat) : Descent φ ε Int := do
  let v ← Rule.sum.run h fuel
  if ← Descent.scan Cursor.skipBlanks then Descent.misplaced else return v

/-- More rules than are ever entered one inside the other on a text. -/
def fuelFor (text : List Char) : Nat := 6 * text.length + 6

def descend (h : Host φ ε) (text : List Char) (c : Calculator φ ε) :
    Option (Except Ending Int × Desk φ ε) :=
  (formula h (fuelFor text)).on { cursor := ⟨text, 0⟩, calculator := c }

end Abacus.Formula
