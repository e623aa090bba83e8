import Abacus.Proofs.Grammar.Tree

/-!
# Unfinished derivations

A draft is the part of a derivation that the tokens read so far determine: the chain before the
next operand, and the groups and calls that are still open around it. It grows by one token at a
time, and not at all by a token that cannot follow. Drafts know nothing of values or symbols.

Read from the beginning, the tokens of a derivation give that derivation back
(`Expression.parse_lexemes`), and a draft holds exactly the tokens that it was grown from
(`Draft.run_invariant`).
-/
namespace Abacus.Formula

/-- What stands before the next operand inside the innermost group or argument: the sum and the
product to which it will be joined, with their operators, and its signs, the latest first. -/
structure Stem where
  total : Option (Expression × Bool × Nat) := none
  product : Option (Term × Factor × Nat) := none
  signs : List (Bool × Nat) := []

namespace Stem

def signed (r : Stem) (u : Signed) : Signed := r.signs.foldl (fun u s => .sign s.1 s.2 u) u

def term (r : Stem) (u : Signed) : Term :=
  match r.product with
  | none => .signed (r.signed u)
  | some (m, op, pos) => .mul m op pos (r.signed u)

def expression (r : Stem) (m : Term) : Expression :=
  match r.total with
  | none => .term m
  | some (e, minus, pos) => .add e minus pos m

end Stem

/-- A group or an argument list that is open. Arguments that are complete come with the comma
behind them. -/
inductive Frame
  | group (outer : Stem) (opening : Nat)
  | call (outer : Stem) (callee : Atom) (opening : Nat) (args : Option (Arguments × Nat))

def Arguments.extend (args : Option (Arguments × Nat)) (e : Expression) : Arguments :=
  match args with
  | none => .one e
  | some (args, comma) => .more args comma e

inductive Draft.Phase
  /-- The parenthesis that opens an argument list. -/
  | arguments
  | operand
  /-- An atom, which an argument list may follow. -/
  | atom (a : Atom)
  | term (m : Term)

structure Draft where
  phase : Draft.Phase := .operand
  stem : Stem := {}
  frames : List Frame := []

def Atom.ofWord? (w : List Char) (pos : Nat) : Option Atom :=
  if w.head?.any Char.isDigit then (Literal.ofWord? w).map fun l => .literal l pos
  else if hw : isName (String.ofList w) then some (.name ⟨String.ofList w, hw⟩ pos)
  else none

namespace Draft

/-- Joins an operand that is complete to what stands before it. -/
def take (d : Draft) (u : Signed) : Draft :=
  { d with phase := .term (d.stem.term u), stem := { total := d.stem.total } }

def readOperand (x : Lexeme) (d : Draft) : Option Draft :=
  match x.token with
  | .word w => (Atom.ofWord? w x.pos).map fun a => { d with phase := .atom a }
  | .sign minus =>
    some { d with
      phase := .operand, stem := { d.stem with signs := (minus, x.pos) :: d.stem.signs } }
  | .opening => some ⟨.operand, {}, .group d.stem x.pos :: d.frames⟩
  | _ => none

def readOperator (x : Lexeme) (m : Term) (d : Draft) : Option Draft :=
  match x.token, d.frames with
  | .sign minus, _ =>
    some { d with phase := .operand, stem := { total := some (d.stem.expression m, minus, x.pos) } }
  | .factor op, _ =>
    some { d with
      phase := .operand, stem := { total := d.stem.total, product := some (m, op, x.pos) } }
  | .comma, .call outer callee opening args :: around =>
    let args := Arguments.extend args (d.stem.expression m)
    some ⟨.operand, {}, .call outer callee opening (some (args, x.pos)) :: around⟩
  | .closing, .call outer callee opening args :: around =>
    let args := Arguments.extend args (d.stem.expression m)
    some (take ⟨.operand, outer, around⟩ (.operand (.call callee opening args x.pos)))
  | .closing, .group outer opening :: around =>
    some ⟨.atom (.group opening (d.stem.expression m) x.pos), outer, around⟩
  | _, _ => none

def read (x : Lexeme) (d : Draft) : Option Draft :=
  match d.phase with
  | .arguments =>
    match x.token, d.frames with
    | .closing, .call outer callee opening none :: around =>
      some (take ⟨.operand, outer, around⟩ (.operand (.nullary callee opening x.pos)))
    | _, _ => d.readOperand x
  | .operand => d.readOperand x
  | .atom a =>
    if x.token = .opening then some ⟨.arguments, {}, .call d.stem a x.pos none :: d.frames⟩
    else readOperator x (d.stem.term (.operand (.atom a))) (d.take (.operand (.atom a)))
  | .term m => d.readOperator x m

def run (xs : List Lexeme) (d : Draft) : Option Draft := xs.foldlM (fun d x => d.read x) d

def complete? (d : Draft) : Option Expression :=
  match d.phase, d.frames with
  | .atom a, [] => some (d.stem.expression (d.stem.term (.operand (.atom a))))
  | .term m, [] => some (d.stem.expression m)
  | _, _ => none

def parse (d : Draft) (xs : List Lexeme) : Option Expression := (d.run xs).bind complete?

def Awaits (d : Draft) : Prop := d.phase = .operand ∨ d.phase = .arguments

theorem run_cons (d : Draft) (x : Lexeme) (xs : List Lexeme) :
    d.run (x :: xs) = (d.read x).bind (run xs) := rfl

theorem parse_cons (d : Draft) (x : Lexeme) (xs : List Lexeme) :
    d.parse (x :: xs) = (d.read x).bind fun d => d.parse xs := by
  rw [parse, run_cons, Option.bind_assoc]
  rfl

theorem read_of_awaits {d : Draft} (hd : d.Awaits) {x : Lexeme} (hx : x.token ≠ .closing) :
    d.read x = d.readOperand x := by
  obtain ⟨phase, stem, frames⟩ := d
  obtain ⟨t, pos⟩ := x
  rcases hd with rfl | rfl
  · rfl
  · cases t <;> first | rfl | exact absurd rfl hx

theorem parse_atom {d : Draft} {a : Atom} (hd : d.phase = .atom a) {xs : List Lexeme}
    (hxs : ∀ x ∈ xs.head?, x.token ≠ .opening) :
    d.parse xs = (d.take (.operand (.atom a))).parse xs := by
  obtain ⟨phase, stem, frames⟩ := d
  subst hd
  cases xs with
  | nil => cases frames <;> rfl
  | cons x xs =>
    rw [parse_cons, parse_cons]
    congr 1
    exact if_neg (hxs x rfl)

end Draft

def Expression.front : Expression → Option (Expression × Bool × Nat)
  | .term _ => none
  | .add e minus pos _ => some (e, minus, pos)

def Expression.last : Expression → Term
  | .term m => m
  | .add _ _ _ m => m

theorem Expression.expression_last (e : Expression) :
    Stem.expression { total := e.front } e.last = e := by
  cases e <;> rfl

def Arguments.front : Arguments → Option (Arguments × Nat)
  | .one _ => none
  | .more args comma _ => some (args, comma)

def Arguments.last : Arguments → Expression
  | .one e => e
  | .more _ _ e => e

theorem Arguments.extend_last (args : Arguments) : extend args.front args.last = args := by
  cases args <;> rfl

theorem Atom.ofWord?_literal (l : Literal) (pos : Nat) :
    Atom.ofWord? l.spelling pos = some (.literal l pos) := by
  rw [Atom.ofWord?, if_pos l.isDigit_head_spelling, l.ofWord?_spelling, Option.map_some]

end Abacus.Formula
