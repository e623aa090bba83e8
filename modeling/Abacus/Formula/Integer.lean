import Abacus.Formula.State
import Abacus.Text.Cursor

/-!
# Integers in a text

An integer is read where a cursor stands. Letters and digits that spell no numeral are a failure of
the formula, at the place where they begin.
-/
namespace Abacus

open Formula

def Numeral.Reading.integer (pos : Nat) : Numeral.Reading → Except Ending Nat
  | .value n => .ok n
  | .malformed => .error (.failure ⟨.invalidLiteral, pos⟩)
  | .tooLong => .error (.fault .numeralTooLong)

def Cursor.integer (c : Cursor) : Except Ending Nat × Cursor :=
  let r := c.numeral
  (r.1.integer c.pos, r.2)

end Abacus
