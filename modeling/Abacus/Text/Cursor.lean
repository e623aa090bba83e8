import Abacus.Number.Numeral
import Abacus.Text.Quoted

/-!
# Cursors

A cursor is a reading position in a text. Each primitive either passes over exactly what it
reports or leaves the position where it was.
-/
namespace Abacus

structure Cursor where
  text : List Char
  pos : Nat := 0
  deriving DecidableEq

namespace Cursor

def rest (c : Cursor) : List Char := c.text.drop c.pos

def advance (c : Cursor) (n : Nat) : Cursor := { c with pos := c.pos + n }

def atEnd (c : Cursor) : Bool := decide (c.text.length ≤ c.pos)

def peek (c : Cursor) : Option Char := c.rest.head?

def skipBlanks (c : Cursor) : Bool × Cursor :=
  let c' := c.advance (c.rest.takeWhile isBlank).length
  (!c'.atEnd, c')

/-- Passes over `s` if the rest begins with it. Beyond the end of the text nothing matches. -/
def take (c : Cursor) (s : List Char) : Bool × Cursor :=
  if c.pos ≤ c.text.length ∧ s.isPrefixOf c.rest then (true, c.advance s.length) else (false, c)

/-- Passes over one place if what `peek` shows there is `s`; at the end it shows nothing. -/
def takeShown (c : Cursor) (s : List Char) : Bool × Cursor :=
  if c.peek.toList = s then (true, c.advance 1) else (false, c)

def takeAny (c : Cursor) (cs : List Char) : Option Char × Cursor :=
  match c.peek with
  | some x => if cs.contains x then (some x, c.advance 1) else (none, c)
  | none => (none, c)

def takeWhile (c : Cursor) (p : Char → Bool) : List Char × Cursor :=
  let run := c.rest.takeWhile p
  (run, c.advance run.length)

/-- Reads a numeral; the cursor comes to stand behind its marker and digits even if it is
malformed. -/
def numeral (c : Cursor) : Numeral.Reading × Cursor :=
  (Numeral.read c.rest, c.advance (Numeral.leading c.rest).length)

def describe (c : Cursor) : String :=
  "Cursor(" ++ quoted (String.ofList c.text) ++ ", pos=" ++ toString c.pos ++ ")"

end Cursor

end Abacus
