/-!
# The alphabet of formulas

Spaces and tabs separate the parts of a formula and mean nothing themselves. Letters and digits
are the ASCII ones, as `Char.isAlpha` and `Char.isDigit` have them; every other character is a
mark that stands alone.
-/
namespace Abacus

def isBlank (c : Char) : Bool := c == ' ' || c == '\t'

def isSingle (p : Char → Bool) (s : String) : Bool :=
  match s.toList with
  | [c] => p c
  | _ => false

def isName (s : String) : Bool :=
  match s.toList with
  | [] => false
  | c :: cs => c.isAlpha && cs.all Char.isAlphanum

end Abacus
