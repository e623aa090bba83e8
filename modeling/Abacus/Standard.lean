import Abacus.Fault

/-!
# Standard functions

Six functions that a calculator can have bound on request. `pow` truncates toward zero like
division, and refuses an exponent so large that the power could not be computed in reasonable
time.
-/
namespace Abacus

inductive Standard
  | abs
  | sign
  | min
  | max
  | clamp
  | pow
  deriving DecidableEq

namespace Standard

def all : List Standard := [abs, sign, min, max, clamp, pow]

def name : Standard → String
  | abs => "abs"
  | sign => "sign"
  | min => "min"
  | max => "max"
  | clamp => "clamp"
  | pow => "pow"

def ofName? (s : String) : Option Standard := all.find? (·.name == s)

/-- The names that are asked for: all of them, if nothing is said. -/
def selected (names : Option (List String)) : List String := names.getD (all.map name)

def arity : Standard → Nat
  | abs => 1
  | sign => 1
  | min => 2
  | max => 2
  | clamp => 3
  | pow => 2

def lesser (a b : Int) : Int := if a < b then a else b

def greater (a b : Int) : Int := if a > b then a else b

def maxExponent : Nat := 4096

/-- The power with its fraction cut off. The exponent is bounded only where the power grows with
it. -/
def power (base exponent : Int) : Except Fault Int :=
  if base = 0 then .ok (if exponent = 0 then 1 else 0)
  else if base = 1 then .ok 1
  else if base = -1 then .ok (if exponent % 2 = 0 then 1 else -1)
  else if exponent < 0 then .ok 0
  else if exponent > maxExponent then do throw (.powerTooLarge (← decimal exponent) maxExponent)
  else .ok (base.pow exponent.toNat)

/-- The value at a list of arguments; one that is not given counts as 0. -/
def apply (f : Standard) (args : List Int) : Except Fault Int :=
  let a := args.getD 0 0
  let b := args.getD 1 0
  let c := args.getD 2 0
  match f with
  | abs => .ok (if a < 0 then -a else a)
  | sign => .ok a.sign
  | min => .ok (lesser a b)
  | max => .ok (greater a b)
  | clamp => .ok (greater b (lesser a c))
  | pow => power a b

end Standard

end Abacus
