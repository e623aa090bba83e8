import Std.Data.ExtTreeMap
import Abacus.Routine
import Abacus.Text.Alphabet

/-!
# Symbols

Variables and functions share one namespace: to bind a name in one table is to take it out of the
other, so that a name denotes one thing at most. All checks of a binding come before its first
change.
-/
namespace Abacus

def checkName : Datum → Except Fault String
  | .text s => if isName s then .ok s else .error (.binding (.invalidName (quoted s)))
  | d => do throw (.binding (.invalidName (← d.shown)))

def checkValue (name : Datum) : Datum → Except Fault Int
  | .int n => .ok n
  | d => do throw (.binding (.notInteger (← name.shown) d.typeName))

structure Symbols (φ : Type) where
  limit : Int := defaultLimit
  values : Std.ExtTreeMap String Int := ∅
  routines : Std.ExtTreeMap String (Routine φ) := ∅

namespace Symbols

variable {φ : Type}

def value? (s : Symbols φ) (name : String) : Option Int := s.values[name]?

def routine? (s : Symbols φ) (name : String) : Option (Routine φ) := s.routines[name]?

def contains (s : Symbols φ) (name : String) : Bool :=
  s.values.contains name || s.routines.contains name

def size (s : Symbols φ) : Nat := s.values.size + s.routines.size

def putVariable (s : Symbols φ) (name : String) (value : Int) : Symbols φ :=
  { s with values := s.values.insert name value, routines := s.routines.erase name }

def putFunction (s : Symbols φ) (name : String) (f : Routine φ) : Symbols φ :=
  { s with values := s.values.erase name, routines := s.routines.insert name f }

def setVariable (s : Symbols φ) (name value : Datum) : Except Fault (Option Int × Symbols φ) := do
  let x ← checkName name
  let n ← checkValue name value
  return (s.value? x, s.putVariable x n)

def setFunction (s : Symbols φ) (name : Datum) (offer : Offer φ) (arity : Option Int) :
    Except Fault (Symbols φ) := do
  let x ← checkName name
  let f ← offer.toRoutine arity s.limit
  return s.putFunction x f

def remove (s : Symbols φ) (name : String) : Bool × Symbols φ :=
  if s.values.contains name then (true, { s with values := s.values.erase name })
  else if s.routines.contains name then (true, { s with routines := s.routines.erase name })
  else (false, s)

/-- Binds standard functions by their names: all of them, or none if a name is unknown or an arity
is beyond the limit. -/
def install (s : Symbols φ) (names : List String) : Except Fault (Symbols φ) :=
  let unknown := names.filter fun x => (Standard.ofName? x).isNone
  let tooWide := names.filter fun x => (Standard.ofName? x).any fun f => s.limit < f.arity
  if !unknown.isEmpty then .error (.binding (.unknownStandard unknown))
  else if !tooWide.isEmpty then do throw (.binding (.tooWide (← decimal s.limit) tooWide))
  else .ok ((names.filterMap Standard.ofName?).foldl (fun s f => s.putFunction f.name f.routine) s)

end Symbols

end Abacus
