import Abacus.Datum
import Abacus.Parameter
import Abacus.Standard

/-!
# Routines

A routine is code with the number of arguments that it takes. The code is a standard function, of
which that number is known, or a callable of the embedding program; the library knows of a callable
how it is shown and what it discloses of its parameters, and leaves what it does to the host.
-/
namespace Abacus

/-- Something that the embedding program can call. `handle` is what the host knows it by. -/
structure Callable (φ : Type) where
  handle : φ
  shown : String
  name : Option String := none
  /-- `none` if the parameters are not disclosed. -/
  parameters : Option (List Parameter) := some []

namespace Callable

variable {φ : Type}

def title (f : Callable φ) : String := (f.name.map quoted).getD f.shown

def arity (f : Callable φ) : Except Fault Nat :=
  match f.parameters.map Parameter.arity with
  | none => .error (.binding (.hiddenParameters f.shown))
  | some (.ok n) => .ok n
  | some (.error .variadic) => .error (.binding (.variadic f.shown))
  | some (.error (.keyword p)) => .error (.binding (.keywordRequired f.shown (quoted p)))

end Callable

inductive Code (φ : Type)
  | standard (f : Standard)
  | callable (f : Callable φ)

structure Routine (φ : Type) where
  code : Code φ
  arity : Int
  arity_of_standard : ∀ f, code = .standard f → arity = f.arity

def Standard.routine {φ : Type} (f : Standard) : Routine φ where
  code := .standard f
  arity := f.arity
  arity_of_standard g hg := by
    cases hg
    rfl

/-- A callable stands for a routine of any arity. -/
def Callable.routine {φ : Type} (f : Callable φ) (arity : Int) : Routine φ :=
  ⟨.callable f, arity, nofun⟩

/-- What is given where a function is wanted. -/
inductive Offer (φ : Type)
  | routine (f : Routine φ)
  | callable (f : Callable φ)
  | datum (d : Datum)

def defaultLimit : Int := 4

namespace Offer

variable {φ : Type}

/-- The number of arguments that an offer discloses. A routine itself is called with one list. -/
def inferArity : Offer φ → Except Fault Nat
  | routine _ => .ok 1
  | callable f => f.arity
  | datum d => do throw (.binding (.hiddenParameters (← d.shown)))

/-- The routine that an offer stands for, before its arity is held against the limit. -/
def resolve (arity : Option Int) : Offer φ → Except Fault (Routine φ)
  | routine f =>
    match arity with
    | none => .ok f
    | some n =>
      if n = f.arity then .ok f
      else do throw (.binding (.arityConflict (← decimal n) (← decimal f.arity)))
  | callable f =>
    match arity with
    | some n => .ok (f.routine n)
    | none => do return f.routine (← f.arity)
  | datum d => do throw (.binding (.notCallable (← d.shown)))

def toRoutine (offer : Offer φ) (arity : Option Int) (limit : Int) : Except Fault (Routine φ) := do
  let f ← offer.resolve arity
  if 0 ≤ f.arity ∧ f.arity ≤ limit then return f
  else throw (.binding (.arityOutOfRange (← decimal f.arity) (← decimal limit)))

end Offer

end Abacus
