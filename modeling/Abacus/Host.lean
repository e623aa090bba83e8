import Abacus.Symbols

/-!
# Hosts

A calculator holds its symbols and a state of the program that embeds it. The host runs the
callables that are bound; a running callable sees the calculator and may change it.
-/
namespace Abacus

structure Calculator (φ ε : Type) where
  symbols : Symbols φ
  env : ε

structure Host (φ ε : Type) where
  invoke : φ → List Int → Calculator φ ε → Except Fault Datum × Calculator φ ε

variable {φ ε : Type}

/-- A host for calculators that its callables cannot see. They run on a calculator of their own,
which is the state. -/
def Host.detached (h : Host φ ε) : Host φ (Calculator φ ε) where
  invoke f args c :=
    let r := h.invoke f args c.env
    (r.1, { c with env := r.2 })

/-- Runs a callable, whose answer has to be an integer. -/
def Host.run (h : Host φ ε) (f : Callable φ) (args : List Int) (c : Calculator φ ε) :
    Except Fault Int × Calculator φ ε :=
  match h.invoke f.handle args c with
  | (.error e, c) => (.error e, c)
  | (.ok (.int n), c) => (.ok n, c)
  | (.ok d, c) => (.error (.type (.result f.title d.typeName)), c)

def Code.run (h : Host φ ε) (args : List Int) (c : Calculator φ ε) :
    Code φ → Except Fault Int × Calculator φ ε
  | .standard f => (f.apply args, c)
  | .callable f => h.run f args c

def Routine.call (f : Routine φ) (h : Host φ ε) (args : List Int) (position : Option Int)
    (c : Calculator φ ε) : Except Fault Int × Calculator φ ε :=
  if args.length = f.arity then f.code.run h args c
  else (.error (.evaluation ⟨.argumentMismatch, position⟩), c)

end Abacus
