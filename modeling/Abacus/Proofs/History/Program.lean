import Abacus.Proofs.Evaluation.Preservation

/-!
# Programs that use a calculator

A program works with a calculator by requests, one after the other, each of which may depend on
the answers before. Callables are such programs too, and what they request while they run may make
the calculator call further callables, so that requests nest to any depth. Every operation on the
names is entered in a log, which programs cannot see.
-/
namespace Abacus

variable {φ ε α : Type}

inductive Operation (φ : Type)
  | bindVariable (name value : Datum)
  | set (name value : Datum)
  | bindFunction (name : Datum) (offer : Offer φ) (arity : Option Int)
  | install (names : Option (List String))
  | unbind (name : String)

inductive Reply
  | done
  /-- The value before, if the name denoted a variable. -/
  | previous (n : Option Int)
  | found (b : Bool)
  | outcome (o : Outcome)
  | value (n : Int)
  deriving DecidableEq

namespace Operation

def perform (o : Operation φ) (c : Calculator φ ε) : Except Fault Reply × Calculator φ ε :=
  match o with
  | bindVariable name value =>
    let r := c.set name value
    (r.1.map fun _ => .done, r.2)
  | set name value =>
    let r := c.set name value
    (r.1.map .previous, r.2)
  | bindFunction name offer arity =>
    let r := c.bindFunction name offer arity
    (r.1.map fun _ => .done, r.2)
  | install names =>
    let r := c.install names
    (r.1.map fun _ => .done, r.2)
  | unbind name =>
    let r := c.unbind name
    (.ok (.found r.1), r.2)

end Operation

/-- An operation with its answer and the symbols as it has found them. -/
structure Entry (φ : Type) where
  operation : Operation φ
  answer : Except Fault Reply
  before : Symbols φ

/-- The state of a program, with the log of all operations so far, the latest first. -/
structure Logged (φ ε : Type) where
  env : ε
  log : List (Entry φ) := []

def Operation.record (o : Operation φ) (c : Calculator φ (Logged φ ε)) :
    Except Fault Reply × Calculator φ (Logged φ ε) :=
  let r := o.perform c
  (r.1, { r.2 with env := { r.2.env with log := ⟨o, r.1, c.symbols⟩ :: r.2.env.log } })

inductive Request (φ : Type)
  | operate (o : Operation φ)
  | eval (expr : Datum)
  | evaluate (expr : Datum)
  | evaluateOnce (expr : Datum) (bindings : List (String × Datum))
      (functions : List (String × Offer φ))

def Request.serve (h : Host φ (Logged φ ε)) (r : Request φ) (c : Calculator φ (Logged φ ε)) :
    Except Fault Reply × Calculator φ (Logged φ ε) :=
  match r with
  | operate o => o.record c
  | eval expr =>
    let r := c.eval h expr
    (r.1.map .outcome, r.2)
  | evaluate expr =>
    let r := c.evaluate h expr
    (r.1.map .value, r.2)
  | evaluateOnce expr bindings functions =>
    let r := Abacus.evaluateOnce h expr bindings functions c
    (r.1.map .value, r.2)

/-- A program stores its state before each request, and goes on with the answer and the calculator
as the request has left it. -/
inductive Program (φ ε α : Type)
  | pure (env : ε) (a : α)
  | request (env : ε) (r : Request φ)
      (next : Except Fault Reply → Calculator φ ε → Program φ ε α)

namespace Calculator

def visible (c : Calculator φ (Logged φ ε)) : Calculator φ ε := ⟨c.symbols, c.env.env⟩

def store (c : Calculator φ (Logged φ ε)) (env : ε) : Calculator φ (Logged φ ε) :=
  { c with env := { c.env with env } }

end Calculator

def Program.run (h : Host φ (Logged φ ε)) :
    Program φ ε α → Calculator φ (Logged φ ε) → α × Calculator φ (Logged φ ε)
  | .pure env a, c => (a, c.store env)
  | .request env r next, c =>
    let answer := r.serve h (c.store env)
    (next answer.1 answer.2.visible).run h answer.2

abbrev Behaviour (φ ε : Type) :=
  φ → List Int → Calculator φ ε → Program φ ε (Except Fault Datum)

/-- The host of callables that may call one another to a depth of `n`. -/
def Behaviour.host (b : Behaviour φ ε) : Nat → Host φ (Logged φ ε)
  | 0 => ⟨fun _ _ c => (.error .nestedTooDeep, c)⟩
  | n + 1 => ⟨fun f args c => (b f args c.visible).run (b.host n) c⟩

section preserve

variable {P : Calculator φ (Logged φ ε) → Prop}
  (hrecord : ∀ (o : Operation φ) c, P c → P (o.record c).2)
  (hstore : ∀ c env, P c → P (c.store env))

include hrecord

theorem Request.serve_preserves {h : Host φ (Logged φ ε)} (hP : h.Preserves P) (r : Request φ)
    {c : Calculator φ (Logged φ ε)} (hc : P c) : P (r.serve h c).2 := by
  cases r with
  | operate o => exact hrecord o c hc
  | eval expr => exact hP.eval expr hc
  | evaluate expr => exact hP.evaluate expr hc
  | evaluateOnce expr bindings functions => exact hP.evaluateOnce expr bindings functions hc

include hstore

theorem Program.run_preserves {h : Host φ (Logged φ ε)} (hP : h.Preserves P)
    (p : Program φ ε α) {c : Calculator φ (Logged φ ε)} (hc : P c) : P (p.run h c).2 := by
  induction p generalizing c with
  | pure env a => exact hstore c env hc
  | request env r next ih =>
    exact ih _ _ (Request.serve_preserves hrecord hP r (hstore c env hc))

/-- What every operation preserves, callables preserve, however deep their calls nest. -/
theorem Behaviour.host_preserves (b : Behaviour φ ε) (n : Nat) : (b.host n).Preserves P := by
  induction n with
  | zero => exact fun f args c hc => hc
  | succ n ih => exact fun f args c hc => Program.run_preserves hrecord hstore ih _ hc

end preserve

end Abacus
