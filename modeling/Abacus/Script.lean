import Abacus.Calculator

/-!
# Scripted host functions

A script is a host function given as data. It can compute with its arguments, answer with any
datum, raise, change the calculator that it runs on, and evaluate further expressions, on that
calculator or on a new one. Every call of a script is logged before it runs.
-/
namespace Abacus.Script

inductive Action
  | sum
  /-- Reads the arguments as the digits of a decimal number. -/
  | digits
  | constant (d : Datum)
  | raise (label message : String)
  | fail (kind : ErrorKind) (position : Option Int)
  | evaluate (expr : Datum)
  | evaluateOr (expr default : Datum)
  | evaluateOnce (expr : Datum)
  | set (name : Datum)
  | unbind (name : String)
  | bindStandard (name : Datum) (f : Standard)

/-- What a callable of the embedding program is: a script, or what was given in the place of one
unchecked. A routine given so is called with integers where it wants one list; a datum cannot be
called at all. -/
inductive Handle
  | script (label : String) (action : Action)
  | routine
  | datum (d : Datum)

abbrev Log := List (String × List Int)

abbrev Machine := Calculator Handle Log

def letters : List String :=
  (List.range 26).map fun i => String.singleton (Char.ofNat (97 + i))

def Action.run (h : Host Handle Log) (args : List Int) (c : Machine) :
    Action → Except Fault Datum × Machine
  | sum => (.ok (.int (args.foldl (· + ·) 0)), c)
  | digits => (.ok (.int (args.foldl (fun acc a => acc * 10 + a) 0)), c)
  | constant d => (.ok d, c)
  | raise label message => (.error (.foreign label message), c)
  | fail kind position => (.error (.evaluation ⟨kind, position⟩), c)
  | evaluate expr =>
    let r := c.evaluate h expr
    (r.1.map .int, r.2)
  | evaluateOr expr default =>
    let r := c.eval h expr
    (r.1.map fun o => (o.value?.map .int).getD default, r.2)
  | evaluateOnce expr =>
    let bindings := letters.zip (args.map .int)
    let r := Abacus.evaluateOnce h expr bindings [] c
    (r.1.map .int, r.2)
  | set name =>
    let r := c.set name (.int (args.headD 0))
    (r.1.map fun previous => .int (previous.getD (-1)), r.2)
  | unbind name =>
    let r := c.unbind name
    (.ok (.int (if r.1 then 1 else 0)), r.2)
  | bindStandard name f =>
    let r := c.bindFunction name (.routine f.routine) none
    (r.1.map fun _ => .int (args.foldl (· + ·) 0), r.2)

/-- Why a routine cannot be called with these integers in the place of a list and a position. The
routine itself counts among what is given to it. -/
def misuse (args : List Int) : TypeError :=
  match args with
  | [] => .missingList
  | [n] => .notList (Datum.int n).typeName
  | [n, _] => .notList (Datum.int n).typeName
  | _ => .surplus (args.length + 1)

def host : Nat → Host Handle Log
  | 0 => ⟨fun _ _ c => (.error .nestedTooDeep, c)⟩
  | n + 1 => ⟨fun handle args c =>
    match handle with
    | .script label action =>
      action.run (host n) args { c with env := (label, args) :: c.env }
    | .routine => (.error (.type (misuse args)), c)
    | .datum d => (.error (.type (.notCallable d.typeName)), c)⟩

def maxDepth : Nat := 10000

end Abacus.Script
