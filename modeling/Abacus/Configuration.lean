import Abacus.Symbols

/-!
# Configurations

A configuration sets the limit on arities and the first variables. It is read from data with two
tables, `calculator` and `variables`; what else the data hold is ignored.
-/
namespace Abacus

structure Configuration where
  limit : Int := defaultLimit
  bindings : List (String × Datum) := []

namespace Configuration

def table (key : String) (data : List (String × Datum)) :
    Except Fault (List (Datum × Datum)) :=
  match data.lookup key with
  | none => .ok []
  | some (.dict entries) => .ok entries
  | some _ => .error (.configuration (.notTable key))

def checkLimit (d : Datum) : Except Fault Int :=
  match d with
  | .int (.ofNat n) => .ok n
  | _ => do throw (.configuration (.invalidLimit (← d.shown)))

def readLimit (entries : List (Datum × Datum)) : Except Fault Int :=
  match Datum.entry? "max_arg_num" entries with
  | none => .ok defaultLimit
  | some d => checkLimit d

/-- The name that a key gives. That it is none counts as a fault of the configuration. -/
def readName (key : Datum) : Except Fault String :=
  (checkName key).mapError fun
    | .binding e => .configuration (.variableName e)
    | f => f

def readVariable (entry : Datum × Datum) : Except Fault (String × Datum) := do
  let name ← readName entry.1
  match entry.2 with
  | .int n => return (name, .int n)
  | d => throw (.configuration (.variableValue (quoted name) (← d.shown)))

def ofData (data : List (String × Datum)) : Except Fault Configuration := do
  let settings ← table "calculator" data
  let entries ← table "variables" data
  let limit ← readLimit settings
  let bindings ← entries.mapM readVariable
  return { limit, bindings }

def symbols {φ : Type} (c : Configuration) : Except Fault (Symbols φ) :=
  c.bindings.foldlM (fun s (name, value) => do return (← s.setVariable (.text name) value).2)
    { limit := c.limit }

end Configuration

end Abacus
