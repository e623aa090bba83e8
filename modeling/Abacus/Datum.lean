import Abacus.Fault
import Abacus.Text.Quoted

/-!
# Data

Data are the values that the embedding program hands over and that host functions return. Only
integers take part in formulas; the others are told apart to be refused, and are shown in the
message of the refusal. Truth values are not integers.
-/
namespace Abacus

inductive Datum
  | null
  | bool (b : Bool)
  | int (n : Int)
  | text (s : String)
  | list (items : List Datum)
  | dict (entries : List (Datum × Datum))
  /-- A datum of some further type, known by the name of the type and by how it is shown. -/
  | other (type shown : String)
  deriving Inhabited

namespace Datum

def typeName : Datum → String
  | null => "NoneType"
  | bool _ => "bool"
  | int _ => "int"
  | text _ => "str"
  | list _ => "list"
  | dict _ => "dict"
  | other type _ => type

mutual

def shown : Datum → Except Fault String
  | null => .ok "None"
  | bool b => .ok (if b then "True" else "False")
  | int n => decimal n
  | text s => .ok (quoted s)
  | list items => do
    let texts ← shownItems items
    return "[" ++ ", ".intercalate texts ++ "]"
  | dict entries => do
    let texts ← shownEntries entries
    return "\x7b" ++ ", ".intercalate texts ++ "\x7d"
  | other _ shown => .ok shown

def shownItems : List Datum → Except Fault (List String)
  | [] => .ok []
  | d :: ds => do
    let text ← shown d
    let texts ← shownItems ds
    return text :: texts

def shownEntries : List (Datum × Datum) → Except Fault (List String)
  | [] => .ok []
  | (key, d) :: ds => do
    let name ← shown key
    let text ← shown d
    let texts ← shownEntries ds
    return (name ++ ": " ++ text) :: texts

end

def table (entries : List (String × Datum)) : Datum :=
  .dict (entries.map fun (key, d) => (.text key, d))

/-- What stands under a text. A key that is no text is none. -/
def entry? (key : String) (entries : List (Datum × Datum)) : Option Datum :=
  entries.findSome? fun
    | (.text k, d) => if k = key then some d else none
    | _ => none

def putEntry {α : Type} (key : String) (d : α) : List (String × α) → List (String × α)
  | [] => [(key, d)]
  | (k, e) :: entries => if k = key then (k, d) :: entries else (k, e) :: putEntry key d entries

/-- Entries of which a later one replaces an earlier one of the same key, in the earlier place. -/
def entriesOf {α : Type} (entries : List (String × α)) : List (String × α) :=
  entries.foldl (fun acc e => putEntry e.1 e.2 acc) []

end Datum

end Abacus
