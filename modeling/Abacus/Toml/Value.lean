import Abacus.Toml.Moment
import Abacus.Toml.Number
import Abacus.Toml.Tree

/-!
# Values of TOML

Strings, truth values, numbers, dates, arrays and inline tables. Arrays may go over several lines
and hold comments; inline tables keep to one line.
-/
namespace Abacus.Toml

def scalarValue (s : List Char) : Except Fault (Rest Datum) :=
  match string? s with
  | some r => r.map fun (cs, s) => (.text (String.ofList cs), s)
  | none =>
    match s with
    | 't' :: 'r' :: 'u' :: 'e' :: s => .ok (.bool true, s)
    | 'f' :: 'a' :: 'l' :: 's' :: 'e' :: s => .ok (.bool false, s)
    | s => ((moment? s).or (number? s)).getD malformed

mutual

def valueIn : Nat → List Char → Except Fault (Rest Datum)
  | 0, _ => malformed
  | n + 1, '[' :: s => do
    let (items, s) ← itemsIn n (← skipLines false s)
    return (.list items, s)
  | n + 1, '\x7b' :: s =>
    match skipBlanks s with
    | '\x7d' :: s => .ok (.dict [], s)
    | s => do
      let (entries, s) ← membersIn n [] s
      return (Datum.table (entriesData entries), s)
  | _ + 1, s => scalarValue s

def itemsIn : Nat → List Char → Except Fault (Rest (List Datum))
  | 0, _ => malformed
  | _ + 1, ']' :: s => .ok ([], s)
  | n + 1, s => do
    let (d, s) ← valueIn n s
    match ← skipLines false s with
    | ']' :: s => return ([d], s)
    | ',' :: s =>
      let (items, s) ← itemsIn n (← skipLines false s)
      return (d :: items, s)
    | _ => malformed

def membersIn : Nat → Entries → List Char → Except Fault (Rest Entries)
  | 0, _, _ => malformed
  | n + 1, entries, s => do
    let (path, s) ← key s
    match s with
    | '=' :: s =>
      let (d, s) ← valueIn n (skipBlanks s)
      let entries ← put 0 d path entries
      match skipBlanks s with
      | '\x7d' :: s => return (entries, s)
      | ',' :: s => membersIn n entries (skipBlanks s)
      | _ => malformed
    | _ => malformed

end

/-- A value. Each step of reading it passes over a character or is followed by one that does. -/
def value (s : List Char) : Except Fault (Rest Datum) := valueIn (2 * s.length + 2) s

end Abacus.Toml
