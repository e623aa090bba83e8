import Abacus.Toml.Value

/-!
# TOML documents

A document is a sequence of lines: headers of tables, headers of arrays of tables, keys with
values, comments and empty lines. The lines below a header belong to its table.
-/
namespace Abacus.Toml

structure Progress where
  entries : Entries := []
  header : List String := []
  count : Nat := 0

def close : List Char → List Char → Except Fault (List Char)
  | [], s => .ok s
  | c :: cs, x :: s => if c = x then close cs s else malformed
  | _ :: _, [] => malformed

/-- Opens the table that a header names, with `f` at the last part of its key. -/
def header (f : Option Node → Except Fault Node) (closing : List Char) (s : List Char)
    (p : Progress) : Except Fault (Rest Progress) := do
  let (path, s) ← key (skipBlanks s)
  let entries ← enter f path p.entries
  let s ← close closing s
  return (⟨entries, path, p.count + 1⟩, s)

def keyValue (s : List Char) (p : Progress) : Except Fault (Rest Progress) := do
  let (path, s) ← key s
  let s ← close ['='] s
  let (d, s) ← value (skipBlanks s)
  let entries ← descend (put p.count d path) p.header p.entries
  return ({ p with entries }, s)

def statement (s : List Char) (p : Progress) : Except Fault (Rest Progress) :=
  match s with
  | '[' :: '[' :: s => header appendTable [']', ']'] s p
  | '[' :: s => header openTable [']'] s p
  | s => keyValue s p

def isEmptyLine (s : List Char) : Bool :=
  match s with
  | [] => true
  | c :: _ => c == '\n' || c == '#'

def lines : Nat → Progress → List Char → Except Fault Progress
  | 0, _, _ => malformed
  | n + 1, p, s => do
    let s := skipBlanks s
    let (p, s) ← if isEmptyLine s then .ok (p, s) else statement s p
    match ← skipComment (skipBlanks s) with
    | [] => return p
    | '\n' :: s => lines n p s
    | _ => malformed

/-- Ends of lines may be written with a carriage return, before the line feed or alone. -/
def unifyBreaks : List Char → List Char
  | '\r' :: '\n' :: s => '\n' :: unifyBreaks s
  | '\r' :: s => '\n' :: unifyBreaks s
  | c :: s => c :: unifyBreaks s
  | [] => []

def read (s : List Char) : Except Fault (List (String × Datum)) := do
  let s := unifyBreaks s
  let p ← lines (s.length + 1) {} s
  return entriesData p.entries

end Abacus.Toml
