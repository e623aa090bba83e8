import Abacus.Datum
import Abacus.Toml.Text

/-!
# Tables of a TOML document

While a document is read its tables form a tree. A node remembers how its table came about, since
this decides whether a later line may still open or extend it: a table that a header names may be
named by no other header, one that a dotted key made may grow only under the same header, and an
inline value is closed for good.
-/
namespace Abacus.Toml

inductive Origin
  /-- On the way to a table that a header names. -/
  | implied
  /-- By a dotted key, under the header of this number. -/
  | dotted (header : Nat)
  /-- By its own header. -/
  | named
  deriving DecidableEq

inductive Node
  | value (d : Datum)
  | table (origin : Origin) (entries : List (String × Node))
  /-- An array of tables; only the last one is still open. -/
  | tables (closed : List Datum) (last : List (String × Node))

abbrev Entries := List (String × Node)

mutual

def Node.datum : Node → Datum
  | .value d => d
  | .table _ entries => Datum.table (entriesData entries)
  | .tables closed last => .list (closed ++ [Datum.table (entriesData last)])

def entriesData : List (String × Node) → List (String × Datum)
  | [] => []
  | (key, node) :: entries => (key, node.datum) :: entriesData entries

end

def alter (key : String) (f : Option Node → Except Fault Node) : Entries → Except Fault Entries
  | [] => do return [(key, ← f none)]
  | (k, node) :: entries =>
    if k = key then do return (k, ← f (some node)) :: entries
    else do return (k, node) :: (← alter key f entries)

/-- Changes the entries at the end of the path of a header. Of an array of tables the path enters
the last one. -/
def descend (f : Entries → Except Fault Entries) : List String → Entries → Except Fault Entries
  | [], entries => f entries
  | key :: path, entries =>
    alter key (fun
      | none => do return .table .implied (← descend f path [])
      | some (.table origin inner) => do return .table origin (← descend f path inner)
      | some (.tables closed last) => do return .tables closed (← descend f path last)
      | some (.value _) => malformed) entries

def openTable : Option Node → Except Fault Node
  | none => .ok (.table .named [])
  | some (.table .implied entries) => .ok (.table .named entries)
  | some _ => malformed

def appendTable : Option Node → Except Fault Node
  | none => .ok (.tables [] [])
  | some (.tables closed last) => .ok (.tables (closed ++ [Datum.table (entriesData last)]) [])
  | some _ => malformed

def enter (f : Option Node → Except Fault Node) (key : List String) (entries : Entries) :
    Except Fault Entries :=
  match key.getLast? with
  | none => malformed
  | some last => descend (alter last f) key.dropLast entries

def put (n : Nat) (d : Datum) : List String → Entries → Except Fault Entries
  | [], _ => malformed
  | [key], entries =>
    alter key (fun
      | none => .ok (.value d)
      | some _ => malformed) entries
  | key :: path, entries =>
    alter key (fun
      | none => do return .table (.dotted n) (← put n d path [])
      | some (.table origin inner) =>
        if origin = .implied ∨ origin = .dotted n then
          do return .table (.dotted n) (← put n d path inner)
        else malformed
      | some _ => malformed) entries

end Abacus.Toml
