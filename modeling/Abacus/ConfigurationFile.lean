import Abacus.Configuration
import Abacus.Toml.Document

/-!
# Configuration files

A configuration may be kept in a file, as a TOML document in UTF-8.
-/
namespace Abacus

def Configuration.load (file : Option ByteArray) : Except Fault Configuration :=
  match file with
  | none => .error (.document .missing)
  | some bytes =>
    match String.fromUTF8? bytes with
    | none => .error (.document .notText)
    | some s => Toml.read s.toList >>= Configuration.ofData

end Abacus
