import Abacus.Datum
import Abacus.Number.Binary64
import Abacus.Toml.Text

/-!
# Numbers of TOML

Integers are decimal with an optional sign, or hexadecimal, octal or binary. A decimal integer
with a fraction or an exponent behind it is a floating-point number. Single underscores may stand
between digits.
-/
namespace Abacus.Toml

def moreDigits (p : Char → Bool) : List Char → List Char × List Char
  | '_' :: c :: s =>
    if p c then
      let r := moreDigits p s
      (c :: r.1, r.2)
    else ([], '_' :: c :: s)
  | c :: s =>
    if p c then
      let r := moreDigits p s
      (c :: r.1, r.2)
    else ([], c :: s)
  | [] => ([], [])

def digitRun (p : Char → Bool) (s : List Char) : Option (List Char × List Char) :=
  match s with
  | c :: s =>
    if p c then
      let r := moreDigits p s
      some (c :: r.1, r.2)
    else none
  | [] => none

def isOctal (c : Char) : Bool := '0' ≤ c && c ≤ '7'

def based : List Char → Option (Int × List Char)
  | '0' :: 'x' :: s => (digitRun Base.hexadecimal.isDigit s).map fun (ds, s) => (ofDigits 16 ds, s)
  | '0' :: 'o' :: s => (digitRun isOctal s).map fun (ds, s) => (ofDigits 8 ds, s)
  | '0' :: 'b' :: s => (digitRun Base.binary.isDigit s).map fun (ds, s) => (ofDigits 2 ds, s)
  | _ => none

def sign : List Char → Bool × List Char
  | '-' :: s => (true, s)
  | '+' :: s => (false, s)
  | s => (false, s)

def wholePart : List Char → Option (List Char × List Char)
  | '0' :: s => some (['0'], s)
  | s => digitRun Char.isDigit s

def fraction : List Char → Option (List Char × List Char)
  | '.' :: s => digitRun Char.isDigit s
  | _ => none

def exponent : List Char → Option (Int × List Char)
  | c :: s =>
    if c == 'e' || c == 'E' then
      let (negative, s) := sign s
      (digitRun Char.isDigit s).map fun (ds, s) =>
        let n : Int := ofDigits 10 ds
        (if negative then -n else n, s)
    else none
  | [] => none

def float (x : Binary64) : Datum := .other "float" x.shown

def special (negative : Bool) : List Char → Option (Datum × List Char)
  | 'i' :: 'n' :: 'f' :: s => some (float (.infinite negative), s)
  | 'n' :: 'a' :: 'n' :: s => some (float .notNumber, s)
  | _ => none

def decimalNumber (s : List Char) : Option (Except Fault (Rest Datum)) :=
  let (negative, s) := sign s
  match wholePart s with
  | none => (special negative s).map .ok
  | some (whole, s) =>
    let part := fraction s
    let s := (part.map Prod.snd).getD s
    let power := exponent s
    let s := (power.map Prod.snd).getD s
    if part.isNone && power.isNone then
      if digitLimit < whole.length then some (.error .numeralTooLong)
      else
        let n : Int := ofDigits 10 whole
        some (.ok (.int (if negative then -n else n), s))
    else
      let places := (part.map Prod.fst).getD []
      let e := (power.map Prod.fst).getD 0
      let x := Binary64.ofDecimal negative (ofDigits 10 (whole ++ places)) (e - places.length)
      some (.ok (float x, s))

def number? (s : List Char) : Option (Except Fault (Rest Datum)) :=
  match based s with
  | some (n, s) => some (.ok (.int n, s))
  | none => decimalNumber s

end Abacus.Toml
