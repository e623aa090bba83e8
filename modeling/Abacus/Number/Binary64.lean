/-!
# Binary floating-point numbers

Numbers of 53 binary digits and a bounded exponent. A decimal is rounded to the nearest of them,
a half to the even neighbour. A number is shown by the fewest decimal digits that are rounded to
it, and of these by the nearest; the point is written out for exponents from -4 to 15.
-/
namespace Abacus

inductive Binary64
  /-- `mantissa * 2 ^ exponent`, negated or not. -/
  | finite (negative : Bool) (mantissa : Nat) (exponent : Int)
  | infinite (negative : Bool)
  | notNumber
  deriving DecidableEq

namespace Binary64

/-- The integer nearest to `num / den`; of two that are equally near, the even one. -/
def nearestInteger (num den : Nat) : Nat :=
  let q := num / den
  let r := num % den
  if 2 * r < den ∨ (2 * r = den ∧ q % 2 = 0) then q else q + 1

def scale (base : Nat) (e : Int) (x : Nat × Nat) : Nat × Nat :=
  if 0 ≤ e then (x.1 * base.pow e.toNat, x.2) else (x.1, x.2 * base.pow (-e).toNat)

def least : Int := -1074

def greatest : Int := 971

/-- The exponent of the last binary digit that is kept of a positive fraction. -/
def lastBit (x : Nat × Nat) : Int :=
  let e : Int := x.1.log2 - x.2.log2
  let y := scale 2 (-e) x
  max least ((if y.2 ≤ y.1 then e else e - 1) - 52)

def nearest (x : Nat × Nat) : Option (Nat × Int) :=
  if x.1 = 0 then some (0, least)
  else
    let e := lastBit x
    let y := scale 2 (-e) x
    let m := nearestInteger y.1 y.2
    let r := if m = Nat.pow 2 53 then (Nat.pow 2 52, e + 1) else (m, e)
    if greatest < r.2 then none else some r

/-- The number nearest to `digits * 10 ^ exponent`. Exponents far outside the range are not
multiplied out. -/
def ofDecimal (negative : Bool) (digits : Nat) (exponent : Int) : Binary64 :=
  let width : Int := (Nat.toDigits 10 digits).length
  if digits = 0 ∨ exponent + width < -400 then finite negative 0 least
  else if 400 < exponent + width then infinite negative
  else
    match nearest (scale 10 exponent (digits, 1)) with
    | some (m, e) => finite negative m e
    | none => infinite negative

def magnitude (x : Nat × Nat) : Int :=
  let below (i : Nat) : Bool := let y := scale 10 (340 - i) x; y.1 < y.2
  (((List.range 700).find? below).getD 0 : Int) - 340

/-- The decimal of `n` digits nearest to the fraction, among those that round to `target`. -/
def candidate (target : Nat × Int) (x : Nat × Nat) (n : Nat) : Option (Nat × Int) :=
  let e := magnitude x - n
  let y := scale 10 (-e) x
  let low := y.1 / y.2
  let fits (d : Nat) : Bool := nearest (scale 10 e (d, 1)) = some target
  let order := if nearestInteger y.1 y.2 = low then [low, low + 1] else [low + 1, low]
  (order.find? fits).map fun d => (d, e)

/-- The fewest decimal digits that are rounded to `m * 2 ^ e`, with their exponent. -/
def shortest (m : Nat) (e : Int) : Nat × Int :=
  let x := scale 2 e (m, 1)
  ((List.range 17).findSome? fun n => candidate (m, e) x (n + 1)).getD (0, 0)

def zeros (n : Int) : List Char := List.replicate n.toNat '0'

def layout (ds : List Char) (k : Int) : List Char :=
  let n : Int := ds.length
  if k ≤ -4 ∨ 16 < k then
    let e := k - 1
    let width := (toString e.natAbs).toList
    ds.take 1 ++ (if ds.length = 1 then [] else '.' :: ds.drop 1) ++
      ['e', if e < 0 then '-' else '+'] ++ zeros (2 - width.length) ++ width
  else if k ≤ 0 then '0' :: '.' :: zeros (-k) ++ ds
  else if n ≤ k then ds ++ zeros (k - n) ++ ['.', '0']
  else ds.take k.toNat ++ '.' :: ds.drop k.toNat

def shown : Binary64 → String
  | notNumber => "nan"
  | infinite negative => if negative then "-inf" else "inf"
  | finite negative m e =>
    let text :=
      if m = 0 then ['0', '.', '0']
      else
        let (d, g) := shortest m e
        let ds := Nat.toDigits 10 d
        layout (ds.reverse.dropWhile (· == '0')).reverse (g + ds.length)
    String.ofList (if negative then '-' :: text else text)

end Binary64

end Abacus
