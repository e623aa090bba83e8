import Abacus.Text.Alphabet

/-!
# Numerals

An integer is written in decimal, in hexadecimal after `0x`, or in binary after `0b`; the letter of
the marker may be large or small. A numeral ends where the letters and digits end: one that runs
into another letter or digit is malformed. Decimal numerals are read up to a fixed number of
digits, leading zeros counted.
-/
namespace Abacus

inductive Base
  | decimal
  | hexadecimal
  | binary
  deriving DecidableEq

namespace Base

def radix : Base → Nat
  | decimal => 10
  | hexadecimal => 16
  | binary => 2

def isDigit : Base → Char → Bool
  | decimal, c => c.isDigit
  | hexadecimal, c => c.isDigit || ('a' ≤ c && c ≤ 'f') || ('A' ≤ c && c ≤ 'F')
  | binary, c => c == '0' || c == '1'

def announced : List Char → Base × Nat
  | '0' :: 'x' :: _ => (hexadecimal, 2)
  | '0' :: 'X' :: _ => (hexadecimal, 2)
  | '0' :: 'b' :: _ => (binary, 2)
  | '0' :: 'B' :: _ => (binary, 2)
  | _ => (decimal, 0)

end Base

def digitValue (c : Char) : Nat :=
  if c.isDigit then c.toNat - 48
  else if 'a' ≤ c && c ≤ 'f' then c.toNat - 87
  else c.toNat - 55

def ofDigits (radix : Nat) (digits : List Char) : Nat :=
  digits.foldl (fun n c => n * radix + digitValue c) 0

/-- The most decimal digits that a numeral may have, in a formula or in a message. -/
def digitLimit : Nat := 4300

/-- The marker and the digits at the beginning of a text, as far as they belong to its base. -/
structure Numeral where
  base : Base
  marker : Nat
  digits : List Char
  deriving DecidableEq

namespace Numeral

def leading (s : List Char) : Numeral :=
  let (base, marker) := Base.announced s
  ⟨base, marker, (s.drop marker).takeWhile base.isDigit⟩

def length (x : Numeral) : Nat := x.marker + x.digits.length

def value (x : Numeral) : Nat := ofDigits x.base.radix x.digits

inductive Reading
  | value (n : Nat)
  | malformed
  | tooLong
  deriving DecidableEq

def read (s : List Char) : Reading :=
  let x := leading s
  if x.digits.isEmpty || (s.drop x.length).head?.any Char.isAlphanum then .malformed
  else if x.base = .decimal ∧ digitLimit < x.digits.length then .tooLong
  else .value x.value

end Numeral

end Abacus
