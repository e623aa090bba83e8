import Abacus.Text.Printable

/-!
# Quoted text

A text is shown between single quotes, or between double quotes if it holds a single quote and no
double one. Inside, the backslash and the quote in use are escaped, and so is every character that
is not printable.
-/
namespace Abacus

def hexDigits (n : Nat) : Nat → List Char
  | 0 => []
  | width + 1 => hexDigits (n / 16) width ++ [Nat.digitChar (n % 16)]

def escapeByNumber (c : Char) : List Char :=
  let n := c.toNat
  if n < 0x100 then '\\' :: 'x' :: hexDigits n 2
  else if n < 0x10000 then '\\' :: 'u' :: hexDigits n 4
  else '\\' :: 'U' :: hexDigits n 8

def quotedChar (quote c : Char) : List Char :=
  if c = quote ∨ c = '\\' then ['\\', c]
  else if c = '\t' then ['\\', 't']
  else if c = '\n' then ['\\', 'n']
  else if c = '\r' then ['\\', 'r']
  else if isPrintable c then [c]
  else escapeByNumber c

def quoteFor (cs : List Char) : Char :=
  if cs.contains '\x27' && !cs.contains '\x22' then '\x22' else '\x27'

def quoted (s : String) : String :=
  let cs := s.toList
  let quote := quoteFor cs
  String.ofList (quote :: cs.flatMap (quotedChar quote) ++ [quote])

end Abacus
