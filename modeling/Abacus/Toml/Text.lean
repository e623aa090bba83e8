import Abacus.Fault
import Abacus.Text.Alphabet
import Abacus.Number.Numeral

/-!
# Strings and keys of TOML

Basic strings have escapes, literal strings have none; both exist on one line and over several.
A key is a path of parts with points between them, each a bare word or a string on one line.
-/
namespace Abacus.Toml

abbrev Rest (α : Type) := α × List Char

def malformed {α : Type} : Except Fault α := .error (.document .malformed)

/-- Control characters may not stand in a document, the tab and the end of a line apart. -/
def isControl (c : Char) : Bool := (c.toNat < 32 && c != '\t') || c.toNat == 127

def skipBlanks (s : List Char) : List Char := s.dropWhile isBlank

def skipComment : List Char → Except Fault (List Char)
  | '#' :: s =>
    if (s.takeWhile (· != '\n')).any isControl then malformed else .ok (s.dropWhile (· != '\n'))
  | s => .ok s

/-- Passes over blanks, ends of lines and comments; `inside` tells whether a comment is open. -/
def skipLines (inside : Bool) : List Char → Except Fault (List Char)
  | [] => .ok []
  | c :: s =>
    if c == '\n' then skipLines false s
    else if inside then (if isControl c then malformed else skipLines true s)
    else if isBlank c then skipLines false s
    else if c == '#' then skipLines true s
    else .ok (c :: s)

/-- The character with a number, which must not be half of a pair. -/
def scalar (digits : List Char) : Except Fault Char :=
  let n := ofDigits 16 digits
  if digits.all Base.hexadecimal.isDigit && n.isValidChar then .ok (Char.ofNat n) else malformed

def escapes : List (Char × Char) :=
  [('b', '\x08'), ('t', '\t'), ('n', '\n'), ('f', '\x0c'), ('r', '\r'), ('\x22', '\x22'),
    ('\\', '\\')]

/-- How far a backslash at the end of a line has been dealt with. -/
inductive Trim
  /-- None is open. -/
  | none
  /-- Only blanks may follow up to the end of the line. -/
  | line
  /-- Blanks and ends of lines are passed over. -/
  | all
  deriving DecidableEq

def cons (c : Char) (r : Except Fault (Rest (List Char))) : Except Fault (Rest (List Char)) :=
  r.map fun (cs, s) => (c :: cs, s)

def basicBody (lines : Bool) : Trim → List Char → Except Fault (Rest (List Char))
  | _, [] => malformed
  | .line, c :: s =>
    if isBlank c then basicBody lines .line s
    else if c == '\n' then basicBody lines .all s
    else malformed
  | .all, '\n' :: s => basicBody lines .all s
  | .all, ' ' :: s => basicBody lines .all s
  | .all, '\t' :: s => basicBody lines .all s
  | _, '\x22' :: s =>
    if lines then
      match s with
      | '\x22' :: '\x22' :: s => .ok ([], s)
      | _ => cons '\x22' (basicBody lines .none s)
    else .ok ([], s)
  | _, '\\' :: 'u' :: a :: b :: c :: d :: s => do
    cons (← scalar [a, b, c, d]) (basicBody lines .none s)
  | _, '\\' :: 'U' :: a :: b :: c :: d :: e :: f :: g :: h :: s => do
    cons (← scalar [a, b, c, d, e, f, g, h]) (basicBody lines .none s)
  | _, '\\' :: c :: s =>
    match escapes.lookup c with
    | some x => cons x (basicBody lines .none s)
    | none =>
      if lines && c == '\n' then basicBody lines .all s
      else if lines && isBlank c then basicBody lines .line s
      else malformed
  | _, c :: s =>
    if isControl c && !(lines && c == '\n') then malformed
    else cons c (basicBody lines .none s)

def literalBody : List Char → Except Fault (Rest (List Char))
  | [] => malformed
  | '\x27' :: '\x27' :: '\x27' :: s => .ok ([], s)
  | c :: s => if isControl c && c != '\n' then malformed else cons c (literalBody s)

/-- Behind the three closing quotes up to two more may stand that belong to the string. -/
def closingQuotes (quote : Char) (r : Except Fault (Rest (List Char))) :
    Except Fault (Rest (List Char)) :=
  r.map fun (cs, s) =>
    let extra := (s.take 2).takeWhile (· == quote)
    (cs ++ extra, s.drop extra.length)

def dropBreak : List Char → List Char
  | '\n' :: s => s
  | s => s

def literalLine (s : List Char) : Except Fault (Rest (List Char)) :=
  let body := s.takeWhile (· != '\x27')
  match s.drop body.length with
  | [] => malformed
  | _ :: rest => if body.any isControl then malformed else .ok (body, rest)

def string? : List Char → Option (Except Fault (Rest (List Char)))
  | '\x22' :: '\x22' :: '\x22' :: s =>
    some (closingQuotes '\x22' (basicBody true .none (dropBreak s)))
  | '\x22' :: s => some (basicBody false .none s)
  | '\x27' :: '\x27' :: '\x27' :: s => some (closingQuotes '\x27' (literalBody (dropBreak s)))
  | '\x27' :: s => some (literalLine s)
  | _ => none

def isBare (c : Char) : Bool := c.isAlphanum || c == '-' || c == '_'

def keyPart (s : List Char) : Except Fault (Rest String) :=
  let bare := s.takeWhile isBare
  if !bare.isEmpty then .ok (String.ofList bare, s.drop bare.length)
  else
    let part (r : Except Fault (Rest (List Char))) : Except Fault (Rest String) :=
      r.map fun (cs, s) => (String.ofList cs, s)
    match s with
    | '\x22' :: s => part (basicBody false .none s)
    | '\x27' :: s => part (literalLine s)
    | _ => malformed

def keyParts : Nat → List Char → Except Fault (Rest (List String))
  | 0, _ => malformed
  | n + 1, s => do
    let (part, s) ← keyPart s
    match skipBlanks s with
    | '.' :: s =>
      let (parts, s) ← keyParts n (skipBlanks s)
      return (part :: parts, s)
    | s => return ([part], s)

def key (s : List Char) : Except Fault (Rest (List String)) := keyParts s.length s

end Abacus.Toml
