import Abacus.Datum
import Abacus.Toml.Text

/-!
# Dates and times of TOML

A date, a time of day, or both with an optional offset. Fractions of a second count to six places.
-/
namespace Abacus.Toml

structure Date where
  year : Nat
  month : Nat
  day : Nat
  deriving DecidableEq

structure Time where
  hour : Nat
  minute : Nat
  second : Nat
  micro : Nat
  deriving DecidableEq

def fixed (n : Nat) (s : List Char) : Option (Nat × List Char) :=
  let ds := s.take n
  if ds.length = n ∧ ds.all Char.isDigit then some (ofDigits 10 ds, s.drop n) else none

def expect (c : Char) : List Char → Option (List Char)
  | x :: s => if x = c then some s else none
  | [] => none

def within (low high : Nat) (r : Nat × List Char) : Option (Nat × List Char) :=
  if low ≤ r.1 ∧ r.1 ≤ high then some r else none

def date? (s : List Char) : Option (Date × List Char) := do
  let (year, s) ← fixed 4 s
  let s ← expect '-' s
  let (month, s) ← fixed 2 s >>= within 1 12
  let s ← expect '-' s
  let (day, s) ← fixed 2 s >>= within 1 31
  return (⟨year, month, day⟩, s)

def micros : List Char → Nat × List Char
  | '.' :: s =>
    let ds := s.takeWhile Char.isDigit
    if ds.isEmpty then (0, '.' :: s)
    else
      let six := ds.take 6
      (ofDigits 10 (six ++ List.replicate (6 - six.length) '0'), s.drop ds.length)
  | s => (0, s)

def time? (s : List Char) : Option (Time × List Char) := do
  let (hour, s) ← fixed 2 s >>= within 0 23
  let s ← expect ':' s
  let (minute, s) ← fixed 2 s >>= within 0 59
  let s ← expect ':' s
  let (second, s) ← fixed 2 s >>= within 0 59
  let (micro, s) := micros s
  return (⟨hour, minute, second, micro⟩, s)

def offset? : List Char → Option (Int × List Char)
  | 'Z' :: s => some (0, s)
  | 'z' :: s => some (0, s)
  | c :: s => do
    guard (c = '+' ∨ c = '-')
    let (hour, s) ← fixed 2 s >>= within 0 23
    let s ← expect ':' s
    let (minute, s) ← fixed 2 s >>= within 0 59
    let n : Int := hour * 60 + minute
    return (if c = '-' then -n else n, s)
  | [] => none

def isLeap (year : Nat) : Bool := year % 4 == 0 && (year % 100 != 0 || year % 400 == 0)

def daysIn (year month : Nat) : Nat :=
  if month = 2 then (if isLeap year then 29 else 28)
  else if month = 4 ∨ month = 6 ∨ month = 9 ∨ month = 11 then 30
  else 31

def Date.isValid (d : Date) : Bool := 1 ≤ d.year && d.day ≤ daysIn d.year d.month

def Date.fields (d : Date) : List Nat := [d.year, d.month, d.day]

/-- Seconds are left out if there are none, and so are millionths. -/
def Time.fields (t : Time) : List Nat :=
  if t.micro ≠ 0 then [t.hour, t.minute, t.second, t.micro]
  else if t.second ≠ 0 then [t.hour, t.minute, t.second]
  else [t.hour, t.minute]

def offsetShown (minutes : Int) : String :=
  if minutes = 0 then "datetime.timezone.utc"
  else if 0 < minutes then
    "datetime.timezone(datetime.timedelta(seconds=" ++ toString (minutes * 60) ++ "))"
  else
    "datetime.timezone(datetime.timedelta(days=-1, seconds=" ++
      toString (86400 + minutes * 60) ++ "))"

def moment (type : String) (fields : List Nat) (offset : Option Int) : Datum :=
  let texts := fields.map toString ++ (offset.map fun n => "tzinfo=" ++ offsetShown n).toList
  .other type ("datetime." ++ type ++ "(" ++ ", ".intercalate texts ++ ")")

def timeOfDay? : List Char → Option (Time × List Char)
  | c :: s => if c = 'T' ∨ c = 't' ∨ c = ' ' then time? s else none
  | [] => none

def moment? (s : List Char) : Option (Except Fault (Rest Datum)) :=
  match date? s with
  | some (d, s) =>
    if d.isValid then
      match timeOfDay? s with
      | none => some (.ok (moment "date" d.fields none, s))
      | some (t, s) =>
        let offset := offset? s
        let s := (offset.map Prod.snd).getD s
        some (.ok (moment "datetime" (d.fields ++ t.fields) (offset.map Prod.fst), s))
    else some malformed
  | none => (time? s).map fun (t, s) => .ok (moment "time" t.fields none, s)

end Abacus.Toml
