import Candlewick.Calendar.Date
import Candlewick.Decimal.Reader
import Candlewick.Text.Blank

namespace Candlewick.Calendar

/-- A time of day in milliseconds. -/
abbrev Milliseconds := Int

/-- The milliseconds of a day. -/
def dayLength : Milliseconds := 86400000

/-- The first whole number that does not fit in 64 bits with a sign. -/
def integerBound : Int := 9223372036854775808

/-- A whole number of 64 bits with an optional sign. -/
def integer? (cs : List Char) : Option Int :=
  let (negative, digits) := Decimal.signed cs
  let magnitude : Int := Decimal.natural digits
  let value := if negative then -magnitude else magnitude
  if digits ≠ [] ∧ digits.all Char.isDigit ∧ -integerBound ≤ value ∧ value < integerBound then
    some value
  else
    none

/-- At least one digit and at most `most`, and the rest. -/
def digitsUpTo? (most : Nat) (cs : List Char) : Option (Nat × List Char) :=
  let digits := (cs.take most).takeWhile Char.isDigit
  if digits = [] then none else some (Decimal.natural digits, cs.drop digits.length)

/-- Exactly `count` digits, and the rest. -/
def digitsExactly? (count : Nat) (cs : List Char) : Option (Nat × List Char) :=
  let digits := cs.take count
  if digits.length = count ∧ digits.all Char.isDigit then
    some (Decimal.natural digits, cs.drop count)
  else
    none

/-- What follows a given character. -/
def after? (expected : Char) : List Char → Option (List Char)
  | [] => none
  | c :: rest => if c = expected then some rest else none

/-- A year: up to four digits, or any number of them behind a sign. -/
def year? (cs : List Char) : Option (Int × List Char) :=
  match cs with
  | '-' :: rest => (digitsUpTo? rest.length rest).map fun (year, rest) => (-(year : Int), rest)
  | '+' :: rest => (digitsUpTo? rest.length rest).map fun (year, rest) => ((year : Int), rest)
  | _ => (digitsUpTo? 4 cs).map fun (year, rest) => ((year : Int), rest)

/-- A date that the calendar has. -/
def Date.checked? (date : Date) : Option Date :=
  if date.isValid then some date else none

/-- A date on its own: year, month and day with hyphens between them. Blanks may stand before the
    month and before the day. -/
def date? (cs : List Char) : Option Date := do
  let (year, rest) ← year? cs
  let rest ← after? '-' rest
  let (month, rest) ← digitsUpTo? 2 (Text.trimmedStart rest)
  let rest ← after? '-' rest
  let (day, rest) ← digitsUpTo? 2 (Text.trimmedStart rest)
  if rest = [] then Date.checked? ⟨year, month, day⟩ else none

/-- The fraction of a second after its point, cut to milliseconds. -/
def fraction? (cs : List Char) : Option (Milliseconds × List Char) :=
  let digits := cs.takeWhile Char.isDigit
  if digits = [] then
    none
  else
    some (Decimal.natural ((digits ++ ['0', '0']).take 3), cs.dropWhile Char.isDigit)

/-- A time of day with seconds. The sixtieth second is the first one of the next minute. -/
def time? (cs : List Char) : Option (Milliseconds × List Char) := do
  let (hour, rest) ← digitsExactly? 2 cs
  let rest ← after? ':' rest
  let (minute, rest) ← digitsExactly? 2 rest
  let rest ← after? ':' rest
  let (second, rest) ← digitsExactly? 2 rest
  let (fraction, rest) ←
    match rest with
    | '.' :: behind => fraction? behind
    | _ => some (0, rest)
  if hour < 24 ∧ minute < 60 ∧ second ≤ 60 then
    some (((hour * 60 + minute) * 60 + second : Nat) * 1000 + fraction, rest)
  else
    none

/-- Hours and minutes of a distance from universal time. -/
def distance? (cs : List Char) : Option (Milliseconds × List Char) := do
  let (hours, rest) ← digitsExactly? 2 cs
  let rest ← after? ':' rest
  let (minutes, rest) ← digitsExactly? 2 rest
  if hours < 24 ∧ minutes < 60 then
    some ((hours * 60 + minutes : Nat) * 60000, rest)
  else
    none

/-- The distance of a clock from universal time. -/
def offset? : List Char → Option (Milliseconds × List Char)
  | [] => none
  | c :: rest =>
    if c = 'Z' ∨ c = 'z' then
      some (0, rest)
    else if c = '+' then
      distance? rest
    else if c = '-' ∨ c = '−' then
      (distance? rest).map fun (distance, rest) => (-distance, rest)
    else
      none

/-- A date with a time and the distance of its clock from universal time. -/
def moment? (cs : List Char) : Option Milliseconds := do
  let (year, rest) ← digitsExactly? 4 cs
  let rest ← after? '-' rest
  let (month, rest) ← digitsExactly? 2 rest
  let rest ← after? '-' rest
  let (day, rest) ← digitsExactly? 2 rest
  let rest ← after? 'T' rest <|> after? 't' rest <|> after? ' ' rest
  let (time, rest) ← time? rest
  let (offset, rest) ← offset? rest
  let date ← Date.checked? ⟨year, month, day⟩
  if rest = [] then some (date.dayNumber * dayLength + time - offset) else none

/-- The timestamp that a text stands for, in milliseconds from the start of 1970. It is written as
    that number, as a date, which means midnight, or as a date with a time and its distance from
    universal time. -/
def timestamp? (raw : String) : Option Milliseconds :=
  let cs := Text.trimmed raw.toList
  integer? cs <|> (date? cs).map (·.dayNumber * dayLength) <|> moment? cs

end Candlewick.Calendar
