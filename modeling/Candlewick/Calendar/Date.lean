namespace Candlewick.Calendar

/-- A day by year, month and day of the month. The Gregorian calendar is carried on without end in
    both directions; the year before 1 is 0. -/
structure Date where
  year : Int
  month : Nat
  day : Nat
deriving DecidableEq

/-- Whether a year has a day more. -/
def isLeapYear (year : Int) : Bool :=
  year % 4 == 0 && (year % 100 != 0 || year % 400 == 0)

/-- The number of days of a month. -/
def monthLength (year : Int) (month : Nat) : Nat :=
  match month with
  | 2 => if isLeapYear year then 29 else 28
  | 4 | 6 | 9 | 11 => 30
  | _ => 31

/-- The days of a year before a month. -/
def daysBeforeMonth (year : Int) (month : Nat) : Nat :=
  (List.range (month - 1)).foldl (fun days earlier => days + monthLength year (earlier + 1)) 0

/-- The days from the start of year 1 to the start of a year; negative for earlier years. -/
def daysBeforeYear (year : Int) : Int :=
  let past := year - 1
  365 * past + past / 4 - past / 100 + past / 400

/-- The days from the start of year 1 to the start of 1970. -/
def epochDays : Int := 719162

/-- The years that a date can have. -/
def hasYear (year : Int) : Bool :=
  decide (-262143 ≤ year ∧ year ≤ 262142)

namespace Date

/-- Whether the calendar has this day. -/
def isValid (date : Date) : Bool :=
  hasYear date.year && decide (1 ≤ date.month ∧ date.month ≤ 12) &&
    decide (1 ≤ date.day ∧ date.day ≤ monthLength date.year date.month)

/-- The days from the start of 1970 to this day. -/
def dayNumber (date : Date) : Int :=
  daysBeforeYear date.year - epochDays + daysBeforeMonth date.year date.month + (date.day - 1 : Int)

end Date

end Candlewick.Calendar
