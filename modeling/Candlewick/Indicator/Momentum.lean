import Candlewick.Indicator.Average

namespace Candlewick.Indicator

open Quantity

variable {α : Type} [Quantity α]

/-- The changes from each value to the next. -/
def changes (values : List α) : List α :=
  List.zipWith (fun previous current => current - previous) values values.tail

/-- The relative strength of an average gain against an average loss, on a scale of 100. Without any
    loss it is 50. -/
def strength (gain loss : α) : Option α :=
  if isUndefined gain || isUndefined loss then
    none
  else if isZero loss then
    some (whole 50)
  else
    some (whole 100 - whole 100 / (whole 1 + gain / loss))

/-- The relative strength over the last `period` changes. The first value has no change. -/
def rsi (values : List α) (period : Nat) : List (Option α) :=
  match values with
  | [] => []
  | _ =>
    let gains := sma ((changes values).map positivePart) period
    let losses := sma ((changes values).map fun change => positivePart (-change)) period
    none :: List.zipWith (fun gain loss => do strength (← gain) (← loss)) gains losses

/-- The change between two values in percent of the first. From zero there is no rate; it counts as
    zero. -/
def rate (previous current : α) : α :=
  if isZero previous then whole 0 else (current - previous) / previous * whole 100

/-- The change in percent against the value `period` places before. -/
def roc (values : List α) (period : Nat) : List (Option α) :=
  if period = 0 then
    undefined values
  else
    List.replicate (min period values.length) none ++
      (List.zipWith rate values (values.drop period)).map some

end Candlewick.Indicator
