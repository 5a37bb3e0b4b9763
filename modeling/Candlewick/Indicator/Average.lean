import Candlewick.Indicator.Window

namespace Candlewick.Indicator

open Quantity

variable {α : Type} [Quantity α]

/-- The mean of the last `period` values. -/
def sma (values : List α) (period : Nat) : List (Option α) :=
  overWindows period (mean period) values

/-- Each value pulls the average a share `k` of the way towards itself. -/
def smoothed (k average : α) : List α → List α
  | [] => []
  | value :: rest =>
    let next := (value - average) * k + average
    next :: smoothed k next rest

/-- The exponential average with share `2 / (period + 1)`. It starts at the first value and is
    defined from there on. -/
def ema (values : List α) (period : Nat) : List (Option α) :=
  if period = 0 then
    undefined values
  else
    match values with
    | [] => []
    | first :: rest =>
      (first :: smoothed (whole 2 / (whole period + whole 1)) first rest).map some

/-- The sums that the weighted average carries along: of the values times their weights, and of the
    values. -/
structure WeightedSums (α : Type) where
  weighted : α
  plain : α

/-- The sums with a value added to a window that is not full yet; its weight is its place. -/
def WeightedSums.fill (sums : WeightedSums α) (place : Nat) (value : α) : WeightedSums α :=
  ⟨sums.weighted + whole place * value, sums.plain + value⟩

/-- The sums of the next full window: every weight falls by one, and the new value has the weight
    `period`. -/
def WeightedSums.slide (sums : WeightedSums α) (period : Nat) (leaving value : α) :
    WeightedSums α :=
  ⟨sums.weighted + (whole period * value - sums.plain), sums.plain + (value - leaving)⟩

/-- The entries from an index on. `leaving` holds the values that have not left the window. -/
def wmaFrom (period : Nat) (divisor : α) (index : Nat) (sums : WeightedSums α) (leaving : List α) :
    List α → List (Option α)
  | [] => []
  | value :: rest =>
    if index < period then
      let sums := sums.fill (index + 1) value
      let entry := if index + 1 < period then none else some (sums.weighted / divisor)
      entry :: wmaFrom period divisor (index + 1) sums leaving rest
    else
      let sums := sums.slide period (leaving.headD value) value
      some (sums.weighted / divisor) :: wmaFrom period divisor (index + 1) sums leaving.tail rest

/-- The mean of the last `period` values with the weights `1, 2, …, period`, carried from window to
    window in constant time. -/
def wma (values : List α) (period : Nat) : List (Option α) :=
  if period = 0 then
    undefined values
  else
    let divisor := whole period * (whole period + whole 1) / whole 2
    wmaFrom period divisor 0 ⟨whole 0, whole 0⟩ values values

end Candlewick.Indicator
