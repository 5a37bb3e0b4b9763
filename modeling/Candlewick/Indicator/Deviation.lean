import Candlewick.Indicator.Window

namespace Candlewick.Indicator

open Quantity

variable {α : Type} [Quantity α]

/-- The mean squared distance of a window from its mean. -/
def variance (period : Nat) (values : List α) : α :=
  let average := mean period values
  mean period (values.map fun value => (value - average) * (value - average))

/-- The standard deviation of the last `period` values. -/
def stdev [Root α] (values : List α) (period : Nat) : List (Option α) :=
  overWindows period (fun values => Root.sqrt (variance period values)) values

end Candlewick.Indicator
