import Candlewick.Decimal.Binary

namespace Candlewick

/-- Numbers with the operations of the indicators. A strategy runs the indicators over floats; the
    exact rationals show what they compute without rounding. -/
class Quantity (α : Type) extends Add α, Sub α, Mul α, Div α, Neg α where
  /-- The whole number `n`. -/
  whole : Nat → α
  /-- The sum of no numbers, to which the others are added in turn. -/
  emptySum : α
  /-- Whether the number is zero, of either sign. -/
  isZero : α → Bool
  /-- Whether the number stands for a result that does not exist. -/
  isUndefined : α → Bool
  /-- The number if it is above zero, and zero otherwise. -/
  positivePart : α → α

/-- Numbers with a square root. -/
class Root (α : Type) where
  sqrt : α → α

/-- The sum of no floats is minus zero, so that a sum of minus zeros is minus zero again. -/
instance : Quantity Float where
  whole := Float.ofNat
  emptySum := -0.0
  isZero x := x == 0
  isUndefined := Float.isNaN
  positivePart x := Decimal.larger x 0

instance : Root Float where
  sqrt := Float.sqrt

/-- No exact rational is undefined. -/
instance : Quantity Rat where
  whole n := (n : Rat)
  emptySum := 0
  isZero x := x == 0
  isUndefined _ := false
  positivePart x := if 0 < x then x else 0

namespace Quantity

variable {α : Type} [Quantity α]

/-- The sum of a list, from its first value on. -/
def sum (values : List α) : α :=
  values.foldl (· + ·) emptySum

/-- The mean of a window of `period` values. -/
def mean (period : Nat) (window : List α) : α :=
  sum window / whole period

end Quantity

end Candlewick
