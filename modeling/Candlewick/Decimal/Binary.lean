namespace Candlewick.Decimal

/-- The magnitude `significand * 2 ^ exponent` of a finite float. -/
structure Binary where
  significand : Nat
  exponent : Int
deriving DecidableEq

namespace Binary

/-- The least exponent of a float. -/
def leastExponent : Int := -1074

/-- The highest bit of a significand, which the bits of a float do not hold. -/
def leadingBit : Nat := Nat.pow 2 52

/-- The magnitude of a finite float. -/
def ofFloat (x : Float) : Binary :=
  let bits : Nat := x.toBits.toNat
  let fraction : Nat := bits % leadingBit
  let biased : Nat := bits / leadingBit % Nat.pow 2 11
  if biased = 0 then ⟨fraction, leastExponent⟩ else ⟨leadingBit + fraction, Int.ofNat biased - 1075⟩

/-- Whether the float below is only half as far away as the float above: so it is at a power of
    two, as long as the exponent can still fall. -/
def narrowBelow (b : Binary) : Bool :=
  b.significand == leadingBit && decide (leastExponent < b.exponent)

/-- The float of the given sign with this magnitude. It is exact for a significand below `2 ^ 53`
    and an exponent that a float can have. -/
def toFloat (negative : Bool) (b : Binary) : Float :=
  let sign := if negative then Nat.pow 2 63 else 0
  let length := b.significand.log2
  let room := min (52 - length) (b.exponent - leastExponent).toNat
  let significand := b.significand * Nat.pow 2 room
  let magnitude :=
    if significand < leadingBit then
      significand
    else
      (b.exponent - room + 1075).toNat * leadingBit + (significand - leadingBit)
  Float.ofBits (UInt64.ofNat (sign + magnitude))

end Binary

/-- Whether the sign of a float is minus; so also for minus zero. -/
def isNegative (x : Float) : Bool :=
  x.toBits.toNat / Nat.pow 2 63 == 1

/-- What is left of `x` after taking away `y` as often as it fits: the exact remainder of the two
    magnitudes, with the sign of `x`. -/
def remainder (x y : Float) : Float :=
  if x.isNaN || y.isNaN || x.isInf || y == 0 then
    0 / 0
  else if y.isInf then
    x
  else
    let dividend := Binary.ofFloat x
    let divisor := Binary.ofFloat y
    let exponent := min dividend.exponent divisor.exponent
    let scaled (b : Binary) : Nat := b.significand * Nat.pow 2 (b.exponent - exponent).toNat
    Binary.toFloat (isNegative x) ⟨scaled dividend % scaled divisor, exponent⟩

/-- Whether a float is a whole number and not negative. From `2 ^ 53` on every float is whole. -/
def isWholeNumber (x : Float) : Bool :=
  x.isFinite && decide (0 ≤ x) && (decide (9007199254740992 ≤ x) || x.toUInt64.toFloat == x)

/-- The larger of two floats; a float that is not a number loses against one that is. -/
def larger (x y : Float) : Float :=
  if x.isNaN then y else if x < y then y else x

/-- The smaller of two floats; a float that is not a number loses against one that is. -/
def smaller (x y : Float) : Float :=
  if x.isNaN then y else if y < x then y else x

end Candlewick.Decimal
