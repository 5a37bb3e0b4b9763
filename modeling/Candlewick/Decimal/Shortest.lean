import Candlewick.Decimal.Binary

namespace Candlewick.Decimal

/-- Which of two decimals is taken when both are equally close: the one with the even last digit, or
    the larger one. -/
inductive Tie where
  | toEven
  | upward

/-- The decimal `digits * 10 ^ exponent`. -/
structure Digits where
  digits : Nat
  exponent : Int
deriving DecidableEq

/-- The number of decimal digits of a natural. -/
def digitCount (n : Nat) : Nat :=
  (Nat.toDigits 10 n).length

namespace Binary

/-- The value over `10 ^ grid` is `significand * numerator / denominator`. -/
def ratio (b : Binary) (grid : Int) : Nat × Nat :=
  (Nat.pow 2 b.exponent.toNat * Nat.pow 10 (-grid).toNat,
    Nat.pow 2 (-b.exponent).toNat * Nat.pow 10 grid.toNat)

/-- Whether the decimal `d * 10 ^ grid` lies among the reals that round to this value. Both ends of
    the interval belong to it when the significand is even. -/
def readsBack (b : Binary) (grid : Int) (d : Nat) : Bool :=
  let (numerator, denominator) := b.ratio grid
  let below := if b.narrowBelow then 1 else 2
  let least := (4 * b.significand - below) * numerator
  let greatest := (4 * b.significand + 2) * numerator
  let point := 4 * d * denominator
  if b.significand % 2 == 0 then
    decide (least ≤ point ∧ point ≤ greatest)
  else
    decide (least < point ∧ point < greatest)

/-- The least `k` for which a value above zero lies below `10 ^ k`. -/
def scale (b : Binary) : Int :=
  let numerator := b.significand * Nat.pow 2 b.exponent.toNat
  let denominator := Nat.pow 2 (-b.exponent).toNat
  if denominator ≤ numerator then
    digitCount (numerator / denominator)
  else
    1 - (digitCount ((denominator - 1) / numerator) : Int)

/-- The decimal on a grid that stands for this value: of the two neighbours on it, one that reads
    back, and the closer one if both do. -/
def onGrid? (b : Binary) (tie : Tie) (grid : Int) : Option Digits :=
  let (numerator, denominator) := b.ratio grid
  let below := b.significand * numerator / denominator
  let above := below + 1
  let take (d : Nat) : Option Digits := some ⟨d, grid⟩
  match b.readsBack grid below, b.readsBack grid above with
  | false, false => none
  | true, false => take below
  | false, true => take above
  | true, true =>
    match compare (2 * b.significand * numerator) ((below + above) * denominator), tie with
    | .lt, _ => take below
    | .gt, _ => take above
    | .eq, .upward => take above
    | .eq, .toEven => take (if below % 2 == 0 then below else above)

/-- The value itself, with as many digits as it takes. -/
def exact (b : Binary) : Digits :=
  if 0 ≤ b.exponent then
    ⟨b.significand * Nat.pow 2 b.exponent.toNat, 0⟩
  else
    ⟨b.significand * Nat.pow 5 (-b.exponent).toNat, b.exponent⟩

end Binary

/-- The same decimal without zeros at the end of its digits. -/
def Digits.stripped (d : Digits) : Digits :=
  if h : d.digits ≠ 0 ∧ d.digits % 10 = 0 then
    Digits.stripped ⟨d.digits / 10, d.exponent + 1⟩
  else
    d
termination_by d.digits
decreasing_by omega

/-- The shortest decimal that reads back as a value above zero, and the closest of that length. For
    one digit, two digits and so on, the two decimals of that length next to the value are tried. -/
def shortest (tie : Tie) (b : Binary) : Digits :=
  let top := b.scale
  let found := (List.range 17).findSome? fun count => b.onGrid? tie (top - (count + 1 : Nat))
  (found.getD b.exact).stripped

end Candlewick.Decimal
