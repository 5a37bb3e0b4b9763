import Candlewick.Decimal.Shortest

namespace Candlewick.Decimal

/-- The decisions of a number format. The digits that are written are always the shortest ones. -/
structure Layout where
  /-- The exponents of the leading digit, from the first up to the second, that are written
      without an exponent; all of them if absent. -/
  positional : Option (Int × Int)
  /-- Whether a whole number ends in `.0`. -/
  pointZero : Bool
  /-- Which of two equally close decimals is taken. -/
  tie : Tie

/-- Numbers in messages and reports are never written with an exponent, a whole number has no point,
    and of two equally close decimals the larger one is taken. -/
def plain : Layout where
  positional := none
  pointZero := false
  tie := .upward

/-- A run of zeros. -/
def zeros (count : Nat) : List Char :=
  List.replicate count '0'

/-- The digits with the point in its place. -/
def Layout.positionally (layout : Layout) (d : Digits) : List Char :=
  let digits := Nat.toDigits 10 d.digits
  let whole := (digits.length + d.exponent).toNat
  if 0 ≤ d.exponent then
    digits ++ zeros d.exponent.toNat ++ (if layout.pointZero then ['.', '0'] else [])
  else if 0 < whole then
    digits.take whole ++ '.' :: digits.drop whole
  else
    '0' :: '.' :: zeros (-(digits.length + d.exponent)).toNat ++ digits

/-- One digit, the others behind a point, and the power of ten that the first one stands for. -/
def scientifically (d : Digits) (leading : Int) : List Char :=
  let digits := Nat.toDigits 10 d.digits
  let fraction := digits.drop 1
  digits.take 1 ++ (if fraction.isEmpty then [] else '.' :: fraction) ++
    'e' :: (if leading < 0 then '-' else '+') :: Nat.toDigits 10 leading.natAbs

/-- The text of a magnitude above zero. -/
def Layout.magnitude (layout : Layout) (b : Binary) : List Char :=
  let d := shortest layout.tie b
  let leading : Int := digitCount d.digits + d.exponent - 1
  match layout.positional with
  | none => layout.positionally d
  | some (first, last) =>
    if first ≤ leading ∧ leading < last then layout.positionally d else scientifically d leading

/-- The text of a float. -/
def Layout.write (layout : Layout) (x : Float) : String :=
  if x.isNaN then
    "NaN"
  else
    let sign := if isNegative x then "-" else ""
    if x.isInf then
      sign ++ "inf"
    else if x == 0 then
      sign ++ (if layout.pointZero then "0.0" else "0")
    else
      sign ++ String.ofList (layout.magnitude (Binary.ofFloat x))

/-- The text of a float in messages and reports. -/
def text (x : Float) : String :=
  plain.write x

end Candlewick.Decimal
