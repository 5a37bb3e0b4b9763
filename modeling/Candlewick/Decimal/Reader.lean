import Candlewick.Decimal.Shortest

namespace Candlewick.Decimal

/-- Why a text is not a float. -/
inductive ReadFault where
  | empty
  | malformed
deriving DecidableEq

/-- The wording of a fault. -/
def ReadFault.message : ReadFault → String
  | .empty => "cannot parse float from empty string"
  | .malformed => "invalid float literal"

/-- The number that a run of decimal digits stands for. -/
def natural (digits : List Char) : Nat :=
  digits.foldl (fun value c => 10 * value + (c.toNat - '0'.toNat)) 0

/-- The float nearest to `digits * 10 ^ exponent`. Magnitudes beyond the range of floats are decided
    by the place of the leading digit alone. -/
def nearest (d : Digits) : Float :=
  let leading : Int := digitCount d.digits + d.exponent
  if d.digits = 0 ∨ leading < -400 then
    0
  else if 400 < leading then
    1 / 0
  else
    Float.ofScientific d.digits (decide (d.exponent < 0)) d.exponent.natAbs

/-- A sign in front, and what follows it. -/
def signed : List Char → Bool × List Char
  | '-' :: rest => (true, rest)
  | '+' :: rest => (false, rest)
  | cs => (false, cs)

/-- The exponent at the end of a number: nothing, or `e` and a whole number. -/
def exponent? : List Char → Option Int
  | [] => some 0
  | e :: rest =>
    let (negative, digits) := signed rest
    if (e = 'e' ∨ e = 'E') ∧ digits ≠ [] ∧ digits.all Char.isDigit then
      some (if negative then -natural digits else natural digits)
    else
      none

/-- A number in digits: some before or behind an optional point, then the exponent. -/
def digits? (cs : List Char) : Option Digits :=
  let (whole, rest) := cs.span Char.isDigit
  let (fraction, rest) :=
    match rest with
    | '.' :: behind => behind.span Char.isDigit
    | _ => ([], rest)
  if whole = [] ∧ fraction = [] then
    none
  else
    (exponent? rest).map fun e => ⟨natural (whole ++ fraction), e - fraction.length⟩

/-- A number without a sign. -/
def unsigned? (cs : List Char) : Option Float :=
  let word := String.ofList (cs.map Char.toLower)
  if word = "inf" ∨ word = "infinity" then
    some (1 / 0)
  else if word = "nan" then
    some (0 / 0)
  else
    (digits? cs).map nearest

/-- The float nearest to the number that a text stands for: an optional sign, then `inf`, `infinity`
    or `nan` in any case, or digits with an optional point and an optional exponent. -/
def read (s : String) : Except ReadFault Float :=
  if s.isEmpty then
    .error .empty
  else
    let (negative, cs) := signed s.toList
    match unsigned? cs with
    | none => .error .malformed
    | some x => .ok (if negative then -x else x)

/-- The float that a text stands for, if it is one. -/
def read? (s : String) : Option Float :=
  (read s).toOption

end Candlewick.Decimal
