import Candlewick.Decimal.Reader
import Candlewick.Json
import Candlewick.Keyed
import Candlewick.Text.Blank
import Candlewick.Text.Capital

namespace Candlewick

/-- The types of values. -/
inductive ValueType where
  | number
  | bool
  | text
  | na
deriving DecidableEq

/-- The word for a type. -/
def ValueType.name : ValueType → String
  | number => "number"
  | bool => "bool"
  | text => "string"
  | na => "na"

/-- A value. `na` is what a conditional without a matching branch gives. -/
inductive Value where
  | number (value : Float)
  | bool (value : Bool)
  | text (content : String)
  | na
deriving DecidableEq

/-- The variables of an evaluation. -/
abbrev Variables := Keyed Value

namespace Value

/-- The type of a value. -/
def type : Value → ValueType
  | number _ => .number
  | bool _ => .bool
  | text _ => .text
  | na => .na

/-- Whether a value counts as true: numbers other than zero, and texts that are not empty. -/
def isTrue : Value → Bool
  | number value => value != 0 && !value.isNaN
  | bool value => value
  | text content => !content.isEmpty
  | na => false

/-- The number of a value that is one. -/
def number? : Value → Option Float
  | number value => some value
  | _ => none

/-- A value as text. -/
def display : Value → String
  | number value => Decimal.text value
  | bool value => if value then "true" else "false"
  | text content => content
  | na => "na"

/-- A value as JSON. -/
def toJson : Value → Json
  | number value => .float value
  | bool value => .bool value
  | text content => .text content
  | na => .null

/-- The value that a setting stands for: a number, a truth value in any case, or the text itself. -/
def ofSetting (raw : String) : Value :=
  let trimmed := Text.trim raw
  match Decimal.read? trimmed with
  | some value => number value
  | none =>
    let word := Text.asciiSmall trimmed
    if word = "true" then
      bool true
    else if word = "false" then
      bool false
    else
      text trimmed

end Value

end Candlewick
