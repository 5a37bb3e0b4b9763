import Candlewick.Decimal.Binary

namespace Candlewick

/-- The fields of a candle that a strategy can read. -/
inductive PriceField where
  | opening
  | high
  | low
  | closing
  | volume
deriving DecidableEq

namespace PriceField

/-- The fields in the order of a candle. -/
def all : List PriceField := [.opening, .high, .low, .closing, .volume]

/-- The word for a field in a strategy. -/
def name : PriceField → String
  | opening => "open"
  | high => "high"
  | low => "low"
  | closing => "close"
  | volume => "volume"

/-- The field that a word names. -/
def ofName? (word : String) : Option PriceField :=
  all.find? (·.name == word)

/-- Every price field is found under its own name. -/
@[simp] theorem ofName?_name (field : PriceField) : ofName? field.name = some field := by
  cases field <;> decide

end PriceField

/-- One trading interval. The timestamp counts milliseconds from the start of 1970. -/
structure Candle where
  timestamp : Int
  opening : Float
  high : Float
  low : Float
  closing : Float
  volume : Float
deriving DecidableEq

namespace Candle

/-- The value of a field. -/
def field (candle : Candle) : PriceField → Float
  | .opening => candle.opening
  | .high => candle.high
  | .low => candle.low
  | .closing => candle.closing
  | .volume => candle.volume

/-- The widest move of an interval: within it, or from the previous close to either end. -/
def trueRange (candle : Candle) (previousClose : Float) : Float :=
  let within := candle.high - candle.low
  let upward := (candle.high - previousClose).abs
  let downward := (candle.low - previousClose).abs
  Decimal.larger (Decimal.larger within upward) downward

end Candle

end Candlewick
