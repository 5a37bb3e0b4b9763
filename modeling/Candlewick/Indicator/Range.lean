import Candlewick.Candle
import Candlewick.Indicator.Average

namespace Candlewick.Indicator

/-- The true range of each candle after the first, against the close before it. -/
def trueRanges (candles : List Candle) : List Float :=
  List.zipWith (fun previous current => current.trueRange previous.closing) candles candles.tail

/-- The mean of the last `period` true ranges. The first candle has none. -/
def atr (candles : List Candle) (period : Nat) : List (Option Float) :=
  match candles with
  | [] => []
  | _ => none :: sma (trueRanges candles) period

/-- Whether the first value is above the second, at this moment alone. -/
def crossover (a b : Float) : Bool :=
  decide (b < a)

/-- Whether the first value is below the second, at this moment alone. -/
def crossunder (a b : Float) : Bool :=
  decide (a < b)

end Candlewick.Indicator
