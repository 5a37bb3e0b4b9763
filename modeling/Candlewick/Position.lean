import Candlewick.Json
import Candlewick.Text.Blank
import Candlewick.Text.Capital

namespace Candlewick

/-- Which way a position bets. -/
inductive Side where
  | long
  | short
deriving DecidableEq

namespace Side

/-- The word for a side. -/
def name : Side → String
  | long => "long"
  | short => "short"

/-- The side that a word names, in any case and with blanks around it. -/
def ofText? (text : String) : Option Side :=
  let word := Text.asciiSmall (Text.trim text)
  if word = "long" then
    some long
  else if word = "short" then
    some short
  else
    none

end Side

/-- A position. -/
structure Position where
  symbol : String
  size : Float
  side : Side
  entryPrice : Float

namespace Position

/-- A position is open if anything is held. -/
def isOpen (position : Position) : Bool :=
  decide (0 < position.size)

/-- A position as JSON. -/
def toJson (position : Position) : Json :=
  .object
    [("symbol", .text position.symbol), ("size", .float position.size),
      ("side", .text position.side.name), ("entry_price", .float position.entryPrice)]

end Position

end Candlewick
