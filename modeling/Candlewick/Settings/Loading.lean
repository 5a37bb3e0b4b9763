import Candlewick.Settings.Validation
import Candlewick.Value

namespace Candlewick.Settings.Ini

/-- The variables that a strategy starts with. -/
def bindings (ini : Ini) : Variables :=
  Keyed.ofList ((ini.entries "variables").map fun (name, raw) => (name, Value.ofSetting raw))

/-- The quantity of an order. -/
def orderQuantity (ini : Ini) : Float :=
  ini.number "strategy" "order_quantity" 1

/-- The position that a section describes. -/
def position (ini : Ini) (heading symbol : String) : Position where
  symbol := Symbols.normal symbol
  size := ini.number heading "size" 0
  side := ((ini.get? heading "side").bind Side.ofText?).getD .long
  entryPrice := ini.number heading "entry_price" 0

/-- The positions by symbol. Of two sections for one symbol the later one counts. -/
def positions (ini : Ini) : Keyed Position :=
  Keyed.ofList (ini.headings.filterMap fun heading =>
    (positionSymbol? heading).map fun symbol =>
      let position := ini.position heading symbol
      (position.symbol, position))

end Candlewick.Settings.Ini
