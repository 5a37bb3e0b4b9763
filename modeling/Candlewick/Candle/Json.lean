import Candlewick.Json
import Candlewick.Series

namespace Candlewick

/-- A candle as JSON. The fields have the names that they have in a strategy. -/
def Candle.toJson (candle : Candle) : Json :=
  .object <| ("timestamp", .integer candle.timestamp) ::
    PriceField.all.map fun field => (field.name, .float (candle.field field))

/-- A series as JSON. -/
def Series.toJson (series : Series) : Json :=
  .array (series.candles.map Candle.toJson)

end Candlewick
