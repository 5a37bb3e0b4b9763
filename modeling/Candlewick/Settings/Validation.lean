import Candlewick.Failure
import Candlewick.Position
import Candlewick.Settings.Ini
import Candlewick.Symbols

namespace Candlewick.Settings

/-- The start of the heading of a position; the symbol follows. -/
def positionHeading : String := "position."

/-- The symbol in the heading of a position, if it is one. -/
def positionSymbol? (heading : String) : Option String :=
  if positionHeading.toList.isPrefixOf heading.toList then
    some (String.ofList (heading.toList.drop positionHeading.length))
  else
    none

namespace Ini

/-- The value of a key that holds more than blanks. -/
def filled? (ini : Ini) (heading key : String) : Option String :=
  (ini.get? heading key).filter fun value => !Text.allBlank value

/-- The symbols to run on. -/
def symbols (ini : Ini) : Except Failure (List String) :=
  match ini.get? "data" "symbols" with
  | none => .error (.configMissing "data" "symbols")
  | some raw =>
    match Symbols.ofText raw with
    | .ok symbols => .ok symbols
    | .error fault => .error (.configInvalid "data" "symbols" fault.message)

/-- There must be a directory of candles. -/
def checkDirectory (ini : Ini) : Except Failure Unit :=
  match ini.filled? "data" "directory" with
  | some _ => .ok ()
  | none => .error (.configMissing "data" "directory")

/-- Whether a float is a finite number above zero. -/
def isPositive (x : Float) : Bool :=
  x.isFinite && decide (0 < x)

/-- Whether a float is a finite number that is not below zero. -/
def isAmount (x : Float) : Bool :=
  x.isFinite && !decide (x < 0)

/-- An order quantity that has a value must be a number above zero. -/
def checkQuantity (ini : Ini) : Except Failure Unit :=
  match ini.get? "strategy" "order_quantity" with
  | none => .ok ()
  | some raw =>
    if ((Decimal.read? (Text.trim raw)).map isPositive).getD false then
      .ok ()
    else
      .error (.configInvalid "strategy" "order_quantity" "order_quantity must be a positive number")

/-- A position must have a symbol, a size and a side, and a price if one is given. -/
def checkPosition (ini : Ini) (heading symbol : String) : Except Failure Unit :=
  let refuse (key reason : String) : Except Failure Unit :=
    .error (.configInvalid heading key reason)
  if symbol.isEmpty then
    refuse "symbol" "position section needs a symbol, e.g. [position.BTCUSDT]"
  else if !isAmount (ini.number heading "size" (-1)) then
    refuse "size" "size must be a non-negative number"
  else if (Side.ofText? ((ini.get? heading "side").getD "")).isNone then
    refuse "side" "side must be long or short"
  else if !isAmount (ini.number heading "entry_price" 0) then
    refuse "entry_price" "entry_price must be non-negative"
  else
    .ok ()

/-- The positions among some headings must all be valid. -/
def checkPositions (ini : Ini) : List String → Except Failure Unit
  | [] => .ok ()
  | heading :: rest =>
    match positionSymbol? heading with
    | none => checkPositions ini rest
    | some symbol => do
      checkPosition ini heading symbol
      checkPositions ini rest

/-- The checks before any run. The first setting that fails is reported: the directory of the
    candles, the symbols, the order quantity, then the positions in ascending order. -/
def validate (ini : Ini) : Except Failure Unit := do
  ini.checkDirectory
  let _ ← ini.symbols
  ini.checkQuantity
  ini.checkPositions ini.headings

/-- A strategy must be given, as a file or as code. -/
def validateStrategy (ini : Ini) : Except Failure Unit :=
  if (ini.filled? "strategy" "file").isSome || (ini.filled? "strategy" "code").isSome then
    .ok ()
  else
    .error (.configMissing "strategy" "file")

end Ini

end Candlewick.Settings
