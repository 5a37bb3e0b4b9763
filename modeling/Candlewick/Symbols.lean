import Candlewick.Text.Blank
import Candlewick.Text.Capital
import Candlewick.Text.Lines

namespace Candlewick

/-- Why a text is not a list of symbols. -/
inductive SymbolFault where
  | emptyToken
  | duplicateSymbol (symbol : String)
deriving DecidableEq

/-- The wording of a fault. -/
def SymbolFault.message : SymbolFault → String
  | emptyToken => "empty token in symbol list"
  | duplicateSymbol symbol => s!"duplicate symbol: {symbol}"

namespace Symbols

/-- A symbol as it is kept: without blanks around it and in capital letters. -/
def normal (text : String) : String :=
  Text.capitals (Text.trim text)

/-- The symbols of the pieces of a list, none of which may be blank or equal an earlier one. -/
def distinct (earlier : List String) : List String → Except SymbolFault (List String)
  | [] => .ok []
  | piece :: rest =>
    if Text.allBlank piece then
      .error .emptyToken
    else if normal piece ∈ earlier then
      .error (.duplicateSymbol (normal piece))
    else do
      return normal piece :: (← distinct (normal piece :: earlier) rest)

/-- The symbols of a list with commas between them. -/
def ofText (text : String) : Except SymbolFault (List String) :=
  distinct [] ((Text.pieces ',' text.toList).map String.ofList)

end Symbols

end Candlewick
