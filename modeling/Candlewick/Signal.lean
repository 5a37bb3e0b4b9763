import Candlewick.Evaluation
import Candlewick.Position

namespace Candlewick

/-- What a signal asks for. -/
inductive Action where
  | buy
  | sell
deriving DecidableEq

/-- The word for an action. -/
def Action.name : Action → String
  | buy => "buy"
  | sell => "sell"

/-- A trading signal. The timestamp is that of the candle it was decided on. -/
structure Signal where
  symbol : String
  action : Action
  quantity : Float
  timestamp : Int

/-- A signal as JSON. -/
def Signal.toJson (signal : Signal) : Json :=
  .object
    [("symbol", .text signal.symbol), ("action", .text signal.action.name),
      ("quantity", .float signal.quantity), ("timestamp", .integer signal.timestamp)]

/-- What every signal of a run starts from: the quantity of an order, and variables. -/
structure Desk where
  quantity : Float := 1.0
  bindings : Variables := Keyed.empty

/-- Why a symbol has no decision. -/
structure SignalFailure where
  symbol : String
  fault : EvalFault

namespace Desk

/-- Variables with the state of a position in place of what they held under its names. -/
def withPosition (bindings : Variables) (open? : Option Position) : Variables :=
  let (size, side, entryPrice) :=
    match open? with
    | some position => (position.size, position.side.name, position.entryPrice)
    | none => (0, "none", 0)
  ((bindings.put "position_size" (.number size)).put "position_side" (.text side)).put
    "entry_price" (.number entryPrice)

/-- The signal of one symbol, if it has one. True buys if no position is open, false sells the
    position that is open, and any other value does nothing. -/
def signal? (desk : Desk) (program : Program) (symbol : String) (series : Series)
    (position? : Option Position) : Except EvalFault (Option Signal) := do
  let open? := position?.filter Position.isOpen
  let value ← execute program series (withPosition desk.bindings open?)
  let timestamp := (series.latest?.map (·.timestamp)).getD 0
  match value, open? with
  | .bool true, none => return some ⟨symbol, .buy, desk.quantity, timestamp⟩
  | .bool false, some position => return some ⟨symbol, .sell, position.size, timestamp⟩
  | _, _ => return none

/-- The signals of all symbols in ascending order, and the symbols without a decision. -/
def signals (desk : Desk) (program : Program) (series : Keyed Series)
    (positions : Keyed Position) : List Signal × List SignalFailure :=
  let decisions := series.entries.map fun (symbol, series) =>
    (symbol, desk.signal? program symbol series (positions.get? symbol))
  (decisions.filterMap fun (_, decision) => decision.toOption.bind id,
    decisions.filterMap fun (symbol, decision) =>
      match decision with
      | .error fault => some ⟨symbol, fault⟩
      | .ok _ => none)

end Desk

end Candlewick
