import Candlewick.Evaluation.Fault
import Candlewick.Grammar.Reading
import Candlewick.Universe

namespace Candlewick

/-- How grave an event is. -/
inductive Severity where
  | warning
  | error
deriving DecidableEq

/-- The word for a severity in the log. -/
def Severity.name : Severity → String
  | warning => "WARN"
  | error => "ERROR"

/-- An event of a run. An idle position is one in a symbol without candles. -/
inductive Event where
  | ambiguous (warning : Warning)
  | symbolSkipped (skipped : Skipped)
  | idlePosition (symbol : String)
  | undecided (symbol : String) (fault : EvalFault)
  | failed (message : String)

namespace Event

/-- The severity of an event. -/
def severity : Event → Severity
  | ambiguous _ | symbolSkipped _ | idlePosition _ => .warning
  | undecided _ _ | failed _ => .error

/-- What happened. -/
def message : Event → String
  | ambiguous warning => warning.message
  | symbolSkipped _ => "skipping symbol"
  | idlePosition _ => "position configured for a symbol without data"
  | undecided _ _ => "strategy evaluation failed"
  | failed message => message

/-- The details of an event under their names. -/
def details : Event → List (String × String)
  | ambiguous warning =>
    [("line", toString warning.place.line), ("column", toString warning.place.column)]
  | symbolSkipped skipped => [("symbol", skipped.symbol), ("reason", skipped.reason)]
  | idlePosition symbol => [("symbol", symbol)]
  | undecided symbol fault => [("symbol", symbol), ("error", fault.message)]
  | failed _ => []

/-- An event as a line of the log. -/
def display (event : Event) : String :=
  String.intercalate " " <| event.severity.name :: event.message ::
    event.details.map fun (name, text) => name ++ "=" ++ text

end Event

end Candlewick
