import Candlewick.Failure
import Candlewick.Keyed

namespace Candlewick

/-- A symbol without candles, and why. -/
structure Skipped where
  symbol : String
  reason : String
deriving DecidableEq

/-- The series by symbol, and the skipped symbols in the order they were asked for. -/
structure Universe where
  series : Keyed Series := Keyed.empty
  skipped : List Skipped := []

namespace Universe

/-- What a symbol was answered with. -/
abbrev Answer := String × Except Failure Series

/-- Why an answer is of no use, if it is of none. -/
def refusal? : Except Failure Series → Option String
  | .error failure => some failure.message
  | .ok series => if series.isEmpty then some "no candles" else none

/-- The symbols that are skipped. -/
def skippedOf (answers : List Answer) : List Skipped :=
  answers.filterMap fun (symbol, answer) => (refusal? answer).map (⟨symbol, ·⟩)

/-- The series that are loaded. -/
def loadedOf (answers : List Answer) : Keyed Series :=
  Keyed.ofList <| answers.filterMap fun (symbol, answer) =>
    match answer with
    | .ok series => if series.isEmpty then none else some (symbol, series)
    | .error _ => none

/-- The universe of the answers to a list of symbols. There is none if nothing was loaded. -/
def ofAnswers (answers : List Answer) : Except Failure Universe :=
  let series := loadedOf answers
  if series.isEmpty then
    .error (.noData (String.intercalate "," (answers.map (·.1))))
  else
    .ok ⟨series, skippedOf answers⟩

end Universe

end Candlewick
