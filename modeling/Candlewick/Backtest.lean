import Candlewick.Evaluation

namespace Candlewick

/-- One step of a backtest. -/
structure Step where
  index : Nat
  timestamp : Int
  outcome : Except EvalFault Value

namespace Step

/-- The value of a step that was not skipped. -/
def value? (step : Step) : Option Value :=
  step.outcome.toOption

/-- Whether a step had no value. -/
def isSkipped (step : Step) : Bool :=
  step.value?.isNone

end Step

/-- A backtest. `bindings` are those after its last step. -/
structure Backtest where
  steps : List Step
  bindings : Variables
  cancelled : Bool

namespace Backtest

/-- The number of skipped steps. -/
def skippedCount (run : Backtest) : Nat :=
  run.steps.countP Step.isSkipped

/-- The value of each step, if it has one. -/
def values (run : Backtest) : List (Option Value) :=
  run.steps.map Step.value?

/-- The values as JSON; a skipped step has no value. -/
def valuesJson (run : Backtest) : Json :=
  .array (run.values.map (.ofOption Value.toJson))

/-- The steps from an index on, over the candles that are left. Each step starts with the variables
    that the one before it has left; a step that has no value is skipped and the run goes on.
    `cancel` tells before each step whether the run ends there. -/
def runFrom (program : Program) (series : Series) (cancel : Nat → Bool) (index : Nat)
    (bindings : Variables) : List Candle → Backtest
  | [] => ⟨[], bindings, false⟩
  | candle :: rest =>
    if cancel index then
      ⟨[], bindings, true⟩
    else
      let (outcome, moment) := (evaluateProgram series program).outcome ⟨bindings, index⟩
      let later := runFrom program series cancel (index + 1) moment.bindings rest
      { later with steps := ⟨index, candle.timestamp, outcome⟩ :: later.steps }

/-- A backtest of a program over a series. -/
def run (program : Program) (series : Series) (bindings : Variables)
    (cancel : Nat → Bool := fun _ => false) : Backtest :=
  runFrom program series cancel 0 bindings series.candles

end Backtest

end Candlewick
