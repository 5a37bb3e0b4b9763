import Candlewick.Backtest
import Candlewick.Csv.Writer

namespace Candlewick

/-- The names of the columns. -/
def Backtest.reportHeader : List String :=
  ["index", "timestamp", "value", "skipped"]

/-- The record of a step. A skipped step has an empty value. -/
def Step.record (step : Step) : List String :=
  [toString step.index, toString step.timestamp, (step.value?.map Value.display).getD "",
    if step.isSkipped then "true" else "false"]

/-- The report as text. -/
def Backtest.report (run : Backtest) : String :=
  Csv.write (reportHeader :: run.steps.map Step.record)

end Candlewick
