import Candlewick.Backtest

namespace Candlewick

/-- The values of the steps, how many were skipped, whether the run was cancelled, and the variables
    it ended with. -/
def Backtest.summary (run : Backtest) : Json :=
  .object
    [("results", run.valuesJson), ("skipped", .integer run.skippedCount),
      ("cancelled", .bool run.cancelled),
      ("variables", .object (run.bindings.entries.map fun (name, value) => (name, value.toJson)))]

end Candlewick
