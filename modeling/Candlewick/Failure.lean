import Candlewick.Csv.Reader
import Candlewick.Decimal.Reader
import Candlewick.Evaluation.Fault
import Candlewick.Files.Fault
import Candlewick.Series
import Candlewick.Source

namespace Candlewick

/-- Why there are no candles. Rows are counted from one behind the header. -/
inductive FeedFault where
  | unreadable (path : String) (fault : Files.Fault)
  | unlistable (path : String) (fault : Files.Fault)
  | malformed (fault : Csv.Fault)
  | missingColumn (name : String)
  | invalidTimestamp (raw path : String) (row : Nat)
  | invalidNumber (name : String) (fault : Decimal.ReadFault)
  | reported (reason : String)
deriving DecidableEq

/-- The wording of a fault. -/
def FeedFault.message : FeedFault → String
  | unreadable path fault => s!"failed to read {path}: {fault.message}"
  | unlistable path fault => s!"failed to read directory {path}: {fault.message}"
  | malformed fault => s!"CSV parse error: {fault.message}"
  | missingColumn name => s!"missing {name} column"
  | invalidTimestamp raw path row => s!"invalid timestamp '{raw}' in {path} row {row}"
  | invalidNumber name fault => s!"invalid {name} value: {fault.message}"
  | reported reason => reason

/-- Why a run fails. -/
inductive Failure where
  | configParse (path reason : String)
  | configMissing (heading key : String)
  | configInvalid (heading key reason : String)
  | data (fault : FeedFault)
  | noData (symbols : String)
  | series (fault : SeriesFault)
  | source (error : SourceError)
  | evaluation (fault : EvalFault)
  | file (fault : Files.Fault)

namespace Failure

/-- The wording of a failure. -/
def message : Failure → String
  | configParse path reason => s!"config parse error in {path}: {reason}"
  | configMissing heading key => s!"missing config key [{heading}] {key}"
  | configInvalid heading key reason => s!"invalid config value [{heading}] {key}: {reason}"
  | data fault => "data error: " ++ fault.message
  | noData symbols => "no data for " ++ symbols
  | series fault => fault.message
  | source error => error.diagnostic.display
  | evaluation fault => fault.message
  | file fault => fault.message

/-- The exit code: 1 for files, 2 for the configuration, 3 for candles, 4 for the source and 5 for
    its evaluation. -/
def exitCode : Failure → Nat
  | file _ => 1
  | configParse _ _ | configMissing _ _ | configInvalid _ _ _ => 2
  | data _ | noData _ | series _ => 3
  | source _ => 4
  | evaluation _ => 5

end Failure

end Candlewick
