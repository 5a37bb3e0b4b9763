import Candlewick.Calendar.Timestamp
import Candlewick.Failure

namespace Candlewick.Feed

/-- The number in a column of a record. -/
def number (fields : List String) (column : Nat) (name : String) : Except FeedFault Float :=
  match fields[column]? with
  | none => .error (.missingColumn name)
  | some raw =>
    match Decimal.read (Text.trim raw) with
    | .ok value => .ok value
    | .error fault => .error (.invalidNumber name fault)

/-- The timestamp in the first column of a record. -/
def timestamp (path : String) (row : Nat) (fields : List String) : Except FeedFault Int :=
  match fields[0]? with
  | none => .error (.missingColumn "timestamp")
  | some raw =>
    match Calendar.timestamp? raw with
    | some timestamp => .ok timestamp
    | none => .error (.invalidTimestamp raw path row)

/-- The candle of a record: a timestamp and the five fields of a candle in its first six columns,
    which are read from left to right. -/
def candle (path : String) (row : Nat) (fields : List String) : Except FeedFault Candle := do
  let timestamp ← timestamp path row fields
  let opening ← number fields 1 "open"
  let high ← number fields 2 "high"
  let low ← number fields 3 "low"
  let closing ← number fields 4 "close"
  let volume ← number fields 5 "volume"
  return ⟨timestamp, opening, high, low, closing, volume⟩

/-- The candles of the records from a row on. -/
def candles (path : String) (row : Nat) :
    List (Except Csv.Fault (List String)) → Except FeedFault (List Candle)
  | [] => .ok []
  | .error fault :: _ => .error (.malformed fault)
  | .ok fields :: rest => do
    let first ← candle path row fields
    return first :: (← candles path (row + 1) rest)

/-- Candles in ascending order of time. -/
def sorted (candles : List Candle) : List Candle :=
  candles.mergeSort fun a b => decide (a.timestamp ≤ b.timestamp)

/-- The series in the text of a file. -/
def series (path content : String) : Except Failure Series :=
  match candles path 1 (Csv.records content).tail with
  | .error fault => .error (.data fault)
  | .ok candles =>
    match Series.ofCandles? (sorted candles) with
    | .ok series => .ok series
    | .error fault => .error (.series fault)

end Candlewick.Feed
