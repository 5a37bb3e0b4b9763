namespace Candlewick

/-- Studies of one price field over a period. -/
inductive Study where
  | sma
  | ema
  | wma
  | rsi
  | stdev
  | roc
deriving DecidableEq

/-- Functions of two numbers. -/
inductive Pairing where
  | crossover
  | crossunder
  | max
  | min
deriving DecidableEq

/-- The functions by the way they take their arguments: a study reads a price field and a period,
    the average true range whole candles and a period, the others plain numbers. -/
inductive Builtin where
  | study (study : Study)
  | averageRange
  | pairing (pairing : Pairing)
  | abs
deriving DecidableEq

namespace Builtin

/-- The functions. -/
def all : List Builtin :=
  [.study .sma, .study .ema, .study .wma, .study .rsi, .averageRange, .study .stdev, .study .roc,
    .pairing .crossover, .pairing .crossunder, .abs, .pairing .max, .pairing .min]

/-- The bare name. -/
def name : Builtin → String
  | study .sma => "sma"
  | study .ema => "ema"
  | study .wma => "wma"
  | study .rsi => "rsi"
  | study .stdev => "stdev"
  | study .roc => "roc"
  | averageRange => "atr"
  | pairing .crossover => "crossover"
  | pairing .crossunder => "crossunder"
  | pairing .max => "max"
  | pairing .min => "min"
  | abs => "abs"

/-- The namespace: arithmetic is apart from technical analysis. -/
def area : Builtin → String
  | pairing .max | pairing .min | abs => "math"
  | _ => "ta"

/-- The name in the namespace. -/
def qualifiedName (builtin : Builtin) : String :=
  builtin.area ++ "." ++ builtin.name

/-- The function that a word names: by its bare name or by the name in its namespace, as in `sma`
    and `ta.sma`. -/
def ofName? (word : String) : Option Builtin :=
  all.find? fun builtin => word == builtin.name || word == builtin.qualifiedName

/-- The number of arguments. -/
def arity : Builtin → Nat
  | abs => 1
  | _ => 2

/-- The names of the parameters, for messages. -/
def parameters : Builtin → String
  | study _ | averageRange => "source, period"
  | pairing .crossover | pairing .crossunder => "series1, series2"
  | pairing .max | pairing .min => "value1, value2"
  | abs => "value"

/-- The bare name of a function is recognized as that function. -/
theorem ofName?_name (builtin : Builtin) : ofName? builtin.name = some builtin := by
  cases builtin with
  | study study => cases study <;> decide
  | averageRange => decide
  | pairing pairing => cases pairing <;> decide
  | abs => decide

/-- The name in the namespace of a function is recognized as that function. -/
theorem ofName?_qualifiedName (builtin : Builtin) :
    ofName? builtin.qualifiedName = some builtin := by
  cases builtin with
  | study study => cases study <;> decide
  | averageRange => decide
  | pairing pairing => cases pairing <;> decide
  | abs => decide

end Builtin

end Candlewick
