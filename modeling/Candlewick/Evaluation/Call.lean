import Candlewick.Evaluation.Moment
import Candlewick.Indicator.Deviation
import Candlewick.Indicator.Momentum
import Candlewick.Indicator.Range

namespace Candlewick

/-- The entries of a study over the values of a field. -/
def Study.entries : Study → List Float → Nat → List (Option Float)
  | sma => Indicator.sma
  | ema => Indicator.ema
  | wma => Indicator.wma
  | rsi => Indicator.rsi
  | stdev => Indicator.stdev
  | roc => Indicator.roc

/-- The value of a function of two numbers. -/
def Pairing.apply : Pairing → Float → Float → Value
  | crossover, a, b => .bool (Indicator.crossover a b)
  | crossunder, a, b => .bool (Indicator.crossunder a b)
  | max, a, b => .number (Decimal.larger a b)
  | min, a, b => .number (Decimal.smaller a b)

/-- The value of a function of two numbers if one of them is `na`. -/
def Pairing.ofNa : Pairing → Value
  | crossover | crossunder => .bool false
  | max | min => .na

/-- An argument of a call: its syntax tree together with its evaluation, for the source of a study
    is a field that is named, not a value that is computed. -/
structure Argument where
  node : Node
  value : Evaluation Value

namespace Call

/-- The field that the source of a study names. -/
def sourceField (callee : String) : Node → Except EvalFault PriceField
  | .price field => .ok field
  | _ => .error (.sourceNotAField callee)

/-- The period that a value stands for. A period beyond the words of the machine is the greatest
    word. -/
def period (callee : String) (value : Value) : Except EvalFault Nat :=
  match value with
  | .number n =>
    if Decimal.isWholeNumber n ∧ 1 ≤ n then
      .ok n.toUInt64.toNat
    else
      .error (.notAPeriod callee value)
  | _ => .error (.notAPeriod callee value)

/-- The latest entry of an indicator. It may be missing or not be a number. -/
def latestEntry (callee : String) (entries : List (Option Float)) : Evaluation Value := do
  match entries.getLast? with
  | some (some value) =>
    if value.isNaN then
      throw (.insufficientHistory callee (← Evaluation.index))
    else
      return .number value
  | _ => throw (.insufficientHistory callee (← Evaluation.index))

/-- The number of an argument that is not `na`. -/
def number (callee : String) (value : Value) : Except EvalFault Float :=
  match value with
  | .number n => .ok n
  | _ => .error (.argumentType callee value.type)

/-- A function of two numbers on two values. -/
def pair (pairing : Pairing) (callee : String) (first second : Value) : Except EvalFault Value :=
  if first = .na ∨ second = .na then
    .ok pairing.ofNa
  else do
    let a ← number callee first
    let b ← number callee second
    return pairing.apply a b

/-- The magnitude of a value. -/
def magnitude (callee : String) (value : Value) : Except EvalFault Value :=
  if value = .na then
    .ok .na
  else do
    let n ← number callee value
    return .number n.abs

/-- A call of a function that exists. -/
def apply (series : Series) (callee : String) (builtin : Builtin) (arguments : List Argument) :
    Evaluation Value := do
  match builtin, arguments with
  | .study study, [source, length] =>
    let field ← Evaluation.settle (sourceField callee source.node)
    let period ← Evaluation.settle (period callee (← length.value))
    let history ← Evaluation.history series
    latestEntry callee (study.entries (fieldValues history field) period)
  | .averageRange, [source, length] =>
    let _ ← source.value
    let period ← Evaluation.settle (period callee (← length.value))
    let history ← Evaluation.history series
    latestEntry callee (Indicator.atr history period)
  | .pairing pairing, [first, second] =>
    let first ← first.value
    let second ← second.value
    Evaluation.settle (pair pairing callee first second)
  | .abs, [argument] => Evaluation.settle (magnitude callee (← argument.value))
  | _, _ => throw (.wrongArity callee builtin arguments.length)

end Call

/-- A call by name. -/
def call (series : Series) (callee : String) (arguments : List Argument) : Evaluation Value :=
  match Builtin.ofName? callee with
  | some builtin => Call.apply series callee builtin arguments
  | none => throw (.unknownFunction callee)

end Candlewick
