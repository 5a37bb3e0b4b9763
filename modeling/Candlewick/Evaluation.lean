import Candlewick.Evaluation.Call
import Candlewick.Evaluation.Operators

namespace Candlewick

namespace Evaluation

/-- How many candles a value goes back. A number beyond the words of the machine is the greatest
    word. -/
def historyOffset : Value → Except EvalFault Nat
  | .number n => if Decimal.isWholeNumber n then .ok n.toUInt64.toNat else .error (.notAnOffset n)
  | value => .error (.offsetType value.type)

/-- The values of trading rules in turn: whether one of them says to buy, and whether one says to
    sell. -/
def votes (buy sell : Bool) : List (Evaluation Value) → Evaluation (Bool × Bool)
  | [] => pure (buy, sell)
  | rule :: rest => do
    match ← rule with
    | .bool true => votes true sell rest
    | .bool false => votes buy true rest
    | _ => votes buy sell rest

/-- The decision of a strategy. It decides nothing if its rules contradict each other. -/
def decision : Bool × Bool → Value
  | (true, false) => .bool true
  | (false, true) => .bool false
  | _ => .na

end Evaluation

open Evaluation

mutual

/-- The value of a tree. Its parts are evaluated from left to right, and `and` and `or` evaluate
    both their operands. -/
def evaluate (series : Series) : Node → Evaluation Value
  | .number value => pure (.number value)
  | .text content => pure (.text content)
  | .truth value => pure (.bool value)
  | .name word => lookup word
  | .price field => do return .number ((← candle series).field field)
  | .binary operator left right => do
    let left ← evaluate series left
    let right ← evaluate series right
    settle (left.binary operator right)
  | .unary operator operand => do
    let operand ← evaluate series operand
    settle (operand.unary operator)
  | .call callee arguments => call series callee (evaluateArguments series arguments)
  | .ifThen condition consequent => do
    if (← evaluate series condition).isTrue then evaluate series consequent else return .na
  | .ifThenElse condition consequent alternative => do
    if (← evaluate series condition).isTrue then
      evaluate series consequent
    else
      evaluate series alternative
  | .assign target value => do
    let value ← evaluate series value
    Evaluation.bind target value
    return value
  | .buy condition => do
    return if (← evaluate series condition).isTrue then .bool true else .na
  | .sell condition => do
    return if (← evaluate series condition).isTrue then .bool false else .na
  | .strategy _ rules => do
    return decision (← votes false false (evaluateEach series rules))
  | .past object offset => do
    let offset ← settle (historyOffset (← evaluate series offset))
    let index ← index
    if index < offset then
      throw (.beforeFirstCandle offset index)
    else
      atIndex (index - offset) (evaluate series object)

/-- The arguments of a call with their evaluations. -/
def evaluateArguments (series : Series) : List Node → List Argument
  | [] => []
  | node :: rest => ⟨node, evaluate series node⟩ :: evaluateArguments series rest

/-- The evaluations of several trees. -/
def evaluateEach (series : Series) : List Node → List (Evaluation Value)
  | [] => []
  | node :: rest => evaluate series node :: evaluateEach series rest

end

/-- The value of the last of some statements, all evaluated in turn; `last` if there are none. -/
def evaluateStatements (series : Series) (last : Value) : List Node → Evaluation Value
  | [] => pure last
  | node :: rest => do evaluateStatements series (← evaluate series node) rest

/-- The value of a program. -/
def evaluateProgram (series : Series) (program : Program) : Evaluation Value :=
  evaluateStatements series .na program.statements

/-- The outcome of an evaluation that starts in a moment, and the moment in which it ends. -/
def Evaluation.outcome {α : Type} (evaluation : Evaluation α) (start : Moment) :
    Except EvalFault α × Moment :=
  match evaluation start with
  | .ok value m => (.ok value, m)
  | .error fault m => (.error fault, m)

/-- The value of a program at the latest candle. -/
def execute (program : Program) (series : Series) (bindings : Variables) :
    Except EvalFault Value :=
  if series.isEmpty then
    .error .noCandles
  else
    ((evaluateProgram series program).outcome ⟨bindings, series.length - 1⟩).1

end Candlewick
