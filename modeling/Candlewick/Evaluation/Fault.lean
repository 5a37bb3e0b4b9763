import Candlewick.Builtin
import Candlewick.Node
import Candlewick.Value

namespace Candlewick

/-- The kinds of faults. -/
inductive EvalKind where
  | undefinedVariable
  | unknownFunction
  | wrongArity
  | invalidIndex
  | insufficientHistory
  | invalidArgument
  | typeMismatch
deriving DecidableEq

/-- Why an evaluation has no value. -/
inductive EvalFault where
  | undefinedVariable (name : String)
  | unknownFunction (callee : String)
  | wrongArity (callee : String) (builtin : Builtin) (given : Nat)
  | noCandles
  | noCandle (index : Nat)
  | beforeFirstCandle (offset index : Nat)
  | notAnOffset (value : Float)
  | offsetType (type : ValueType)
  | insufficientHistory (callee : String) (index : Nat)
  | sourceNotAField (callee : String)
  | notAPeriod (callee : String) (value : Value)
  | cannotNegate (type : ValueType)
  | cannotApply (operator : BinaryOperator) (left right : ValueType)
  | argumentType (callee : String) (type : ValueType)
deriving DecidableEq

namespace EvalFault

/-- The kind of a fault. -/
def kind : EvalFault → EvalKind
  | undefinedVariable _ => .undefinedVariable
  | unknownFunction _ => .unknownFunction
  | wrongArity _ _ _ => .wrongArity
  | noCandles | noCandle _ | beforeFirstCandle _ _ | notAnOffset _ => .invalidIndex
  | insufficientHistory _ _ => .insufficientHistory
  | sourceNotAField _ | notAPeriod _ _ => .invalidArgument
  | offsetType _ | cannotNegate _ | cannotApply _ _ _ | argumentType _ _ => .typeMismatch

/-- The wording of a fault. -/
def message : EvalFault → String
  | undefinedVariable name => s!"undefined variable: {name}"
  | unknownFunction callee => s!"unknown function: {callee}"
  | wrongArity callee builtin given =>
    let noun := if builtin.arity = 1 then "argument" else "arguments"
    s!"{callee} requires {builtin.arity} {noun}: {builtin.parameters}, got {given}"
  | noCandles => "no candle data to evaluate against"
  | noCandle index => s!"no candle data at index {index}"
  | beforeFirstCandle offset index =>
    s!"index [{offset}] reaches before the first candle (current index {index})"
  | notAnOffset value =>
    "history index must be a non-negative integer, got " ++ Decimal.text value
  | offsetType type => "history index must be a number, got " ++ type.name
  | insufficientHistory callee index =>
    s!"{callee} is undefined at index {index}: not enough history"
  | sourceNotAField callee =>
    s!"{callee}: source must be a price field (open, high, low, close, volume)"
  | notAPeriod callee value =>
    s!"{callee}: period must be a positive integer, got {value.display}"
  | cannotNegate type => "cannot negate " ++ type.name
  | cannotApply operator left right =>
    s!"cannot apply '{operator.symbol}' to {left.name} and {right.name}"
  | argumentType callee type => s!"{callee} expects numbers, got {type.name}"

end EvalFault

end Candlewick
