import Candlewick.Evaluation.Fault
import Candlewick.Series

namespace Candlewick

/-- What an evaluation can change. -/
structure Moment where
  bindings : Variables
  index : Nat

/-- A computation over moments. It ends in a value or a fault, and a fault keeps the moment in which
    it arose. -/
abbrev Evaluation (α : Type) := EStateM EvalFault Moment α

namespace Evaluation

variable {α : Type}

/-- An outcome that leaves the moment as it is. -/
def settle : Except EvalFault α → Evaluation α
  | .ok value => pure value
  | .error fault => throw fault

/-- The present index. -/
def index : Evaluation Nat := fun m => .ok m.index m

/-- The value of a variable. -/
def lookup (name : String) : Evaluation Value := do
  match (← get).bindings.get? name with
  | some value => return value
  | none => throw (.undefinedVariable name)

/-- Gives a variable a value. -/
def bind (name : String) (value : Value) : Evaluation Unit :=
  modify fun m => { m with bindings := m.bindings.put name value }

/-- The present candle. -/
def candle (series : Series) : Evaluation Candle := do
  let index ← index
  match series.get? index with
  | some candle => return candle
  | none => throw (.noCandle index)

/-- The candles up to the present one: all that an evaluation may see. -/
def history (series : Series) : Evaluation (List Candle) := do
  let _ ← candle series
  return series.history (← index)

/-- An evaluation at another index. Afterwards the index is the old one, also after a fault. -/
def atIndex (index : Nat) (evaluation : Evaluation α) : Evaluation α := fun m =>
  match evaluation { m with index := index } with
  | .ok value later => .ok value { later with index := m.index }
  | .error fault later => .error fault { later with index := m.index }

end Evaluation

end Candlewick
