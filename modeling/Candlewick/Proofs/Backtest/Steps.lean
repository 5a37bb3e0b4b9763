import Candlewick.Backtest

namespace Candlewick.Backtest

variable (program : Program) (series : Series)

/-- The variables after some more steps from an index on. -/
def bindingsAfter (index : Nat) (bindings : Variables) : Nat → Variables
  | 0 => bindings
  | count + 1 =>
    bindingsAfter (index + 1)
      ((evaluateProgram series program).outcome ⟨bindings, index⟩).2.bindings count

/-- The variables that a step of a run starts with. -/
def bindingsAt (bindings : Variables) (index : Nat) : Variables :=
  bindingsAfter program series 0 bindings index

/-- One more step starts with what the steps before it have left. -/
theorem bindingsAfter_succ (index count : Nat) (bindings : Variables) :
    bindingsAfter program series index bindings (count + 1) =
      ((evaluateProgram series program).outcome
        ⟨bindingsAfter program series index bindings count, index + count⟩).2.bindings := by
  induction count generalizing index bindings with
  | zero => rfl
  | succ count ih =>
    rw [bindingsAfter, ih, bindingsAfter, Nat.add_right_comm, Nat.add_assoc]

/-- Each step evaluates the program at its own candle, with the variables that the steps before it
    have left. -/
theorem getElem?_steps_runFrom (index : Nat) (bindings : Variables) (candles : List Candle)
    (count : Nat) :
    (runFrom program series (fun _ => false) index bindings candles).steps[count]? =
      candles[count]?.map fun candle =>
        ⟨index + count, candle.timestamp, ((evaluateProgram series program).outcome
          ⟨bindingsAfter program series index bindings count, index + count⟩).1⟩ := by
  induction candles generalizing index bindings count with
  | nil => simp [runFrom]
  | cons candle rest ih =>
    simp only [runFrom, Bool.false_eq_true, if_false]
    cases count with
    | zero => rfl
    | succ count =>
      rw [List.getElem?_cons_succ, ih, List.getElem?_cons_succ, bindingsAfter, Nat.add_right_comm,
        Nat.add_assoc]

/-- A step of a run is the evaluation at its candle, with the bindings that the steps before it have
    left. -/
theorem getElem?_steps_run (bindings : Variables) (index : Nat) :
    (run program series bindings).steps[index]? =
      (series.get? index).map fun candle =>
        ⟨index, candle.timestamp, ((evaluateProgram series program).outcome
          ⟨bindingsAt program series bindings index, index⟩).1⟩ := by
  rw [run, getElem?_steps_runFrom, Nat.zero_add]
  rfl

end Candlewick.Backtest
