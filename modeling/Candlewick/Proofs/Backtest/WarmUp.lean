import Candlewick.Proofs.Backtest.Prefix
import Candlewick.Proofs.Decimal.Whole
import Candlewick.Proofs.Evaluation.Recomputation
import Candlewick.Proofs.Indicator.WarmUp

namespace Candlewick

open Evaluation Indicator

namespace Call

/-- The machine that computes the entries of an indicator over candles. -/
def machine? (builtin : Builtin) (field : PriceField) (candles : List Candle) (period : Nat) :
    Option (Machine Float (List (Option Float))) :=
  match builtin with
  | .study study => some (Machine.study study (fieldValues candles field) period)
  | .averageRange => some (Machine.atr candles period)
  | .pairing _ | .abs => none

/-- The place of the first entry of an indicator that can be there. -/
def warmUp (period : Nat) : Builtin → Nat
  | .study study => study.warmUp period
  | .averageRange => period
  | .pairing _ | .abs => 0

/-- An indicator that the machine computes is one that is evaluated, and it warms up. -/
theorem warmsUp_of_machine? {builtin : Builtin} {field : PriceField} {candles : List Candle}
    {period : Nat} {machine : Machine Float (List (Option Float))}
    (hmachine : machine? builtin field candles period = some machine) :
    ∃ entries, entries? builtin field candles period = some entries ∧
      WarmsUp machine entries candles.length period (warmUp period builtin) := by
  cases builtin with
  | study study =>
    cases hmachine
    have hwarm := study.warmsUp (fieldValues candles field) period
    rw [fieldValues, List.length_map, ← study.entries_eq_entriesOver] at hwarm
    exact ⟨_, rfl, hwarm⟩
  | averageRange =>
    cases hmachine
    exact ⟨_, rfl, warmsUp_atr candles period⟩
  | pairing | abs => cases hmachine

/-- A whole number from one on is accepted as a period, cast to a word. -/
theorem period_number (callee : String) {n : Float} (hwhole : Decimal.isWholeNumber n = true)
    (hone : 1 ≤ n) : period callee (.number n) = .ok n.toUInt64.toNat := by
  rw [period, if_pos ⟨hwhole, hone⟩]

/-- What a step of a call comes to, within the warm-up and behind it. -/
theorem ofEntry_of_warmsUp {machine : Machine Float (List (Option Float))}
    {entries : List (Option Float)} {count period place index : Nat} {entry : Option Float}
    (hwarm : WarmsUp machine entries count period place) (hlimit : count < wordLimit)
    (hdefined : machine.AllDefined) (hperiod : 0 < period) (hentry : entries[index]? = some entry)
    (callee : String) :
    (index < place → ofEntry callee index entry = .error (.insufficientHistory callee index)) ∧
    (place ≤ index → ∃ x, ofEntry callee index entry = .ok (.number x)) := by
  have hindex := (List.getElem?_eq_some_iff.1 hentry).1
  constructor
  · intro hbefore
    have hnone := hwarm.undefinedBefore index hindex hbefore
    rw [hentry] at hnone
    cases hnone
    rfl
  · intro hbehind
    obtain ⟨x, hx, hnumber⟩ := hwarm.settledFrom hlimit hdefined hperiod index hindex hbehind
    rw [hentry] at hx
    cases hx
    change x.isNaN = false at hnumber
    exact ⟨x, by rw [ofEntry, hnumber]; rfl⟩

end Call

/-- A program of one expression is evaluated as the expression. -/
theorem outcome_evaluateProgram_expression (series : Series) (node : Node) (start : Moment) :
    (evaluateProgram series (.expression node)).outcome start = (evaluate series node).outcome start := by
  rw [evaluateProgram, Program.statements, evaluateStatements, outcome_bind]
  rcases (evaluate series node).outcome start with ⟨_ | value, later⟩ <;> rfl

theorem outcome_evaluate_number (series : Series) (n : Float) (start : Moment) :
    (evaluate series (.number n)).outcome start = (.ok (.number n), start) := by
  rw [evaluate]
  rfl

/-- A call with a number as its period comes to the entry that its indicator has there over the whole
    series. -/
theorem Call.exists_outcome {series : Series} {callee : String} {builtin : Builtin}
    {field : PriceField} {n : Float} {entries : List (Option Float)}
    (hname : Builtin.ofName? callee = some builtin) (hwhole : Decimal.isWholeNumber n = true)
    (hone : 1 ≤ n)
    (hentries : entries? builtin field series.candles n.toUInt64.toNat = some entries)
    (start : Moment) (hindex : start.index < series.length) :
    ∃ entry, entries[start.index]? = some entry ∧
      (evaluate series (.call callee [.price field, .number n])).outcome start =
        (ofEntry callee start.index entry, start) := by
  obtain ⟨front, entry, hfront, hlast, hentry⟩ := exists_entry hentries hindex
  exact ⟨entry, hentry, outcome_call hname hindex (outcome_evaluate_number series n start)
    (period_number callee hwhole hone) hfront hlast⟩

/-- A backtest of a single call has a step for each candle. Those within the warm-up are skipped for
    lack of history, and all others have a number, if all numbers are defined that the indicator comes
    to over the series. -/
theorem Backtest.steps_of_call {series : Series} {callee : String} {builtin : Builtin}
    {field : PriceField} {n : Float} {machine : Machine Float (List (Option Float))}
    (hname : Builtin.ofName? callee = some builtin) (hwhole : Decimal.isWholeNumber n = true)
    (hone : 1 ≤ n)
    (hmachine : Call.machine? builtin field series.candles n.toUInt64.toNat = some machine)
    (hlimit : series.length < wordLimit) (hdefined : machine.AllDefined) (bindings : Variables) :
    let steps := (run (.expression (.call callee [.price field, .number n])) series bindings).steps
    let warmUp := Call.warmUp n.toUInt64.toNat builtin
    steps.length = series.length ∧
    ∀ index step, steps[index]? = some step →
      (index < warmUp → step.outcome = .error (.insufficientHistory callee index)) ∧
      (warmUp ≤ index → ∃ x, step.outcome = .ok (.number x)) := by
  intro steps warmUp
  refine ⟨length_steps_run series bindings, ?_⟩
  intro index step hstep
  obtain ⟨entries, hentries, hwarm⟩ := Call.warmsUp_of_machine? hmachine
  rw [getElem?_steps_run, Option.map_eq_some_iff] at hstep
  obtain ⟨candle, hcandle, rfl⟩ := hstep
  have hindex : index < series.length := (List.getElem?_eq_some_iff.1 hcandle).1
  obtain ⟨entry, hentry, houtcome⟩ := Call.exists_outcome hname hwhole hone hentries
    ⟨bindingsAt _ series bindings index, index⟩ hindex
  rw [outcome_evaluateProgram_expression, houtcome]
  exact Call.ofEntry_of_warmsUp hwarm hlimit hdefined (Decimal.toUInt64_pos hwhole hone) hentry callee

/-- Every indicator warms up, over numbers of any kind, for every period. The average true range does over
    candles. Over exact numbers nothing is undefined behind the warm-up. A backtest of a single call
    skips the steps within the warm-up for lack of history, and has a number at every other step. -/
theorem indicators_warm_up :
    (∀ (α : Type) [Quantity α] [Root α] (study : Study) (values : List α) (period : Nat),
      WarmsUp (Machine.study study values period) (study.entriesOver values period) values.length
        period (study.warmUp period)) ∧
    (∀ study : Study, study.entries = study.entriesOver) ∧
    (∀ (candles : List Candle) (period : Nat),
      WarmsUp (Machine.atr candles period) (atr candles period) candles.length period period) ∧
    (∀ (β : Type) (machine : Machine Rat β), machine.AllDefined) ∧
    ∀ (series : Series) (callee : String) (builtin : Builtin) (field : PriceField) (n : Float)
      (machine : Machine Float (List (Option Float))) (bindings : Variables),
      Builtin.ofName? callee = some builtin →
      Decimal.isWholeNumber n = true → 1 ≤ n →
      Call.machine? builtin field series.candles n.toUInt64.toNat = some machine →
      series.length < wordLimit → machine.AllDefined →
      let program : Program := .expression (.call callee [.price field, .number n])
      let steps := (Backtest.run program series bindings).steps
      let warmUp := Call.warmUp n.toUInt64.toNat builtin
      steps.length = series.length ∧
      ∀ index step, steps[index]? = some step →
        (index < warmUp → step.outcome = .error (.insufficientHistory callee index)) ∧
        (warmUp ≤ index → ∃ x, step.outcome = .ok (.number x)) :=
  ⟨fun _ _ _ study => study.warmsUp, Study.entries_eq_entriesOver, warmsUp_atr,
    fun _ => Machine.allDefined_rat, fun _ _ _ _ _ _ bindings hname hwhole hone hmachine hlimit
      hdefined => Backtest.steps_of_call hname hwhole hone hmachine hlimit hdefined bindings⟩

/-- The relative strength over two changes of three closes: the first two steps are skipped, and the
    third one has a number. -/
theorem indicators_warm_up_two_changes :
    let series : Series :=
      ⟨[⟨1, 7, 7, 7, 10, 1⟩, ⟨2, 8, 8, 8, 14, 1⟩, ⟨3, 8, 8, 8, 13, 1⟩], by decide⟩
    let machine := Machine.rsi (fieldValues series.candles .closing) 2
    let steps := (Backtest.run (.expression (.call "rsi" [.price .closing, .number 2])) series ∅).steps
    series.length < wordLimit ∧ machine.AllDefined ∧ steps.length = 3 ∧
    ∀ index step, steps[index]? = some step →
      (index < 2 → step.outcome = .error (.insufficientHistory "rsi" index)) ∧
      (2 ≤ index → ∃ x, step.outcome = .ok (.number x)) := by
  intro series machine steps
  have hlimit : series.length < wordLimit := by decide
  have hdefined : machine.AllDefined := by
    unfold Machine.AllDefined
    decide +kernel
  have hname : Builtin.ofName? "rsi" = some (.study .rsi) := Builtin.ofName?_name (.study .rsi)
  have hwhole : Decimal.isWholeNumber 2 = true := by decide +kernel
  have hone : (1 : Float) ≤ 2 := by decide +kernel
  have hperiod : (2 : Float).toUInt64.toNat = 2 := by decide +kernel
  have hmachine : Call.machine? (.study .rsi) .closing series.candles (2 : Float).toUInt64.toNat =
      some machine := by
    rw [hperiod]
    rfl
  have hwarmUp : Call.warmUp (2 : Float).toUInt64.toNat (.study .rsi) = 2 := hperiod
  obtain ⟨-, -, -, -, hcall⟩ := indicators_warm_up
  have hsteps := hcall series "rsi" (.study .rsi) .closing 2 machine ∅ hname hwhole hone hmachine
    hlimit hdefined
  rw [hwarmUp] at hsteps
  exact ⟨hlimit, hdefined, hsteps⟩

end Candlewick
