import Candlewick.Evaluation.Call
import Candlewick.Proofs.Indicator.Locality
import Candlewick.Proofs.Indicator.Machine.Changes
import Candlewick.Proofs.Indicator.Machine.Weighted

namespace Candlewick

open Indicator Quantity

/-- The entries of a study over numbers of any kind. -/
def Study.entriesOver {α : Type} [Quantity α] [Root α] :
    Study → List α → Nat → List (Option α)
  | sma => Indicator.sma
  | ema => Indicator.ema
  | wma => Indicator.wma
  | rsi => Indicator.rsi
  | stdev => Indicator.stdev
  | roc => Indicator.roc

/-- Calls have the entries over floats. -/
theorem Study.entries_eq_entriesOver (study : Study) : study.entries = study.entriesOver := by
  cases study <;> rfl

/-- The place of the first entry of a study that can be there. -/
def Study.warmUp (period : Nat) : Study → Nat
  | sma | wma | stdev => period - 1
  | rsi | roc => period
  | ema => 0

namespace Indicator

variable {α β : Type}

/-- The numbers that a computation comes to if it runs to its end. -/
def Machine.numbers (machine : Machine α β) : List α :=
  match machine [] with
  | .ok (_, numbers) => numbers
  | .error _ => []

/-- All numbers that a computation comes to are defined. -/
def Machine.AllDefined [Quantity α] (machine : Machine α β) : Prop :=
  ∀ x ∈ machine.numbers, isUndefined x = false

section

variable [Quantity α] {machine : Machine α β} {value : β} {settled : Prop}

/-- A computation that gives a value does so from the start, and settles what it settles if all the
    numbers of that run are defined. -/
theorem Machine.Gives.run_eq (h : Machine.Gives machine value settled) :
    machine [] = .ok (value, machine.numbers) ∧ (machine.AllDefined → settled) := by
  obtain ⟨numbers, hrun, hsettled⟩ := h []
  rw [List.append_nil] at hrun
  have hnumbers : machine.numbers = numbers := by rw [Machine.numbers, hrun]
  rw [Machine.AllDefined, hnumbers]
  exact ⟨hrun, hsettled⟩

end

/-- Exact numbers are all defined. -/
theorem Machine.allDefined_rat (machine : Machine Rat β) : machine.AllDefined :=
  fun _ _ => rfl

/-- What a machine has for `count` values when the places before another one are its warm-up. It runs to
    its end if the count is a word, so it stops at no place that is no word or that a list does not
    have. If all numbers that it comes to are defined, every entry behind the warm-up is. -/
structure WarmsUp [Quantity α] (machine : Machine α (List (Option α))) (entries : List (Option α))
    (count period place : Nat) : Prop where
  length_eq : entries.length = count
  undefined_zero : period = 0 → entries = List.replicate count none
  undefinedBefore : UndefinedBefore place entries
  run_eq : count < wordLimit → machine [] = .ok (entries, machine.numbers)
  settledFrom : count < wordLimit → machine.AllDefined → 0 < period → SettledFrom place entries

/-- The warm-up of an indicator, put together from what is missing at the front and from what its
    machine settles behind. -/
theorem WarmsUp.of_gives [Quantity α] {machine : Machine α (List (Option α))}
    {entries : List (Option α)} {count period place : Nat} (hlength : entries.length = count)
    (hzero : period = 0 → entries = List.replicate count none)
    (hbefore : UndefinedBefore place entries)
    (hgives : count < wordLimit →
      Machine.Gives machine entries (0 < period → SettledFrom place entries)) :
    WarmsUp machine entries count period place where
  length_eq := hlength
  undefined_zero := hzero
  undefinedBefore := hbefore
  run_eq hlimit := (hgives hlimit).run_eq.1
  settledFrom hlimit := (hgives hlimit).run_eq.2

/-- The average true range is warmed up after its period. -/
theorem warmsUp_atr (candles : List Candle) (period : Nat) :
    WarmsUp (Machine.atr candles period) (atr candles period) candles.length period period :=
  .of_gives ((Online.atr period).length_eq candles)
    (fun hzero => atr_eq_undefined (.inl hzero)) (undefinedBefore_atr candles period)
    fun hlimit => Machine.gives_atr hlimit period

end Indicator

namespace Study

variable {α : Type} [Quantity α] [Root α]

/-- No study has an entry within its warm-up. -/
theorem undefinedBefore (study : Study) (values : List α) (period : Nat) :
    UndefinedBefore (study.warmUp period) (study.entriesOver values period) := by
  cases study with
  | sma | stdev => exact undefinedBefore_overWindows period _ values
  | ema => exact fun _ _ => nofun
  | wma => exact undefinedBefore_wma values period
  | rsi =>
    change UndefinedBefore period (Indicator.rsi values period)
    rw [rsi_eq_overSteps]
    exact .overSteps (undefinedBefore_strengths period _)
  | roc => exact undefinedBefore_roc values period

/-- No study has an entry for a period of zero. -/
theorem entriesOver_zero (study : Study) (values : List α) :
    study.entriesOver values 0 = undefined values := by
  cases study with
  | sma => exact overWindows_eq_undefined (.inl rfl) (mean 0)
  | stdev => exact overWindows_eq_undefined (.inl rfl) fun values => Root.sqrt (variance 0 values)
  | ema => exact ema_zero values
  | wma => exact wma_zero values
  | rsi => exact rsi_eq_undefined (.inl rfl)
  | roc => exact roc_zero values

/-- Every study has an entry for each value, missing or not. -/
theorem length_entriesOver (study : Study) (values : List α) (period : Nat) :
    (study.entriesOver values period).length = values.length := by
  cases study with
  | sma | stdev => exact length_overWindows period _ values
  | ema => exact (Online.ema period).length_eq values
  | wma => exact (Online.wma period).length_eq values
  | rsi => exact (Online.rsi period).length_eq values
  | roc => exact length_roc values period

/-- The machine of every study runs to its end and settles what is behind the warm-up. -/
theorem gives (study : Study) {values : List α} (hlimit : values.length < wordLimit)
    (period : Nat) :
    Machine.Gives (Machine.study study values period) (study.entriesOver values period)
      (0 < period → SettledFrom (study.warmUp period) (study.entriesOver values period)) := by
  cases study with
  | sma => exact Machine.gives_sma hlimit
  | ema => exact Machine.gives_ema values period
  | wma => exact Machine.gives_wma hlimit period
  | rsi => exact Machine.gives_rsi hlimit period
  | stdev => exact Machine.gives_stdev hlimit
  | roc => exact Machine.gives_roc values period

/-- Every study warms up as its kind says. -/
theorem warmsUp (study : Study) (values : List α) (period : Nat) :
    WarmsUp (Machine.study study values period) (study.entriesOver values period) values.length
      period (study.warmUp period) := by
  refine .of_gives (study.length_entriesOver values period) (fun hzero => ?_)
    (study.undefinedBefore values period) fun hlimit => study.gives hlimit period
  rw [hzero, entriesOver_zero, undefined]

end Study

end Candlewick
