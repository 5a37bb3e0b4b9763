import Candlewick.Indicator.Deviation
import Candlewick.Indicator.Momentum
import Candlewick.Indicator.Range
import Candlewick.Proofs.Indicator.Window

namespace Candlewick.Indicator

open Quantity

variable {α β γ : Type}

/-- Entries over the steps of a list. There is no step to its first value. -/
def overSteps (step : α → α → β) (entries : List β → List (Option γ)) :
    List α → List (Option γ)
  | [] => []
  | first :: rest => none :: entries (steps step (first :: rest))

section Studies

variable [Quantity α]

theorem roc_zero (values : List α) : roc values 0 = undefined values :=
  rfl

theorem ema_zero (values : List α) : ema values 0 = undefined values := by
  cases values <;> rfl

theorem wma_zero (values : List α) : wma values 0 = undefined values :=
  rfl

theorem length_roc (values : List α) (period : Nat) :
    (roc values period).length = values.length := by
  by_cases hzero : period = 0
  · rw [hzero, roc_zero, undefined, List.length_replicate]
  · rw [roc, if_neg hzero, List.length_append, List.length_replicate, List.length_map,
      List.length_zipWith, List.length_drop]
    omega

/-- The rate of change is one from the first to the last value of a window. -/
theorem roc_eq_overWindows {period : Nat} (hperiod : 0 < period) (values : List α) :
    roc values period =
      overWindows (period + 1)
        (fun window => rate (window.headD (whole 0)) (window.getLastD (whole 0))) values := by
  apply List.ext_getElem?
  intro index
  by_cases hindex : index < values.length
  · rw [getElem?_overWindows _ _ hindex, roc, if_neg (Nat.ne_of_gt hperiod)]
    by_cases hfull : period ≤ index
    · have hfirst : index - period < values.length := by omega
      have hplace : index - min period values.length = index - period := by omega
      have hlast : period + (index - period) = index := by omega
      rw [if_pos ⟨by omega, by omega⟩, headD_window hfull hindex, getLastD_window hfull hindex,
        List.getElem?_append_right (by rw [List.length_replicate]; omega), List.length_replicate,
        hplace, List.getElem?_map, List.getElem?_zipWith, List.getElem?_drop, hlast,
        List.getElem?_eq_getElem hfirst, List.getElem?_eq_getElem hindex, Option.map_some]
    · rw [if_neg (by omega), List.getElem?_append_left (by rw [List.length_replicate]; omega),
        List.getElem?_replicate, if_pos (by omega)]
  · rw [List.getElem?_eq_none (by rw [length_roc]; omega),
      List.getElem?_eq_none (by rw [length_overWindows]; omega)]

/-- The relative strengths over windows of changes. -/
def strengths (period : Nat) (changes : List α) : List (Option α) :=
  List.zipWith (fun gain loss => do strength (← gain) (← loss))
    (sma (changes.map positivePart) period)
    (sma (changes.map fun change => positivePart (-change)) period)

/-- The relative strength is computed from the changes between neighbours. -/
theorem rsi_eq_overSteps (values : List α) (period : Nat) :
    rsi values period =
      overSteps (fun previous current => current - previous) (strengths period) values := by
  cases values <;> rfl

/-- The average true range is the mean of the true ranges, each of them between two neighbours. -/
theorem atr_eq_overSteps (candles : List Candle) (period : Nat) :
    atr candles period =
      overSteps (fun previous current => current.trueRange previous.closing)
        (fun ranges => sma ranges period) candles := by
  cases candles <;> rfl

/-- The entries of the exponential average as plain numbers, with the share `k`. -/
def averages (k : α) : List α → List α
  | [] => []
  | first :: rest => first :: smoothed k first rest

/-- The exponential average is defined from the first value on. -/
theorem ema_eq_averages {period : Nat} (hperiod : 0 < period) (values : List α) :
    ema values period = (averages (whole 2 / (whole period + whole 1)) values).map some := by
  cases values with
  | nil => rw [ema, if_neg (Nat.ne_of_gt hperiod), averages, List.map_nil]
  | cons first rest => rw [ema, if_neg (Nat.ne_of_gt hperiod), averages]

/-- A value that comes into a window that is not full yet. -/
theorem wmaFrom_fill {period index : Nat} (hfill : index < period) (divisor : α)
    (sums : WeightedSums α) (leaving : List α) (value : α) (rest : List α) :
    wmaFrom period divisor index sums leaving (value :: rest) =
      (if index + 1 < period then none
        else some ((sums.fill (index + 1) value).weighted / divisor)) ::
        wmaFrom period divisor (index + 1) (sums.fill (index + 1) value) leaving rest := by
  rw [wmaFrom, if_pos hfill]

/-- A value that comes into a full window, from which another one leaves. -/
theorem wmaFrom_slide {period index : Nat} (hslide : period ≤ index) (divisor : α)
    (sums : WeightedSums α) (leaving : List α) (value : α) (rest : List α) :
    wmaFrom period divisor index sums leaving (value :: rest) =
      some ((sums.slide period (leaving.headD value) value).weighted / divisor) ::
        wmaFrom period divisor (index + 1) (sums.slide period (leaving.headD value) value)
          leaving.tail rest := by
  rw [wmaFrom, if_neg (Nat.not_lt.2 hslide)]

/-- The sums at an index, from those before it. -/
def WeightedSums.next (sums : WeightedSums α) (period index : Nat) (leaving value : α) :
    WeightedSums α :=
  if index < period then sums.fill (index + 1) value else sums.slide period leaving value

/-- The entry at an index comes from the sums there. The values that are to leave are those of the
    list from `period` places before the index on. -/
theorem wmaFrom_cons_of_drop (period : Nat) (divisor : α) (index : Nat) (sums : WeightedSums α)
    (values : List α) (value : α) (rest : List α) :
    let next := sums.next period index ((values.drop (index - period)).headD value) value
    wmaFrom period divisor index sums (values.drop (index - period)) (value :: rest) =
      (if period ≤ index + 1 then some (next.weighted / divisor) else none) ::
        wmaFrom period divisor (index + 1) next (values.drop (index + 1 - period)) rest := by
  intro next
  rcases Nat.lt_or_ge index period with hfill | hslide
  · have hnext : next = sums.fill (index + 1) value := if_pos hfill
    have hstart : index + 1 - period = index - period := by omega
    rw [wmaFrom_fill hfill, hnext, hstart]
    by_cases hfull : period ≤ index + 1
    · rw [if_neg (Nat.not_lt.2 hfull), if_pos hfull]
    · rw [if_pos (Nat.not_le.1 hfull), if_neg hfull]
  · have hnext : next = sums.slide period ((values.drop (index - period)).headD value) value :=
      if_neg (Nat.not_lt.2 hslide)
    rw [wmaFrom_slide hslide, hnext, if_pos (Nat.le_succ_of_le hslide), List.tail_drop,
      Nat.succ_sub hslide]

end Studies

end Candlewick.Indicator
