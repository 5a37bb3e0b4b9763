import Candlewick.Proofs.Indicator.Running
import Mathlib

namespace Candlewick.Indicator

open Quantity

/-- The sum of the values of a window times their places, which are counted from one. -/
def weightedSum (window : List Rat) : Rat :=
  ∑ place ∈ Finset.range window.length, ((place : Rat) + 1) * window.getD place 0

/-- A sum over the places of a list is the sum of the list. -/
theorem sum_getD_range (window : List Rat) :
    ∑ place ∈ Finset.range window.length, window.getD place 0 = window.sum := by
  induction window with
  | nil => rfl
  | cons value rest ih =>
    rw [List.length_cons, Finset.sum_range_succ', List.sum_cons, List.getD_cons_zero, add_comm]
    simp only [List.getD_cons_succ, ih]

/-- A value behind a window has the place behind its last one. -/
theorem weightedSum_append_singleton (window : List Rat) (value : Rat) :
    weightedSum (window ++ [value]) =
      weightedSum window + ((window.length : Rat) + 1) * value := by
  have hfront : ∀ place ∈ Finset.range window.length,
      ((place : Rat) + 1) * (window ++ [value]).getD place 0 =
        ((place : Rat) + 1) * window.getD place 0 := by
    intro place hplace
    rw [List.getD_append _ _ _ _ (Finset.mem_range.1 hplace)]
  have hlast : (window ++ [value]).getD window.length 0 = value := by
    rw [List.getD_append_right _ _ _ _ (Nat.le_refl _), Nat.sub_self, List.getD_cons_zero]
  rw [weightedSum, List.length_append, List.length_singleton, Finset.sum_range_succ,
    Finset.sum_congr rfl hfront, hlast, weightedSum]

/-- A value in front of a window raises every place by one. -/
theorem weightedSum_cons (value : Rat) (window : List Rat) :
    weightedSum (value :: window) = weightedSum window + (value :: window).sum := by
  have hraised : ∀ place ∈ Finset.range window.length,
      (((place + 1 : Nat) : Rat) + 1) * (value :: window).getD (place + 1) 0 =
        ((place : Rat) + 1) * window.getD place 0 + window.getD place 0 := by
    intro place _
    rw [List.getD_cons_succ]
    push_cast
    ring
  rw [weightedSum, List.length_cons, Finset.sum_range_succ', Finset.sum_congr rfl hraised,
    Finset.sum_add_distrib, sum_getD_range, ← weightedSum, List.getD_cons_zero, List.sum_cons]
  push_cast
  ring

/-- The sums of a window, as they are defined. -/
def WeightedSums.ofWindow (window : List Rat) : WeightedSums Rat :=
  ⟨weightedSum window, window.sum⟩

/-- A value that fills the window makes the sums those of the longer window. -/
theorem WeightedSums.fill_ofWindow (window : List Rat) (value : Rat) :
    (ofWindow window).fill (window.length + 1) value = ofWindow (window ++ [value]) := by
  have hweighted : weightedSum window + ((window.length + 1 : Nat) : Rat) * value =
      weightedSum (window ++ [value]) := by
    rw [weightedSum_append_singleton]
    push_cast
    ring
  have hplain : window.sum + value = (window ++ [value]).sum := by
    rw [List.sum_append, List.sum_singleton]
  exact congrArg₂ WeightedSums.mk hweighted hplain

/-- The weighted sum falls by the plain sum of the old window, its oldest value included: that takes
    one place from each value, and the oldest value had the place one. -/
theorem WeightedSums.slide_ofWindow (oldest : Rat) (window : List Rat) (value : Rat) :
    (ofWindow (oldest :: window)).slide (window.length + 1) oldest value =
      ofWindow (window ++ [value]) := by
  have hweighted : weightedSum (oldest :: window) +
      (((window.length + 1 : Nat) : Rat) * value - (oldest :: window).sum) =
      weightedSum (window ++ [value]) := by
    rw [weightedSum_append_singleton, weightedSum_cons]
    push_cast
    ring
  have hplain : (oldest :: window).sum + (value - oldest) = (window ++ [value]).sum := by
    rw [List.sum_cons, List.sum_append, List.sum_singleton]
    ring
  exact congrArg₂ WeightedSums.mk hweighted hplain

/-- A further value keeps the sums those of the last values, as many as there are in a window. -/
theorem WeightedSums.next_ofWindow {period index : Nat} {values : List Rat} {value : Rat}
    (hperiod : 0 < period) (hvalue : values[index]? = some value) :
    (ofWindow (valuesBefore values period index)).next period index
        (leavingAt values period index value) value =
      ofWindow (valuesBefore values period (index + 1)) := by
  obtain ⟨shorter, rfl⟩ := Nat.exists_eq_add_one_of_ne_zero (Nat.ne_of_gt hperiod)
  have hindex := (List.getElem?_eq_some_iff.1 hvalue).1
  rw [valuesBefore_succ hvalue, next]
  split
  · rename_i hfill
    have hlength : (valuesBefore values shorter index).length = index := by
      rw [length_valuesBefore (Nat.le_of_lt hindex), Nat.min_eq_left (Nat.le_of_lt_succ hfill)]
    have hfilled := fill_ofWindow (valuesBefore values shorter index) value
    rw [hlength] at hfilled
    rw [valuesBefore_of_lt hfill, hfilled]
  · rename_i hslide
    have hfull : shorter + 1 ≤ index := Nat.le_of_not_lt hslide
    have hlength : (valuesBefore values shorter index).length = shorter := by
      rw [length_valuesBefore (Nat.le_of_lt hindex), Nat.min_eq_right (Nat.le_of_succ_le hfull)]
    have hslid := slide_ofWindow (leavingAt values (shorter + 1) index value)
      (valuesBefore values shorter index) value
    rwa [hlength, ← valuesBefore_eq_cons hfull hindex value] at hslid

/-- The entries of the weighted average are weighted sums of windows. -/
theorem getElem?_wma {period index : Nat} {values : List Rat} (hperiod : 0 < period)
    (hindex : index < values.length) :
    (wma values period)[index]? =
      some (if index + 1 < period then none
        else some (weightedSum (window period index values) /
          ((period : Rat) * ((period : Rat) + 1) / 2))) := by
  have hdivisor : (whole period * (whole period + whole 1) / whole 2 : Rat) =
      (period : Rat) * ((period : Rat) + 1) / 2 := by
    change (period : Rat) * ((period : Rat) + ((1 : Nat) : Rat)) / ((2 : Nat) : Rat) = _
    push_cast
    rfl
  let holds (count : Nat) (sums : WeightedSums Rat) : Prop :=
    sums = .ofWindow (valuesBefore values period count)
  have hstart : holds 0 ⟨whole 0, whole 0⟩ := by
    change _ = WeightedSums.ofWindow (valuesBefore values period 0)
    rw [valuesBefore_zero]
    exact congrArg₂ WeightedSums.mk Nat.cast_zero Nat.cast_zero
  have hnext : ∀ count sums value, values[count]? = some value → holds count sums →
      holds (count + 1) (sums.next period count (leavingAt values period count value) value) := by
    rintro count sums value hvalue rfl
    exact WeightedSums.next_ofWindow hperiod hvalue
  obtain ⟨sums, rfl, hentry⟩ := exists_sums_wma holds hstart hnext hperiod hindex
  rw [hentry, hdivisor]
  by_cases hfull : period ≤ index + 1
  · rw [if_pos hfull, if_neg (Nat.not_lt.2 hfull), window_eq_valuesBefore hfull]
    rfl
  · rw [if_neg hfull, if_pos (Nat.not_le.1 hfull)]

/-- The weighted sum of a window, in terms of the places of the whole list. -/
theorem weightedSum_window {width index : Nat} {values : List Rat} (hfull : width ≤ index + 1)
    (hindex : index < values.length) :
    weightedSum (window width index values) = ∑ place ∈ Finset.range width,
      ((place : Rat) + 1) * values.getD (index + 1 - width + place) 0 := by
  rw [weightedSum, length_window hfull hindex]
  apply Finset.sum_congr rfl
  intro place hplace
  rw [List.getD_eq_getElem?_getD, getElem?_window (Finset.mem_range.1 hplace),
    ← List.getD_eq_getElem?_getD]

/-- The weighted average over the exact rationals is the mean of the last `period` values with the
    weights `1, 2, …, period`, from the first index on at which there are that many; before it there
    is none. -/
theorem wma_eq_weighted_mean {period index : Nat} {values : List Rat} (hperiod : 0 < period)
    (hindex : index < values.length) :
    (wma values period)[index]? =
      some (if index + 1 < period then none
        else some ((∑ place ∈ Finset.range period,
          ((place : Rat) + 1) * values.getD (index + 1 - period + place) 0) /
            ((period : Rat) * ((period : Rat) + 1) / 2))) := by
  rw [getElem?_wma hperiod hindex]
  by_cases hfull : period ≤ index + 1
  · rw [if_neg (by omega), if_neg (by omega), weightedSum_window hfull hindex]
  · rw [if_pos (by omega), if_pos (by omega)]

/-- Three of four values, the oldest of which has left the window: `(1 * 5 + 2 * 8 + 3 * 1) / 6`. -/
theorem wma_eq_weighted_mean_behind_first :
    0 < 3 ∧ 3 < [(3 : Rat), 5, 8, 1].length ∧
      (wma [(3 : Rat), 5, 8, 1] 3)[3]? = some (some 4) := by
  have hperiod : 0 < 3 := by decide
  have hindex : 3 < [(3 : Rat), 5, 8, 1].length := by decide
  refine ⟨hperiod, hindex, ?_⟩
  rw [wma_eq_weighted_mean hperiod hindex, if_neg (by decide)]
  norm_num [Finset.sum_range_succ]

end Candlewick.Indicator
