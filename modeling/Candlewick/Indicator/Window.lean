import Candlewick.Indicator.Quantity

namespace Candlewick.Indicator

variable {α β : Type}

/-- The window of `period` values that ends at an index. -/
def window (period index : Nat) (values : List α) : List α :=
  (values.drop (index + 1 - period)).take period

/-- As many undefined entries as there are values. -/
def undefined (values : List α) : List (Option β) :=
  List.replicate values.length none

/-- The windows of `period` values that begin at each place of a list, as long as they are full. -/
def fullWindows (period : Nat) : List α → List (List α)
  | [] => []
  | value :: rest =>
    let window := (value :: rest).take period
    if window.length = period then window :: fullWindows period rest else []

/-- A function of each full window. There is one entry for each value; it is `none` as long as the
    window that ends at the value is not full, and windows of no values are never full. -/
def overWindows (period : Nat) (f : List α → β) (values : List α) : List (Option β) :=
  if period = 0 then
    undefined values
  else
    List.replicate (min (period - 1) values.length) none ++
      (fullWindows period values).map fun window => some (f window)

/-- There is a full window for every place from which `period` values are left. -/
theorem length_fullWindows {period : Nat} (hperiod : 0 < period) (values : List α) :
    (fullWindows period values).length = values.length + 1 - period := by
  induction values with
  | nil => simp only [fullWindows, List.length_nil]; omega
  | cons value rest ih =>
    simp only [fullWindows, List.length_take, List.length_cons]
    by_cases hfull : min period (rest.length + 1) = period
    · rw [if_pos hfull, List.length_cons, ih]
      omega
    · rw [if_neg hfull, List.length_nil]
      omega

/-- A full window begins at each place from which `period` values are left. -/
theorem getElem?_fullWindows {period start : Nat} {values : List α}
    (hfull : start + period ≤ values.length) (hperiod : 0 < period) :
    (fullWindows period values)[start]? = some ((values.drop start).take period) := by
  induction values generalizing start with
  | nil => simp only [List.length_nil] at hfull; omega
  | cons value rest ih =>
    have hlength : ((value :: rest).take period).length = period := by
      rw [List.length_take]
      omega
    rw [fullWindows, if_pos hlength]
    cases start with
    | zero => rfl
    | succ start =>
      rw [List.length_cons] at hfull
      rw [List.getElem?_cons_succ, ih (by omega), List.drop_succ_cons]

/-- Computing over windows gives one entry for each value, whatever the period is. -/
@[simp] theorem length_overWindows (period : Nat) (f : List α → β) (values : List α) :
    (overWindows period f values).length = values.length := by
  by_cases hzero : period = 0
  · rw [overWindows, if_pos hzero, undefined, List.length_replicate]
  · rw [overWindows, if_neg hzero, List.length_append, List.length_replicate, List.length_map,
      length_fullWindows (by omega)]
    omega

/-- The entry at an index belongs to the window that ends there. -/
theorem getElem?_overWindows (period : Nat) (f : List α → β) {values : List α} {index : Nat}
    (hindex : index < values.length) :
    (overWindows period f values)[index]? =
      some (if 0 < period ∧ period ≤ index + 1 then some (f (window period index values))
        else none) := by
  by_cases hzero : period = 0
  · rw [overWindows, if_pos hzero, undefined, List.getElem?_replicate, if_pos hindex, if_neg]
    omega
  · rw [overWindows, if_neg hzero]
    by_cases hfull : period ≤ index + 1
    · have hstart : index - min (period - 1) values.length = index + 1 - period := by omega
      rw [if_pos ⟨by omega, hfull⟩,
        List.getElem?_append_right (by rw [List.length_replicate]; omega),
        List.length_replicate, hstart, List.getElem?_map, window,
        getElem?_fullWindows (by omega) (by omega), Option.map_some]
    · rw [if_neg (by omega), List.getElem?_append_left (by rw [List.length_replicate]; omega),
        List.getElem?_replicate, if_pos (by omega)]

end Candlewick.Indicator
