import Candlewick.Proofs.Indicator.Assembly

namespace Candlewick.Indicator

open Quantity

section Invariants

variable {α : Type} [Quantity α] {period : Nat} {values : List α}

/-- The value that leaves the window when the value at an index comes in. -/
def leavingAt (values : List α) (period index : Nat) (value : α) : α :=
  (values.drop (index - period)).headD value

/-- What holds of the running sums at first and is kept from index to index holds at every index, and
    the entry there comes from such sums. -/
theorem exists_sums_wmaFrom {holds : Nat → WeightedSums α → Prop}
    (hnext : ∀ index sums value, values[index]? = some value → holds index sums →
      holds (index + 1) (sums.next period index (leavingAt values period index value) value))
    (divisor : α) {index : Nat} {sums : WeightedSums α} (hsums : holds index sums) {place : Nat}
    (hplace : index + place < values.length) :
    ∃ later, holds (index + place + 1) later ∧
      (wmaFrom period divisor index sums (values.drop (index - period)) (values.drop index))[place]? =
        some (if period ≤ index + place + 1 then some (later.weighted / divisor) else none) := by
  induction place generalizing index sums with
  | zero =>
    rw [Nat.add_zero] at hplace ⊢
    rw [List.drop_eq_getElem_cons hplace, wmaFrom_cons_of_drop, List.getElem?_cons_zero]
    exact ⟨_, hnext index sums _ (List.getElem?_eq_getElem hplace) hsums, rfl⟩
  | succ place ih =>
    have hindex : index < values.length := by omega
    have hshift : index + (place + 1) = index + 1 + place := by omega
    rw [hshift] at hplace ⊢
    rw [List.drop_eq_getElem_cons hindex, wmaFrom_cons_of_drop, List.getElem?_cons_succ]
    exact ih (hnext index sums _ (List.getElem?_eq_getElem hindex) hsums) hplace

/-- What holds of the empty sums and is kept by every step holds of the sums behind every entry of
    the weighted average. -/
theorem exists_sums_wma (holds : Nat → WeightedSums α → Prop)
    (hstart : holds 0 ⟨whole 0, whole 0⟩)
    (hnext : ∀ index sums value, values[index]? = some value → holds index sums →
      holds (index + 1) (sums.next period index (leavingAt values period index value) value))
    (hperiod : 0 < period) {index : Nat} (hindex : index < values.length) :
    ∃ sums, holds (index + 1) sums ∧ (wma values period)[index]? =
      some (if period ≤ index + 1 then
        some (sums.weighted / (whole period * (whole period + whole 1) / whole 2)) else none) := by
  have hsums := exists_sums_wmaFrom hnext (whole period * (whole period + whole 1) / whole 2) hstart
    (show 0 + index < values.length by rwa [Nat.zero_add])
  rw [Nat.zero_add, Nat.zero_sub, List.drop_zero] at hsums
  rwa [wma, if_neg (Nat.ne_of_gt hperiod)]

end Invariants

section ValuesBefore

variable {α : Type} {period index : Nat} {values : List α}

/-- The last values before an index, as many as a window has, or all if there are fewer. -/
def valuesBefore (values : List α) (period index : Nat) : List α :=
  (values.take index).drop (index - period)

theorem valuesBefore_zero (values : List α) (period : Nat) : valuesBefore values period 0 = [] := by
  rw [valuesBefore, List.take_zero, List.drop_nil]

/-- Before the first full window all values so far are in the sums, from then on a period of
    them. -/
theorem length_valuesBefore (hindex : index ≤ values.length) :
    (valuesBefore values period index).length = min index period := by
  rw [valuesBefore, List.length_drop, List.length_take_of_le hindex]
  omega

/-- A full window holds the last values before the index behind it. -/
theorem window_eq_valuesBefore (hfull : period ≤ index + 1) :
    window period index values = valuesBefore values period (index + 1) := by
  have hcount : index + 1 - (index + 1 - period) = period := by omega
  rw [window, valuesBefore, List.drop_take, hcount]

/-- Before the window is full there is no value that a longer one would have. -/
theorem valuesBefore_of_lt (hfill : index < period + 1) :
    valuesBefore values (period + 1) index = valuesBefore values period index := by
  have hstart : index - (period + 1) = index - period := by omega
  rw [valuesBefore, valuesBefore, hstart]

/-- One value joins the last ones; the oldest is left out to make room for it. -/
theorem valuesBefore_succ {value : α} (hvalue : values[index]? = some value) :
    valuesBefore values (period + 1) (index + 1) = valuesBefore values period index ++ [value] := by
  have hindex := (List.getElem?_eq_some_iff.1 hvalue).1
  have hstart : index - period ≤ (values.take index).length := by
    rw [List.length_take_of_le (Nat.le_of_lt hindex)]
    exact Nat.sub_le index period
  rw [valuesBefore, valuesBefore, List.take_add_one, hvalue, Option.toList_some,
    Nat.add_sub_add_right, List.drop_append_of_le_length hstart]

/-- The value that is to leave a full window is its oldest one. -/
theorem valuesBefore_eq_cons (hfull : period + 1 ≤ index) (hindex : index < values.length)
    (value : α) :
    valuesBefore values (period + 1) index =
      leavingAt values (period + 1) index value :: valuesBefore values period index := by
  have hstart : index - (period + 1) < values.length := by omega
  have hstart' : index - (period + 1) < (values.take index).length := by
    rw [List.length_take_of_le (Nat.le_of_lt hindex)]
    omega
  have hnext : index - (period + 1) + 1 = index - period := by omega
  rw [valuesBefore, valuesBefore, leavingAt, List.drop_eq_getElem_cons hstart', hnext,
    List.drop_eq_getElem_cons hstart, List.headD_cons, List.getElem_take]

end ValuesBefore

end Candlewick.Indicator
