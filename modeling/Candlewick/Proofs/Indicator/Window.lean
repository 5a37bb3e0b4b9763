import Candlewick.Indicator.Window

namespace Candlewick.Indicator

variable {α β : Type}

/-- A place of a window is a place of the list, counted from where the window begins. -/
theorem getElem?_window {width place : Nat} (hplace : place < width) (index : Nat)
    (values : List α) :
    (window width index values)[place]? = values[index + 1 - width + place]? := by
  rw [window, List.getElem?_take_of_lt hplace, List.getElem?_drop]

theorem length_window {width index : Nat} {values : List α} (hfull : width ≤ index + 1)
    (hindex : index < values.length) : (window width index values).length = width := by
  rw [window, List.length_take, List.length_drop]
  omega

/-- A full window ends at its index. -/
theorem getLast?_window {width index : Nat} {values : List α} (hwidth : 0 < width)
    (hfull : width ≤ index + 1) (hindex : index < values.length) :
    (window width index values).getLast? = values[index]? := by
  have hend : index + 1 - width + (width - 1) = index := by omega
  rw [List.getLast?_eq_getElem?, length_window hfull hindex, getElem?_window (by omega), hend]

/-- The window that ends at a place and is one longer than the period begins a period before that
    place. -/
theorem headD_window {period index : Nat} {values : List α} (hfull : period ≤ index)
    (hindex : index < values.length) (default : α) :
    (window (period + 1) index values).headD default = values[index - period] := by
  rw [List.headD_eq_head?_getD, List.head?_eq_getElem?, getElem?_window (Nat.succ_pos period),
    Nat.add_sub_add_right, Nat.add_zero, List.getElem?_eq_getElem (by omega), Option.getD_some]

/-- A window ends at the place that it belongs to. -/
theorem getLastD_window {period index : Nat} {values : List α} (hfull : period ≤ index)
    (hindex : index < values.length) (default : α) :
    (window (period + 1) index values).getLastD default = values[index] := by
  rw [List.getLastD_eq_getLast?, getLast?_window (Nat.succ_pos period) (by omega) hindex,
    List.getElem?_eq_getElem hindex, Option.getD_some]

/-- A window that ends among the first values lies within them. -/
theorem window_take {width index count : Nat} (hfull : width ≤ index + 1) (hindex : index < count)
    (values : List α) : window width index (values.take count) = window width index values := by
  rw [window, window, List.drop_take, List.take_take, Nat.min_eq_left (by omega)]

/-- A list as long as a window is the window at its end. -/
theorem window_self {width : Nat} (hwidth : 0 < width) {values : List α}
    (hlength : values.length = width) : window width (width - 1) values = values := by
  have hstart : width - 1 + 1 - width = 0 := by omega
  rw [window, hstart, List.drop_zero, ← hlength, List.take_length]

/-- The window of the images is the image of the window. -/
theorem window_map (f : α → β) (width index : Nat) (values : List α) :
    window width index (values.map f) = (window width index values).map f := by
  rw [window, window, List.map_take, List.map_drop]

/-- The steps from each value to the next. -/
def steps (step : α → α → β) (values : List α) : List β :=
  List.zipWith step values values.tail

/-- There is one step less than there are values. -/
@[simp] theorem length_steps (step : α → α → β) (values : List α) :
    (steps step values).length = values.length - 1 := by
  rw [steps, List.length_zipWith, List.length_tail]
  omega

theorem steps_cons_cons (step : α → α → β) (first second : α) (rest : List α) :
    steps step (first :: second :: rest) = step first second :: steps step (second :: rest) :=
  rfl

/-- The first values have one step less than there are values. -/
theorem steps_take (step : α → α → β) (values : List α) (count : Nat) :
    steps step (values.take (count + 1)) = (steps step values).take count := by
  induction values generalizing count with
  | nil => rw [List.take_nil, steps, List.zipWith_nil_left, List.take_nil]
  | cons first rest ih =>
    cases rest with
    | nil =>
      rw [List.take_succ_cons, List.take_nil, steps, List.tail_cons, List.zipWith_nil_right,
        List.take_nil]
    | cons second rest =>
      cases count with
      | zero => rfl
      | succ count =>
        have hrest := ih count
        rw [List.take_succ_cons] at hrest
        rw [List.take_succ_cons, List.take_succ_cons, steps_cons_cons, hrest, steps_cons_cons,
          List.take_succ_cons]

/-- Steps between the values behind a place are the steps behind that place. -/
theorem steps_drop (step : α → α → β) (values : List α) (count : Nat) :
    steps step (values.drop count) = (steps step values).drop count := by
  rw [steps, steps, List.drop_zipWith, List.tail_drop, List.drop_tail]

/-- The steps within a window are a window of the steps, one narrower and ending one place before. -/
theorem steps_window (step : α → α → β) (width index : Nat) (values : List α) :
    steps step (window (width + 1) (index + 1) values) = window width index (steps step values) := by
  have hstart : index + 1 + 1 - (width + 1) = index + 1 - width := by omega
  rw [window, window, hstart, steps_take, steps_drop]

end Candlewick.Indicator
