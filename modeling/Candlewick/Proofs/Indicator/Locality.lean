import Candlewick.Proofs.Indicator.Online

namespace Candlewick.Indicator

open Quantity

variable {α β γ : Type}

/-- Entries that depend on windows of a width. -/
structure Windowed (width : Nat) (entries : List α → List β) : Prop where
  /-- The entry at an index is the last one over the window that ends there. -/
  last_eq : ∀ {values : List α} {index : Nat}, index < values.length → width ≤ index + 1 →
    (entries values)[index]? = (entries (window width index values)).getLast?
  /-- Two lists with the same window at an index have the same entry there. -/
  older_irrelevant : ∀ {values values' : List α} {index : Nat}, index < values.length →
    index < values'.length → width ≤ index + 1 →
    window width index values = window width index values' →
    (entries values)[index]? = (entries values')[index]?

/-- Two lists of one length are joined at their ends too. -/
theorem getLast?_zipWith {f : α → β → γ} {one : List α} {other : List β}
    (hlength : one.length = other.length) :
    (List.zipWith f one other).getLast? =
      (one.getLast?.map f).bind fun g => other.getLast?.map g := by
  rw [List.getLast?_eq_getElem?, List.getLast?_eq_getElem?, List.getLast?_eq_getElem?,
    List.getElem?_zipWith', List.length_zipWith, hlength, Nat.min_self]

/-- Entries over the steps between neighbours stand one place further on. -/
theorem getElem?_overSteps (step : α → α → β) (entries : List β → List (Option γ))
    {values : List α} (hvalues : values ≠ []) (index : Nat) :
    (overSteps step entries values)[index + 1]? = (entries (steps step values))[index]? := by
  cases values with
  | nil => exact absurd rfl hvalues
  | cons first rest => rw [overSteps, List.getElem?_cons_succ]

/-- The last entry over two or more values is the last one over the steps between them. -/
theorem getLast?_overSteps (step : α → α → β) {entries : List β → List (Option γ)}
    (honline : Online entries) {values : List α} (hvalues : 2 ≤ values.length) :
    (overSteps step entries values).getLast? = (entries (steps step values)).getLast? := by
  have hne : values ≠ [] := List.ne_nil_of_length_pos (by omega)
  have hlast : values.length - 1 = values.length - 1 - 1 + 1 := by omega
  rw [List.getLast?_eq_getElem?, List.getLast?_eq_getElem?, (Online.overSteps step honline).length_eq,
    honline.length_eq, length_steps, hlast, getElem?_overSteps step entries hne,
    Nat.add_sub_cancel]

namespace Windowed

variable {width : Nat}

/-- It is enough to compare an entry with the last one of its window, since the warm-up in front of
    the first full window is not asked for. -/
theorem of_last_eq {entries : List α → List β}
    (hlast : ∀ (values : List α) (index : Nat), index < values.length → width ≤ index + 1 →
      (entries values)[index]? = (entries (window width index values)).getLast?) :
    Windowed width entries := by
  refine ⟨fun {values index} => hlast values index, ?_⟩
  intro values values' index hindex hindex' hfull hwindow
  rw [hlast values index hindex hfull, hlast values' index hindex' hfull, hwindow]

/-- An image of each value for itself keeps the window. -/
theorem map {entries : List β → List γ} (hentries : Windowed width entries) (f : α → β) :
    Windowed width fun values => entries (values.map f) := by
  apply of_last_eq
  intro values index hindex hfull
  rw [hentries.last_eq (by rw [List.length_map]; exact hindex) hfull, window_map]

/-- Two indicators of one window, joined entry by entry, have that window. -/
theorem zipWith {δ : Type} (join : β → γ → δ) {one : List α → List β} {other : List α → List γ}
    (hone : Windowed width one) (hother : Windowed width other) (hone' : Online one)
    (hother' : Online other) :
    Windowed width fun values => List.zipWith join (one values) (other values) := by
  apply of_last_eq
  intro values index hindex hfull
  rw [List.getElem?_zipWith', hone.last_eq hindex hfull, hother.last_eq hindex hfull,
    getLast?_zipWith (by rw [hone'.length_eq, hother'.length_eq])]

/-- A function of windows has the window of its width. -/
theorem overWindows (hwidth : 0 < width) (f : List α → β) :
    Windowed width (overWindows width f) := by
  apply of_last_eq
  intro values index hindex hfull
  have hlength := length_window hfull hindex
  rw [getElem?_overWindows width f hindex, if_pos ⟨hwidth, hfull⟩, List.getLast?_eq_getElem?,
    length_overWindows, hlength, getElem?_overWindows width f (by omega),
    if_pos ⟨hwidth, by omega⟩, window_self hwidth hlength]

/-- Steps make a window wider by one: the first step of a window needs the value before. -/
protected theorem overSteps (hwidth : 0 < width) (step : α → α → β)
    {entries : List β → List (Option γ)} (hentries : Windowed width entries)
    (honline : Online entries) : Windowed (width + 1) (overSteps step entries) := by
  apply of_last_eq
  intro values index hindex hfull
  obtain ⟨place, rfl⟩ : ∃ place, index = place + 1 := ⟨index - 1, by omega⟩
  have hne : values ≠ [] := List.ne_nil_of_length_pos (by omega)
  have hplace : place < (steps step values).length := by
    rw [length_steps]
    omega
  have hlength := length_window hfull hindex
  rw [getElem?_overSteps step entries hne, hentries.last_eq hplace (by omega),
    getLast?_overSteps step honline (by omega), steps_window]

section Studies

variable [Quantity α] {period : Nat}

protected theorem sma (hperiod : 0 < period) :
    Windowed period fun values : List α => sma values period :=
  overWindows hperiod (mean period)

protected theorem stdev [Root α] (hperiod : 0 < period) :
    Windowed period fun values : List α => stdev values period :=
  overWindows hperiod fun values => Root.sqrt (variance period values)

protected theorem roc (hperiod : 0 < period) :
    Windowed (period + 1) fun values : List α => roc values period := by
  simp only [roc_eq_overWindows hperiod]
  exact overWindows (Nat.succ_pos period) _

protected theorem strengths (hperiod : 0 < period) :
    Windowed period fun changes : List α => strengths period changes :=
  zipWith _ ((Windowed.sma hperiod).map _) ((Windowed.sma hperiod).map _)
    ((Online.sma period).comp (.map _)) ((Online.sma period).comp (.map _))

/-- A change needs the value in front, so the relative strength looks at one value more than its
    period. -/
protected theorem rsi (hperiod : 0 < period) :
    Windowed (period + 1) fun values : List α => rsi values period := by
  simp only [rsi_eq_overSteps]
  exact .overSteps hperiod _ (.strengths hperiod) (.strengths period)

/-- A true range needs the candle in front, so the average looks at one candle more than its
    period. -/
protected theorem atr (hperiod : 0 < period) :
    Windowed (period + 1) fun candles => atr candles period := by
  simp only [atr_eq_overSteps]
  exact .overSteps hperiod _ (.sma hperiod) (.sma period)

end Studies

end Windowed

/-- The plain average and the standard deviation depend on the last `period` floats, the rate of
    change and the relative strength on the last `period + 1` floats, and the average true range on
    the last `period + 1` candles, wherever that many are there. -/
theorem windowed_indicators {period : Nat} (hperiod : 0 < period) :
    Windowed period (fun values : List Float => sma values period) ∧
    Windowed period (fun values : List Float => stdev values period) ∧
    Windowed (period + 1) (fun values : List Float => roc values period) ∧
    Windowed (period + 1) (fun values : List Float => rsi values period) ∧
    Windowed (period + 1) (fun candles => atr candles period) :=
  ⟨.sma hperiod, .stdev hperiod, .roc hperiod, .rsi hperiod, .atr hperiod⟩

/-- The relative strength over two changes is that of the last three values, whether infinity or no
    number at all stands before them. -/
theorem windowed_indicators_behind_infinity :
    let recent : List Float := [10, 14, 13]
    0 < 2 ∧ (rsi (1 / 0 :: recent) 2)[3]? = (rsi recent 2).getLast? ∧
      (rsi (1 / 0 :: recent) 2)[3]? = (rsi (0 / 0 :: recent) 2)[3]? ∧
      (rsi recent 2).getLast? = some (some 80) := by
  intro recent
  have hperiod : 0 < 2 := by decide
  obtain ⟨-, -, -, hrsi, -⟩ := windowed_indicators hperiod
  have hthree : 3 < (1 / 0 :: recent).length := by decide
  have hthree' : 3 < (0 / 0 :: recent).length := by decide
  have hlast : (rsi recent 2).getLast? = some (some 80) := by decide +kernel
  exact ⟨hperiod, hrsi.last_eq hthree (by decide),
    hrsi.older_irrelevant hthree hthree' (by decide) rfl, hlast⟩

end Candlewick.Indicator
