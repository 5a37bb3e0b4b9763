import Candlewick.Proofs.Indicator.Online
import Candlewick.Proofs.Indicator.Running

namespace Candlewick.Indicator

open Quantity

/-- There is no entry before a place. -/
def UndefinedBefore {α : Type} (place : Nat) (entries : List (Option α)) : Prop :=
  ∀ index < entries.length, index < place → entries[index]? = some none

/-- A row that ends before a place has no entries at all. -/
theorem UndefinedBefore.eq_replicate {α : Type} {entries : List (Option α)} {place count : Nat}
    (h : UndefinedBefore place entries) (hlength : entries.length = count) (hplace : count ≤ place) :
    entries = List.replicate count none := by
  refine List.eq_replicate_iff.2 ⟨hlength, ?_⟩
  intro entry hmem
  obtain ⟨index, hentry⟩ := List.mem_iff_getElem?.1 hmem
  have hindex := (List.getElem?_eq_some_iff.1 hentry).1
  have hnone := h index hindex (by omega)
  rw [hentry] at hnone
  exact Option.some.inj hnone

section OverWindows

variable {α β γ : Type} {period : Nat} {values : List α}

/-- The entries before the first full window are left as they are. -/
theorem overWindows_eq_append (hfull : ¬ (period = 0 ∨ values.length < period)) (f : List α → β) :
    overWindows period f values =
      List.replicate (period - 1) none ++ ((fullWindows period values).map f).map some := by
  have hfront : min (period - 1) values.length = period - 1 := by omega
  rw [overWindows, if_neg fun hzero => hfull (.inl hzero), hfront, List.map_map]
  rfl

/-- A row without entries, cut at a place. -/
theorem undefined_eq_append {front : Nat} (hfront : front ≤ values.length) :
    (undefined values : List (Option β)) =
      List.replicate front none ++ List.replicate (values.length - front) none := by
  rw [List.replicate_append_replicate, undefined, Nat.add_sub_of_le hfront]

/-- Without entries over the steps there is none over the values. -/
theorem overSteps_eq_undefined {step : α → α → β} {entries : List β → List (Option γ)}
    (hnone : entries (steps step values) = undefined (steps step values)) :
    overSteps step entries values = undefined values := by
  cases values with
  | nil => rfl
  | cons first rest =>
    rw [overSteps, hnone, undefined, undefined, length_steps, List.length_cons, Nat.add_sub_cancel,
      List.replicate_succ]

/-- A function of windows has no entry before its first full window. -/
theorem undefinedBefore_overWindows (period : Nat) (f : List α → β) (values : List α) :
    UndefinedBefore (period - 1) (overWindows period f values) := by
  intro index hindex hplace
  rw [length_overWindows] at hindex
  rw [getElem?_overWindows period f hindex, if_neg (by omega)]

/-- A function of windows has no entry at all without a full window. -/
theorem overWindows_eq_undefined (hnone : period = 0 ∨ values.length < period) (f : List α → β) :
    overWindows period f values = undefined values := by
  by_cases hzero : period = 0
  · rw [overWindows, if_pos hzero]
  · exact (undefinedBefore_overWindows period f values).eq_replicate (length_overWindows period f values)
      (by omega)

/-- Entries over the steps between neighbours are missing for one place more. -/
theorem UndefinedBefore.overSteps {step : α → α → β} {entries : List β → List (Option γ)}
    {place : Nat} {values : List α} (h : UndefinedBefore (place - 1) (entries (steps step values))) :
    UndefinedBefore place (overSteps step entries values) := by
  intro index hindex hplace
  cases values with
  | nil => exact absurd hindex (Nat.not_lt_zero index)
  | cons first rest =>
    cases index with
    | zero => rfl
    | succ index => exact h index (Nat.lt_of_succ_lt_succ hindex) (by omega)

end OverWindows

section Studies

variable {α : Type} [Quantity α]

/-- The weighted average is there from the first full window on. -/
theorem isSome_of_getElem?_wma {values : List α} {period index : Nat} {entry : Option α}
    (hperiod : 0 < period) (hentry : (wma values period)[index]? = some entry) :
    entry.isSome ↔ period ≤ index + 1 := by
  have hindex : index < values.length :=
    (Online.wma period).length_eq values ▸ (List.getElem?_eq_some_iff.1 hentry).1
  obtain ⟨sums, -, hsums⟩ := exists_sums_wma (fun _ _ => True) trivial
    (fun _ _ _ _ _ => trivial) hperiod hindex
  rw [hentry, Option.some_inj] at hsums
  rw [hsums]
  split <;> simp [*]

/-- The weighted average has no entry before its first full window, though its sums go on from the
    first value. -/
theorem undefinedBefore_wma (values : List α) (period : Nat) :
    UndefinedBefore (period - 1) (wma values period) := by
  intro index hindex hplace
  have hentry := List.getElem?_eq_getElem hindex
  have hsome := isSome_of_getElem?_wma (by omega) hentry
  rw [hentry, Option.some_inj, ← Option.not_isSome_iff_eq_none, hsome]
  omega

/-- The weighted average has no entry at all without a full window. -/
theorem wma_eq_undefined {values : List α} {period : Nat}
    (hnone : period = 0 ∨ values.length < period) : wma values period = undefined values := by
  by_cases hzero : period = 0
  · rw [hzero, wma_zero]
  · exact (undefinedBefore_wma values period).eq_replicate ((Online.wma period).length_eq values)
      (by omega)

/-- The rate of change has no entry for the values that have none a period before them. -/
theorem undefinedBefore_roc (values : List α) (period : Nat) :
    UndefinedBefore period (roc values period) := by
  rcases Nat.eq_zero_or_pos period with rfl | hperiod
  · exact fun _ _ => nofun
  · rw [roc_eq_overWindows hperiod]
    exact undefinedBefore_overWindows (period + 1) _ values

/-- Without a full window of changes there is no strength. -/
theorem strengths_eq_undefined {changes : List α} {period : Nat}
    (hnone : period = 0 ∨ changes.length < period) :
    strengths period changes = undefined changes := by
  have hundefined (part : α → α) : sma (changes.map part) period = undefined changes := by
    have hlength : (changes.map part).length = changes.length := List.length_map part
    rw [sma, overWindows_eq_undefined (by rw [hlength]; exact hnone), undefined, undefined,
      hlength]
  rw [strengths, hundefined, hundefined, undefined, List.zipWith_replicate']
  rfl

/-- The relative strength has no entry at all unless there are more values than its period. -/
theorem rsi_eq_undefined {values : List α} {period : Nat}
    (hnone : period = 0 ∨ values.length ≤ period) : rsi values period = undefined values := by
  rw [rsi_eq_overSteps]
  cases values with
  | nil => rfl
  | cons first rest =>
    rw [List.length_cons] at hnone
    apply overSteps_eq_undefined
    apply strengths_eq_undefined
    rw [length_steps, List.length_cons]
    omega

theorem undefinedBefore_strengths (period : Nat) (changes : List α) :
    UndefinedBefore (period - 1) (strengths period changes) := by
  intro index hindex hplace
  rw [(Online.strengths period).length_eq changes] at hindex
  have haverage (part : α → α) : (sma (changes.map part) period)[index]? = some none := by
    apply undefinedBefore_overWindows _ _ _ _ _ hplace
    rwa [length_overWindows, List.length_map]
  rw [strengths, List.getElem?_zipWith', haverage, haverage]
  rfl

/-- The average true range has no entry at all for a period of zero or without two candles. -/
theorem atr_eq_undefined {candles : List Candle} {period : Nat}
    (hnone : period = 0 ∨ candles.length < 2) : atr candles period = undefined candles := by
  rw [atr_eq_overSteps]
  apply overSteps_eq_undefined
  apply overWindows_eq_undefined
  rw [length_steps]
  omega

theorem undefinedBefore_atr (candles : List Candle) (period : Nat) :
    UndefinedBefore period (atr candles period) := by
  rw [atr_eq_overSteps]
  exact .overSteps (undefinedBefore_overWindows period _ _)

end Studies

end Candlewick.Indicator
