import Candlewick.Proofs.Indicator.Machine.Gives
import Candlewick.Proofs.Indicator.Undefined

namespace Candlewick.Indicator.Machine

open Quantity

variable {α : Type} [Quantity α]

/-- A sum is that of the definition. Nothing is settled, for a sum over no values keeps no
    number. -/
theorem gives_sum (start : α) (values : List α) :
    Gives (values.foldlM (fun sum value => keep (sum + value)) start)
      (values.foldl (· + ·) start) True := by
  induction values generalizing start with
  | nil => exact gives_pure start
  | cons value rest ih =>
    rw [List.foldlM_cons, List.foldl_cons]
    exact .step (gives_keep _) (ih _)

/-- A mean is that of the definition and is kept itself. -/
theorem gives_mean (period : Nat) (window : List α) :
    Gives (mean period window) (Quantity.mean period window)
      (isUndefined (Quantity.mean period window) = false) :=
  .step (gives_sum _ window) (gives_keep _)

/-- A deviation is that of the definition and is kept itself. -/
theorem gives_deviation [Root α] (period : Nat) (window : List α) :
    Gives (deviation period window) (Root.sqrt (variance period window))
      (isUndefined (Root.sqrt (variance period window)) = false) := by
  have hsquares : Gives
      (window.mapM fun value => do
        let distance ← keep (value - Quantity.mean period window)
        keep (distance * distance))
      (window.map fun value => (value - Quantity.mean period window) *
        (value - Quantity.mean period window)) _ :=
    gives_mapM fun value _ => .step (gives_keep _) (gives_keep _)
  exact .step (gives_mean period window) (.step hsquares (.step (gives_mean period _) (gives_keep _)))

/-- The place where the window of an offset ends. -/
theorem gives_placeOf {period offset : Nat} (hperiod : 0 < period) (hword : offset + period < wordLimit) :
    Gives (do minus (← plus offset period) 1 : Machine α Nat) (period - 1 + offset) True := by
  have hplace : period - 1 + offset = offset + period - 1 := by omega
  rw [hplace]
  exact .step (gives_plus hword) (gives_minus (by omega))

/-- If the machine computes a function of one window, it computes the entries over all windows. Each
    of them is written to the place where its window ends. -/
theorem gives_overWindows {period : Nat} {f : List α → Machine α α} {g : List α → α}
    {values : List α} (hlimit : values.length < wordLimit)
    (hf : ∀ window, Gives (f window) (g window) (isUndefined (g window) = false)) :
    Gives (overWindows period f values) (Indicator.overWindows period g values)
      (0 < period → SettledFrom (period - 1) (Indicator.overWindows period g values)) := by
  by_cases hnone : period = 0 ∨ values.length < period
  · rw [overWindows, if_pos hnone, overWindows_eq_undefined hnone]
    exact gives_undefined (by omega)
  · have hwindows : (fullWindows period values).length = values.length + 1 - period :=
      length_fullWindows (by omega) values
    have hitems : (fullWindows period values).map g =
        (fullWindows period values).zipIdx.map fun item => g item.1 := by
      have hfirst := List.zipIdx_map_fst 0 (fullWindows period values)
      rw [← Function.comp_def, ← List.map_map, hfirst]
    have hplace : ∀ (index : Nat) (item : List α × Nat),
        (fullWindows period values).zipIdx[index]? = some item →
          Gives (do minus (← plus item.2 period) 1 : Machine α Nat)
            ((List.replicate (period - 1) (none : Option α)).length + index) True := by
      intro index item hitem
      rw [List.getElem?_zipIdx, Nat.zero_add] at hitem
      obtain ⟨window, hwindow, rfl⟩ := Option.map_eq_some_iff.1 hitem
      have hindex := (List.getElem?_eq_some_iff.1 hwindow).1
      rw [List.length_replicate]
      exact gives_placeOf (by omega) (by omega)
    rw [overWindows, if_neg hnone, overWindows_eq_append hnone, hitems,
      undefined_eq_append (show period - 1 ≤ values.length by omega)]
    refine Gives.imp (.step (gives_windows (by omega) values)
      (gives_fill ?_ hplace fun item _ => hf item.1)) ?_
    · rw [List.length_replicate, List.length_zipIdx, hwindows]
      omega
    · intro hsettled _
      exact settledFrom_append (List.length_replicate ▸ Nat.le_refl _) hsettled

theorem gives_sma {period : Nat} {values : List α} (hlimit : values.length < wordLimit) :
    Gives (sma values period) (Indicator.sma values period)
      (0 < period → SettledFrom (period - 1) (Indicator.sma values period)) :=
  gives_overWindows hlimit (gives_mean period)

theorem gives_stdev [Root α] {period : Nat} {values : List α} (hlimit : values.length < wordLimit) :
    Gives (stdev values period) (Indicator.stdev values period)
      (0 < period → SettledFrom (period - 1) (Indicator.stdev values period)) :=
  gives_overWindows hlimit (gives_deviation period)

/-- A smoothed average goes from value to value as it is defined, and each of its entries is
    kept. -/
theorem gives_smoothed (k average : α) (values : List α) :
    Gives (smoothed k average values) ((Indicator.smoothed k average values).map some)
      (∀ x ∈ Indicator.smoothed k average values, isUndefined x = false) := by
  induction values generalizing average with
  | nil => exact (gives_pure []).imp fun _ => List.forall_mem_nil _
  | cons value rest ih =>
    rw [smoothed, Indicator.smoothed, List.map_cons]
    refine Gives.imp (.step (gives_keep _) (.step (gives_keep _) (.bind (gives_keep _)
      (.bind (ih _) (gives_pure _))))) ?_
    rintro ⟨hnext, hlater, -⟩
    exact List.forall_mem_cons.2 ⟨hnext, hlater⟩

/-- The exponential average runs to its end for lists of any length, since it looks up no place. -/
theorem gives_ema (values : List α) (period : Nat) :
    Gives (ema values period) (Indicator.ema values period)
      (0 < period → SettledFrom 0 (Indicator.ema values period)) := by
  by_cases hnone : period = 0 ∨ values = []
  · have hundefined : Indicator.ema values period = undefined values := by
      rcases hnone with rfl | rfl
      · exact ema_zero values
      · rw [Indicator.ema, undefined, List.length_nil, List.replicate_zero, ite_self]
    rw [ema, if_pos hnone, hundefined]
    exact gives_undefined fun hperiod =>
      Nat.le_of_eq (congrArg List.length (hnone.resolve_left (Nat.ne_of_gt hperiod)))
  · obtain ⟨first, rest, rfl⟩ := List.exists_cons_of_ne_nil fun hnil => hnone (.inr hnil)
    rw [ema, if_neg hnone, Indicator.ema, if_neg fun hzero => hnone (.inl hzero), List.map_cons]
    refine Gives.imp (.step (gives_keep _) (.step (gives_keep _) (.step (gives_read rfl)
      (.bind (gives_keep _) (.step (gives_after (Nat.le_add_left 1 _))
        (.bind (gives_smoothed _ _ _) (gives_pure _))))))) ?_
    rintro ⟨hfirst, hlater, -⟩ _
    have hfront : ([] : List (Option α)).length ≤ 0 := Nat.le_refl 0
    exact settledFrom_append hfront (List.forall_mem_cons (a := first).2 ⟨hfirst, hlater⟩)

end Candlewick.Indicator.Machine
