import Candlewick.Proofs.Indicator.Machine.Gives
import Candlewick.Proofs.Indicator.Undefined

namespace Candlewick.Indicator.Machine

open Quantity

variable {α : Type} [Quantity α]

theorem lt_length_of_drop_eq_cons {α : Type} {values : List α} {index : Nat} {value : α}
    {rest : List α} (hrest : values.drop index = value :: rest) : index < values.length := by
  have hlength := congrArg List.length hrest
  rw [List.length_drop, List.length_cons] at hlength
  omega

/-- A value that fills the window weighs as much as the place it takes. -/
theorem gives_filled (sums : WeightedSums α) (place : Nat) (value : α) :
    Gives (filled sums place value) (sums.fill place value) True :=
  .step (gives_keep _) (.step (gives_keep _) (.step (gives_keep _) (gives_pure _)))

/-- A value that enters a full window makes the oldest one leave. -/
theorem gives_slid (sums : WeightedSums α) (period : Nat) (leaving value : α) :
    Gives (slid sums period leaving value) (sums.slide period leaving value) True :=
  .step (gives_keep _) (.step (gives_keep _) (.step (gives_keep _) (.step (gives_keep _)
    (.step (gives_keep _) (gives_pure _)))))

/-- One step of the running sums. The leaving value is looked up only when the window is full, and
    then it is there. -/
theorem gives_next {values : List α} {period index : Nat} {value : α} {rest : List α}
    (hlimit : values.length < wordLimit) (hrest : values.drop index = value :: rest)
    (sums : WeightedSums α) :
    Gives (next values period index sums value)
      (sums.next period index ((values.drop (index - period)).headD value) value) True := by
  have hindex := lt_length_of_drop_eq_cons hrest
  by_cases hfill : index < period
  · rw [next, if_pos hfill, WeightedSums.next, if_pos hfill]
    exact .step (gives_plus (by omega)) (gives_filled sums _ value)
  · have hleaving : values[index - period]? =
        some ((values.drop (index - period)).headD value) := by
      rw [List.headD_eq_head?_getD, List.head?_drop, List.getElem?_eq_getElem (by omega),
        Option.getD_some]
    rw [next, if_neg hfill, WeightedSums.next, if_neg hfill]
    exact .step (gives_minus (by omega)) (.step (gives_read hleaving) (gives_slid sums _ _ value))

/-- An entry is written behind those that are there, if the window is full. -/
theorem gives_entered {period index : Nat} (hword : index + 1 < wordLimit) (divisor : α)
    (sums : WeightedSums α) {row : List (Option α)} (hrow : row.length = index)
    (blank : List (Option α)) :
    Gives (entered period index divisor sums (row ++ none :: blank))
      (row ++ (if period ≤ index + 1 then some (sums.weighted / divisor) else none) :: blank)
      (period ≤ index + 1 → isUndefined (sums.weighted / divisor) = false) := by
  refine Gives.step (gives_plus hword) ?_
  by_cases hfull : period ≤ index + 1
  · rw [if_pos hfull, if_pos hfull, ← hrow]
    exact Gives.imp (.bind (gives_keep _) (gives_write row none blank _)) fun h _ => h.1
  · rw [if_neg hfull, if_neg hfull]
    exact (gives_pure _).imp fun _ h => absurd h hfull

/-- From any index on, the machine completes a row whose entries up to there have been written. -/
theorem gives_wmaFrom {values : List α} (hlimit : values.length < wordLimit) (period : Nat)
    (divisor : α) {index : Nat} (sums : WeightedSums α) {row : List (Option α)} {rest : List α}
    (hrow : row.length = index) (hrest : values.drop index = rest) :
    Gives (wmaFrom values period divisor index sums (row ++ List.replicate rest.length none) rest)
      (row ++ Indicator.wmaFrom period divisor index sums (values.drop (index - period)) rest)
      (∀ x, some x ∈ Indicator.wmaFrom period divisor index sums (values.drop (index - period)) rest →
        isUndefined x = false) := by
  induction rest generalizing index sums row with
  | nil =>
    rw [Indicator.wmaFrom, List.length_nil, List.replicate_zero]
    exact (gives_pure _).imp fun _ x hx => absurd hx List.not_mem_nil
  | cons value rest ih =>
    have hindex := lt_length_of_drop_eq_cons hrest
    have hlater : values.drop (index + 1) = rest := by
      rw [← List.tail_drop, hrest, List.tail_cons]
    let sums' := sums.next period index ((values.drop (index - period)).headD value) value
    have hrow' : (row ++ [if period ≤ index + 1 then some (sums'.weighted / divisor)
        else none]).length = index + 1 := by
      rw [List.length_append, List.length_singleton, hrow]
    have hrest' := ih sums' hrow' hlater
    rw [List.append_assoc, List.append_assoc, List.singleton_append, List.singleton_append] at hrest'
    rw [wmaFrom_cons_of_drop, wmaFrom, List.length_cons, List.replicate_succ]
    refine Gives.imp (.step (gives_next hlimit hrest sums)
      (.bind (gives_entered (by omega) divisor _ hrow _) hrest')) ?_
    rintro ⟨hhere, hsettled⟩ x hx
    rcases List.mem_cons.1 hx with hentry | hentry
    · split at hentry
      · rename_i hfull
        cases hentry
        exact hhere hfull
      · cases hentry
    · exact hsettled x hentry

/-- The weighted average runs to its end and is that of the definition. -/
theorem gives_wma {values : List α} (hlimit : values.length < wordLimit) (period : Nat) :
    Gives (wma values period) (Indicator.wma values period)
      (0 < period → SettledFrom (period - 1) (Indicator.wma values period)) := by
  by_cases hnone : period = 0 ∨ values.length < period
  · rw [wma, if_pos hnone, wma_eq_undefined hnone]
    exact gives_undefined (by omega)
  · have hwma : Indicator.wma values period =
        [] ++ Indicator.wmaFrom period (whole period * (whole period + whole 1) / whole 2) 0
          ⟨whole 0, whole 0⟩ (values.drop (0 - period)) values := by
      rw [Indicator.wma, if_neg fun hzero => hnone (.inl hzero), Nat.zero_sub, List.drop_zero,
        List.nil_append]
    have hrow : ([] : List (Option α)).length = 0 := rfl
    have hfrom := gives_wmaFrom hlimit period
      (whole period * (whole period + whole 1) / whole 2) ⟨whole 0, whole 0⟩ hrow
      (List.drop_zero (l := values))
    rw [← hwma] at hfrom
    rw [wma, if_neg hnone]
    refine Gives.imp (.step (gives_keep _) (.step (gives_keep _) (.step (gives_keep _) hfrom))) ?_
    intro hdefined hperiod index hindex hfull
    have hentry := List.getElem?_eq_getElem hindex
    obtain ⟨x, hx⟩ := Option.isSome_iff_exists.1
      ((isSome_of_getElem?_wma hperiod hentry).2 (by omega))
    rw [hx] at hentry
    have hmem := List.mem_of_getElem? hentry
    rw [hwma, List.nil_append] at hmem
    exact ⟨x, hentry, hdefined x hmem⟩

end Candlewick.Indicator.Machine
