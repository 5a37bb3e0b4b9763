import Candlewick.Proofs.Indicator.Average
import Candlewick.Proofs.Indicator.Locality

namespace Candlewick.Indicator

open Quantity

/-- The sum of the rises among some changes. -/
def totalGain (moves : List Rat) : Rat :=
  (moves.filter (0 < ·)).sum

/-- The sum of the falls among some changes, each by its size. -/
def totalLoss (moves : List Rat) : Rat :=
  -(moves.filter (· < 0)).sum

theorem positivePart_eq (x : Rat) : positivePart x = if 0 < x then x else 0 :=
  rfl

/-- The positive parts of the moves come to the total gain. -/
theorem sum_map_positivePart (moves : List Rat) :
    (moves.map positivePart).sum = totalGain moves := by
  induction moves with
  | nil => rfl
  | cons move rest ih =>
    rw [List.map_cons, List.sum_cons, ih, positivePart_eq, totalGain, totalGain, List.filter_cons]
    by_cases hrise : 0 < move
    · rw [if_pos hrise, if_pos (decide_eq_true hrise), List.sum_cons]
    · rw [if_neg hrise, if_neg (by simpa using hrise), zero_add]

/-- The positive parts of the opposite moves come to the total loss. -/
theorem sum_map_positivePart_neg (moves : List Rat) :
    (moves.map fun move => positivePart (-move)).sum = totalLoss moves := by
  induction moves with
  | nil => rfl
  | cons move rest ih =>
    rw [List.map_cons, List.sum_cons, ih, positivePart_eq, totalLoss, totalLoss, List.filter_cons]
    by_cases hfall : move < 0
    · rw [if_pos (neg_pos.2 hfall), if_pos (decide_eq_true hfall), List.sum_cons, neg_add]
    · rw [if_neg (by simpa using hfall), if_neg (by simpa using hfall), zero_add]

theorem totalGain_nonneg (moves : List Rat) : 0 ≤ totalGain moves :=
  List.sum_nonneg fun move hmove => by
    simpa using (of_decide_eq_true (List.mem_filter.1 hmove).2).le

theorem totalGain_eq_zero {moves : List Rat} (hfalling : ∀ move ∈ moves, move ≤ 0) :
    totalGain moves = 0 := by
  have hnone : moves.filter (0 < ·) = [] :=
    List.filter_eq_nil_iff.2 fun move hmove => by simpa using hfalling move hmove
  rw [totalGain, hnone, List.sum_nil]

theorem positivePart_nonneg (x : Rat) : 0 ≤ positivePart x := by
  rw [positivePart_eq]
  split
  · exact le_of_lt ‹0 < x›
  · exact le_rfl

theorem nonneg_of_mem_falls {moves : List Rat} {part : Rat}
    (hpart : part ∈ moves.map fun move => positivePart (-move)) : 0 ≤ part := by
  obtain ⟨move, -, rfl⟩ := List.mem_map.1 hpart
  exact positivePart_nonneg (-move)

theorem totalLoss_nonneg (moves : List Rat) : 0 ≤ totalLoss moves := by
  rw [← sum_map_positivePart_neg]
  exact List.sum_nonneg fun _ hpart => nonneg_of_mem_falls hpart

/-- There is no loss exactly if nothing falls. -/
theorem totalLoss_eq_zero_iff {moves : List Rat} :
    totalLoss moves = 0 ↔ ∀ move ∈ moves, 0 ≤ move := by
  constructor
  · intro hzero move hmove
    by_contra hfall
    have hpart : positivePart (-move) ≤ totalLoss moves := by
      rw [← sum_map_positivePart_neg]
      exact List.single_le_sum (fun _ hpart => nonneg_of_mem_falls hpart) _
        (List.mem_map_of_mem hmove)
    rw [hzero, positivePart_eq, if_pos (neg_pos.2 (not_le.1 hfall))] at hpart
    exact hfall (neg_nonpos.1 hpart)
  · intro hrising
    have hnone : moves.filter (· < 0) = [] :=
      List.filter_eq_nil_iff.2 fun move hmove => by simpa using hrising move hmove
    rw [totalLoss, hnone, List.sum_nil, neg_zero]

/-- The divisor of the two means cancels out. -/
theorem strength_eq {gain loss divisor : Rat} (hgain : 0 ≤ gain) (hloss : 0 ≤ loss)
    (hdivisor : 0 < divisor) :
    strength (gain / divisor) (loss / divisor) =
      some (if loss = 0 then 50 else 100 * gain / (gain + loss)) := by
  have hopen : strength (gain / divisor) (loss / divisor) =
      if (loss / divisor == 0) = true then some 50
      else some (100 - 100 / (1 + gain / divisor / (loss / divisor))) := rfl
  rw [hopen]
  by_cases hzero : loss = 0
  · rw [if_pos (by simp [hzero]), if_pos hzero]
  · have hpositive : 0 < loss := lt_of_le_of_ne hloss (Ne.symm hzero)
    have hne : ¬ (loss / divisor == 0) = true := by
      simpa using ⟨hzero, hdivisor.ne'⟩
    rw [if_neg hne, if_neg hzero]
    congr 1
    field_simp
    ring

/-- The changes of prices are the steps between neighbours. -/
theorem changes_eq_steps (values : List Rat) :
    changes values = steps (fun previous current => current - previous) values :=
  rfl

/-- The changes within a window are those that end in it, one fewer than its values. -/
theorem changes_window (width index : Nat) (values : List Rat) :
    changes (window (width + 1) (index + 1) values) = window width index (changes values) := by
  rw [changes_eq_steps, changes_eq_steps, steps_window]

/-- From the first index on that has `period` changes behind it, the strength is that of the changes
    within the window. -/
theorem getElem?_rsi {period index : Nat} {values : List Rat} (hperiod : 0 < period)
    (hfull : period ≤ index) (hindex : index < values.length) :
    (rsi values period)[index]? = some (
      strength (totalGain (changes (window (period + 1) index values)) / period)
        (totalLoss (changes (window (period + 1) index values)) / period)) := by
  obtain ⟨place, rfl⟩ : ∃ place, index = place + 1 := ⟨index - 1, by omega⟩
  have hne : values ≠ [] := List.ne_nil_of_length_pos (by omega)
  have hplace : place < (changes values).length := by
    rw [changes_eq_steps, length_steps]
    omega
  have hmean (part : Rat → Rat) :
      (sma ((changes values).map part) period)[place]? =
        some (some (((window period place (changes values)).map part).sum / period)) := by
    rw [sma, getElem?_overWindows _ _ (by rw [List.length_map]; exact hplace),
      if_pos ⟨hperiod, hfull⟩, mean_eq, window_map]
  rw [rsi_eq_overSteps, getElem?_overSteps _ _ hne, ← changes_eq_steps, strengths, List.getElem?_zipWith,
    hmean, hmean, changes_window, sum_map_positivePart, sum_map_positivePart_neg]
  rfl

/-- The relative strength over the exact rationals is defined from the first index on that has
    `period` changes behind it, and lies between 0 and 100. It is 50 if none of these changes is
    negative, 0 if some are negative and none is positive, and otherwise the share of the gains in all
    gains and losses, on a scale of 100. -/
theorem rsi_on_scale {period index : Nat} {values : List Rat} (hperiod : 0 < period)
    (hfull : period ≤ index) (hindex : index < values.length) :
    let moves := changes (window (period + 1) index values)
    ∃ x : Rat, (rsi values period)[index]? = some (some x) ∧ 0 ≤ x ∧ x ≤ 100 ∧
      ((∀ move ∈ moves, 0 ≤ move) → x = 50) ∧
      ((∃ move ∈ moves, move < 0) → (∀ move ∈ moves, move ≤ 0) → x = 0) ∧
      ((∃ move ∈ moves, move < 0) → (∃ move ∈ moves, 0 < move) →
        x = 100 * totalGain moves / (totalGain moves + totalLoss moves)) := by
  intro moves
  have hgain := totalGain_nonneg moves
  have hloss := totalLoss_nonneg moves
  have hentry := getElem?_rsi hperiod hfull hindex
  rw [strength_eq hgain hloss (by exact_mod_cast hperiod)] at hentry
  by_cases hrising : ∀ move ∈ moves, 0 ≤ move
  · -- Nothing falls, which leaves no room for the other two cases.
    have hnofall : ¬ ∃ move ∈ moves, move < 0 := fun ⟨move, hmove, hfall⟩ =>
      absurd (hrising move hmove) (not_le.2 hfall)
    rw [if_pos (totalLoss_eq_zero_iff.2 hrising)] at hentry
    exact ⟨50, hentry, by norm_num, by norm_num, fun _ => rfl, fun hfall => absurd hfall hnofall,
      fun hfall => absurd hfall hnofall⟩
  · have hne : totalLoss moves ≠ 0 := fun hzero => hrising (totalLoss_eq_zero_iff.1 hzero)
    have hpositive : 0 < totalLoss moves := lt_of_le_of_ne hloss (Ne.symm hne)
    have hmoved : 0 < totalGain moves + totalLoss moves := by linarith
    rw [if_neg hne] at hentry
    refine ⟨_, hentry, by positivity, ?_, fun h => absurd h hrising, ?_, fun _ _ => rfl⟩
    · rw [div_le_iff₀ hmoved]
      linarith
    · intro _ hfalling
      rw [totalGain_eq_zero hfalling, mul_zero, zero_div]

/-- One rise by four and one fall by one: four parts in five. -/
theorem rsi_on_scale_two_changes :
    0 < 2 ∧ 2 ≤ 2 ∧ 2 < [(10 : Rat), 14, 13].length ∧
      (rsi [(10 : Rat), 14, 13] 2)[2]? = some (some 80) := by
  have hperiod : 0 < 2 := Nat.two_pos
  have hfull : 2 ≤ 2 := Nat.le_refl 2
  have hindex : 2 < [(10 : Rat), 14, 13].length := Nat.lt_succ_self 2
  obtain ⟨x, hentry, -, -, -, -, hshare⟩ := rsi_on_scale hperiod hfull hindex
  have hmoves : changes (window (2 + 1) 2 [(10 : Rat), 14, 13]) = [4, -1] := by
    norm_num [changes, window]
  rw [hmoves] at hshare
  have hvalue : x = 80 := by
    rw [hshare ⟨-1, by norm_num⟩ ⟨4, by norm_num⟩]
    norm_num [totalGain, totalLoss, List.filter_cons]
  rw [hvalue] at hentry
  exact ⟨hperiod, hfull, hindex, hentry⟩

end Candlewick.Indicator
