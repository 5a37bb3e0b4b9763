import Candlewick.Proofs.Indicator.Weighted

namespace Candlewick.Indicator

open Quantity

/-- Not below the least of some values, and not above the greatest. -/
def LiesWithin (values : List Rat) (x : Rat) : Prop :=
  ∃ least greatest, values.min? = some least ∧ values.max? = some greatest ∧
    least ≤ x ∧ x ≤ greatest

/-- A sum of values with weights that are not negative and come to one. -/
theorem liesWithin_of_weights {values : List Rat} {weight : ℕ → ℚ} (hne : values ≠ [])
    (hweight : ∀ place < values.length, 0 ≤ weight place)
    (htotal : ∑ place ∈ Finset.range values.length, weight place = 1) :
    LiesWithin values
      (∑ place ∈ Finset.range values.length, weight place * values.getD place 0) := by
  obtain ⟨least, hleast⟩ := Option.isSome_iff_exists.1 (List.isSome_min?_of_ne_nil hne)
  obtain ⟨greatest, hgreatest⟩ := Option.isSome_iff_exists.1 (List.isSome_max?_of_ne_nil hne)
  have hvalue : ∀ place ∈ Finset.range values.length,
      values.getD place 0 ∈ Set.Icc least greatest := by
    intro place hplace
    have hmem : values.getD place 0 ∈ values := by
      rw [List.getD_eq_getElem _ _ (Finset.mem_range.1 hplace)]
      exact List.getElem_mem _
    exact ⟨(List.min?_eq_some_iff.1 hleast).2 _ hmem,
      (List.max?_eq_some_iff.1 hgreatest).2 _ hmem⟩
  have hsum := (convex_Icc least greatest).sum_mem
    (fun place hplace => hweight place (Finset.mem_range.1 hplace)) htotal hvalue
  exact ⟨least, greatest, hleast, hgreatest, hsum.1, hsum.2⟩

/-- In exact arithmetic the order in which values are added is of no account. -/
theorem sum_eq (values : List Rat) : Quantity.sum values = values.sum := by
  rw [List.sum_eq_foldl]
  rfl

theorem mean_eq (period : Nat) (values : List Rat) :
    mean period values = values.sum / (period : Rat) := by
  rw [mean, sum_eq]
  rfl

/-- A mean lies between the least and the greatest of its values. -/
theorem liesWithin_mean {window : List Rat} (hne : window ≠ []) :
    LiesWithin window (mean window.length window) := by
  have hlength : (window.length : ℚ) ≠ 0 := by simpa using hne
  have hmean : mean window.length window =
      ∑ place ∈ Finset.range window.length, 1 / (window.length : ℚ) * window.getD place 0 := by
    rw [mean_eq, ← Finset.mul_sum, sum_getD_range, one_div_mul_eq_div]
  rw [hmean]
  refine liesWithin_of_weights hne (fun place _ => by positivity) ?_
  rw [Finset.sum_const, Finset.card_range, nsmul_eq_mul, mul_one_div_cancel hlength]

/-- The weights `1, 2, …, n` come to `n * (n + 1) / 2`. -/
theorem sum_places (count : Nat) :
    ∑ place ∈ Finset.range count, ((place : ℚ) + 1) = (count : ℚ) * ((count : ℚ) + 1) / 2 := by
  induction count with
  | zero => simp
  | succ count ih =>
    rw [Finset.sum_range_succ, ih]
    push_cast
    ring

/-- A mean with the weights `1, 2, …, n` lies between the least and the greatest of its values. -/
theorem liesWithin_weightedSum {window : List Rat} (hne : window ≠ []) :
    LiesWithin window (weightedSum window /
      ((window.length : Rat) * ((window.length : Rat) + 1) / 2)) := by
  have hlength : (0 : ℚ) < window.length := by
    exact_mod_cast List.length_pos_iff.2 hne
  have hweighted : weightedSum window /
      ((window.length : Rat) * ((window.length : Rat) + 1) / 2) =
      ∑ place ∈ Finset.range window.length,
        ((place : ℚ) + 1) / ((window.length : ℚ) * ((window.length : ℚ) + 1) / 2) *
          window.getD place 0 := by
    rw [weightedSum, Finset.sum_div]
    exact Finset.sum_congr rfl fun place _ => mul_div_right_comm _ _ _
  rw [hweighted]
  refine liesWithin_of_weights hne (fun place _ => by positivity) ?_
  rw [← Finset.sum_div, sum_places, div_self (by positivity)]

section Exponential

variable {k : ℚ}

/-- The weight of a value in the exponential average at an index. The first value keeps all that the
    later ones leave of it. -/
def fading (k : ℚ) (index : Nat) : Nat → ℚ
  | 0 => (1 - k) ^ index
  | place + 1 => k * (1 - k) ^ (index - (place + 1))

/-- No weight is below zero as long as the factor lies between zero and one. -/
theorem fading_nonneg (hlow : 0 ≤ k) (hhigh : k ≤ 1) (index place : Nat) :
    0 ≤ fading k index place := by
  have hrest : 0 ≤ 1 - k := sub_nonneg.2 hhigh
  cases place with
  | zero => exact pow_nonneg hrest index
  | succ place => exact mul_nonneg hlow (pow_nonneg hrest _)

/-- A further value takes the share `k` and leaves the share `1 - k` to the values before it. -/
theorem fading_succ {index place : Nat} (hplace : place ≤ index) :
    fading k (index + 1) place = (1 - k) * fading k index place := by
  cases place with
  | zero => exact pow_succ' _ _
  | succ place =>
    rw [fading, fading, Nat.succ_sub hplace, pow_succ']
    ring

/-- The present value has the factor as its weight. -/
theorem fading_self (index : Nat) : fading k (index + 1) (index + 1) = k := by
  rw [fading, Nat.sub_self, pow_zero, mul_one]

/-- The sum of the values up to an index with their weights there. -/
def fadingSum (k : ℚ) (values : List Rat) (index : Nat) : Rat :=
  ∑ place ∈ Finset.range (index + 1), fading k index place * values.getD place 0

/-- The weighted sum goes on from index to index just as the exponential average does. -/
theorem fadingSum_succ (values : List Rat) (index : Nat) :
    fadingSum k values (index + 1) =
      (values.getD (index + 1) 0 - fadingSum k values index) * k + fadingSum k values index := by
  have hfront : ∀ place ∈ Finset.range (index + 1),
      fading k (index + 1) place * values.getD place 0 =
        (1 - k) * (fading k index place * values.getD place 0) := by
    intro place hplace
    rw [fading_succ (Nat.le_of_lt_succ (Finset.mem_range.1 hplace)), mul_assoc]
  rw [fadingSum, Finset.sum_range_succ, Finset.sum_congr rfl hfront, ← Finset.mul_sum, ← fadingSum,
    fading_self]
  ring

/-- The weights come to one. -/
theorem sum_fading (index : Nat) : ∑ place ∈ Finset.range (index + 1), fading k index place = 1 := by
  induction index with
  | zero => rw [Finset.sum_range_one, fading, pow_zero]
  | succ index ih =>
    have hfront : ∀ place ∈ Finset.range (index + 1),
        fading k (index + 1) place = (1 - k) * fading k index place := fun place hplace =>
      fading_succ (Nat.le_of_lt_succ (Finset.mem_range.1 hplace))
    rw [Finset.sum_range_succ, Finset.sum_congr rfl hfront, ← Finset.mul_sum, ih, fading_self]
    ring

/-- The weighted sum lies between the least and the greatest of the values so far. -/
theorem liesWithin_fadingSum {values : List Rat} {index : Nat} (hlow : 0 ≤ k) (hhigh : k ≤ 1)
    (hindex : index < values.length) :
    LiesWithin (values.take (index + 1)) (fadingSum k values index) := by
  have hlength : (values.take (index + 1)).length = index + 1 :=
    List.length_take_of_le hindex
  have hne : values.take (index + 1) ≠ [] := List.ne_nil_of_length_pos (by omega)
  have hsum : fadingSum k values index = ∑ place ∈ Finset.range (values.take (index + 1)).length,
      fading k index place * (values.take (index + 1)).getD place 0 := by
    rw [hlength, fadingSum]
    apply Finset.sum_congr rfl
    intro place hplace
    rw [List.getD_eq_getElem?_getD, List.getD_eq_getElem?_getD,
      List.getElem?_take_of_lt (Finset.mem_range.1 hplace)]
  rw [hsum]
  refine liesWithin_of_weights hne (fun place _ => fading_nonneg hlow hhigh index place) ?_
  rw [hlength, sum_fading]

/-- Each average is the one before, pulled towards its own value. -/
theorem getElem?_smoothed_succ {k average : Rat} {values : List Rat} {index : Nat} {previous : Rat}
    (hprevious : (average :: smoothed k average values)[index]? = some previous)
    (hindex : index < values.length) :
    (smoothed k average values)[index]? = some ((values[index] - previous) * k + previous) := by
  induction values generalizing average index with
  | nil => exact absurd hindex (Nat.not_lt_zero index)
  | cons value rest ih =>
    rw [smoothed]
    cases index with
    | zero =>
      cases hprevious
      rfl
    | succ index =>
      rw [smoothed, List.getElem?_cons_succ] at hprevious
      rw [List.getElem?_cons_succ, List.getElem_cons_succ]
      exact ih hprevious (Nat.lt_of_succ_lt_succ hindex)

/-- The exponential average is the weighted sum of all values so far. -/
theorem getElem?_averages {values : List Rat} {index : Nat} (hindex : index < values.length) :
    (averages k values)[index]? = some (fadingSum k values index) := by
  obtain ⟨first, rest, rfl⟩ := List.exists_cons_of_length_pos (Nat.zero_lt_of_lt hindex)
  induction index with
  | zero =>
    rw [averages, List.getElem?_cons_zero, fadingSum, Finset.sum_range_one, fading, pow_zero,
      one_mul, List.getD_cons_zero]
  | succ index ih =>
    rw [averages, List.getElem?_cons_succ,
      getElem?_smoothed_succ (ih (Nat.lt_of_succ_lt hindex)) (Nat.lt_of_succ_lt_succ hindex),
      fadingSum_succ, List.getD_cons_succ, List.getD_eq_getElem _ _ (Nat.lt_of_succ_lt_succ hindex)]

/-- The first value apart from the later ones. -/
theorem fadingSum_eq (values : List Rat) (index : Nat) :
    fadingSum k values index = (1 - k) ^ index * values.getD 0 0 +
      ∑ j ∈ Finset.Icc 1 index, k * (1 - k) ^ (index - j) * values.getD j 0 := by
  have hlater : ∑ j ∈ Finset.Icc 1 index, k * (1 - k) ^ (index - j) * values.getD j 0 =
      ∑ place ∈ Finset.range index, fading k index (place + 1) * values.getD (place + 1) 0 := by
    rw [← Finset.Ico_add_one_right_eq_Icc, Finset.sum_Ico_eq_sum_range, Nat.add_sub_cancel]
    simp only [fading, Nat.add_comm 1]
  rw [fadingSum, Finset.sum_range_succ', ← hlater, fading, add_comm]

end Exponential

theorem window_ne_nil {period index : Nat} {values : List Rat} (hperiod : 0 < period)
    (hfull : period ≤ index + 1) (hindex : index < values.length) :
    window period index values ≠ [] :=
  List.ne_nil_of_length_pos (by rw [length_window hfull hindex]; exact hperiod)

/-- The share by which an exponential average follows its values. -/
theorem share_mem {period : Nat} (hperiod : 0 < period) :
    0 ≤ 2 / ((period : ℚ) + 1) ∧ 2 / ((period : ℚ) + 1) ≤ 1 := by
  have hone : (1 : ℚ) ≤ period := by exact_mod_cast hperiod
  refine ⟨by positivity, ?_⟩
  rw [div_le_one (by positivity)]
  linarith

/-- The exponential average of a period is the weighted sum with the factor of that period. -/
theorem getElem?_ema {period index : Nat} {values : List Rat} (hperiod : 0 < period)
    (hindex : index < values.length) :
    (ema values period)[index]? = some (some (fadingSum (2 / ((period : Rat) + 1)) values index)) := by
  have hshare : (whole 2 / (whole period + whole 1) : Rat) = 2 / ((period : Rat) + 1) := by
    change ((2 : Nat) : Rat) / ((period : Rat) + ((1 : Nat) : Rat)) = _
    push_cast
    rfl
  rw [ema_eq_averages hperiod, hshare, List.getElem?_map, getElem?_averages hindex, Option.map_some]

/-- The plain and the weighted average over the exact rationals are defined from the first full window
    on, and lie between the least and the greatest value of the window. The exponential average with
    the share `k = 2 / (n + 1)` is defined everywhere, is the sum of all values up to its index with
    the weight `(1 - k) ^ i` on the first one and `k * (1 - k) ^ (i - j)` on each later one, and lies
    between the least and the greatest of them. -/
theorem averages_lie_within {period index : Nat} {values : List Rat} (hperiod : 0 < period)
    (hindex : index < values.length) :
    (∃ entry, (sma values period)[index]? = some entry ∧ (entry.isSome ↔ period ≤ index + 1) ∧
      ∀ average ∈ entry, LiesWithin (window period index values) average) ∧
    (∃ entry, (wma values period)[index]? = some entry ∧ (entry.isSome ↔ period ≤ index + 1) ∧
      ∀ average ∈ entry, LiesWithin (window period index values) average) ∧
    let k : Rat := 2 / ((period : Rat) + 1)
    ∃ average : Rat, (ema values period)[index]? = some (some average) ∧
      average = (1 - k) ^ index * values.getD 0 0 +
        ∑ j ∈ Finset.Icc 1 index, k * (1 - k) ^ (index - j) * values.getD j 0 ∧
      LiesWithin (values.take (index + 1)) average := by
  refine ⟨?plain, ?weighted, ?exponential⟩
  case plain =>
    refine ⟨_, getElem?_overWindows period _ hindex, ?_⟩
    by_cases hfull : period ≤ index + 1
    · have hmean := liesWithin_mean (window_ne_nil hperiod hfull hindex)
      rw [length_window hfull hindex] at hmean
      rw [if_pos ⟨hperiod, hfull⟩]
      exact ⟨by simpa using hfull, fun average haverage => Option.mem_some_iff.1 haverage ▸ hmean⟩
    · rw [if_neg fun h => hfull h.2]
      exact ⟨by simpa using hfull, nofun⟩
  case weighted =>
    refine ⟨_, getElem?_wma hperiod hindex, ?_⟩
    by_cases hfull : period ≤ index + 1
    · have hmean := liesWithin_weightedSum (window_ne_nil hperiod hfull hindex)
      rw [length_window hfull hindex] at hmean
      rw [if_neg (Nat.not_lt.2 hfull)]
      exact ⟨by simpa using hfull, fun average haverage => Option.mem_some_iff.1 haverage ▸ hmean⟩
    · rw [if_pos (Nat.not_le.1 hfull)]
      exact ⟨by simpa using hfull, nofun⟩
  case exponential =>
    obtain ⟨hlow, hhigh⟩ := share_mem hperiod
    exact ⟨_, getElem?_ema hperiod hindex, fadingSum_eq values index,
      liesWithin_fadingSum hlow hhigh hindex⟩

/-- The average with the share `2 / 3` at the last of three values. -/
theorem averages_lie_within_third :
    0 < 2 ∧ 2 < [(8 : Rat), 2, 5].length ∧
      (ema [(8 : Rat), 2, 5] 2)[2]? = some (some (14 / 3)) ∧ LiesWithin [8, 2, 5] (14 / 3) := by
  have hperiod : 0 < 2 := Nat.two_pos
  have hindex : 2 < [(8 : Rat), 2, 5].length := Nat.lt_succ_self 2
  obtain ⟨-, -, average, hentry, haverage, hwithin⟩ := averages_lie_within hperiod hindex
  have hvalue : average = 14 / 3 := by
    rw [haverage]
    norm_num [Finset.sum_Icc_succ_top]
  rw [hvalue] at hentry hwithin
  exact ⟨hperiod, hindex, hentry, hwithin⟩

end Candlewick.Indicator
