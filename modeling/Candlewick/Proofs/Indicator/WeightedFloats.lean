import Candlewick.Proofs.Decimal.Infinite
import Candlewick.Proofs.Indicator.Ticks

namespace Candlewick.Indicator

open Quantity Decimal

/-- Running sums that are those of exact arithmetic. -/
structure Tracks (sums : WeightedSums Float) (exact : WeightedSums Rat) : Prop where
  weighted : Represents sums.weighted exact.weighted
  isPlain : IsPlain sums.weighted
  plain : Represents sums.plain exact.plain

section Steps

variable {period : Nat} {grid : Grid period} {sums : WeightedSums Float} {window : List Rat}
  {value : Float}

/-- A value that fills the window. -/
theorem Tracks.fill (h : Tracks sums (.ofWindow window))
    (hwindow : ∀ v ∈ window, IsTicks grid.unit grid.bound v) (hvalue : grid.Contains value)
    (hlength : window.length < period) :
    Tracks (sums.fill (window.length + 1) value) (.ofWindow (window ++ [toRat value])) := by
  have hvalues := grid.forall_mem_concat hwindow hvalue
  have hplace : window.length + 1 ≤ period := hlength
  have hfull : (window ++ [toRat value]).length ≤ period := by
    rwa [List.length_append, List.length_singleton]
  have hrepresents := represents_toRat hvalue.isFinite
  have hproduct := (represents_ofNat (hplace.trans_lt grid.period_lt)).mul hrepresents
    (grid.representable (hvalue.isTicks.mul (window.length + 1))
      (hplace.trans (Nat.le_mul_of_pos_right _ (Nat.succ_pos _))))
  have hweighted := grid.representable_weighted hvalues hfull
  have hplain := grid.representable_plain hvalues hfull
  rw [← WeightedSums.fill_ofWindow] at hweighted hplain ⊢
  obtain ⟨hsum, hkept⟩ := h.weighted.add hproduct hweighted
  exact ⟨hsum, hkept h.isPlain, (h.plain.add hrepresents hplain).1⟩

/-- A value that takes the place of the oldest one of a full window. -/
theorem Tracks.slide {oldest : Float} (h : Tracks sums (.ofWindow (toRat oldest :: window)))
    (hwindow : ∀ v ∈ toRat oldest :: window, IsTicks grid.unit grid.bound v)
    (holdest : grid.Contains oldest) (hvalue : grid.Contains value)
    (hlength : window.length + 1 = period) :
    Tracks (sums.slide period oldest value) (.ofWindow (window ++ [toRat value])) := by
  have hvalues := grid.forall_mem_concat (List.forall_mem_cons.1 hwindow).2 hvalue
  have hfull : (window ++ [toRat value]).length ≤ period := by
    rw [List.length_append, List.length_singleton, hlength]
  have hrepresents := represents_toRat hvalue.isFinite
  have hpositive : 1 ≤ period := by omega
  have htwo : 2 ≤ period * (period + 1) := Nat.mul_le_mul hpositive (Nat.succ_le_succ hpositive)
  have htwice : period + period ≤ period * (period + 1) := by
    rw [← Nat.mul_two]
    exact Nat.mul_le_mul_left _ (Nat.succ_le_succ hpositive)
  have hproduct := (represents_ofNat grid.period_lt).mul hrepresents
    (grid.representable (hvalue.isTicks.mul period) (by omega))
  have hrise := (hvalue.isTicks.mul period).sub (grid.isTicks_plain hwindow hlength.le)
  have hchange := hvalue.isTicks.sub holdest.isTicks
  rw [← Nat.add_mul] at hrise
  rw [← Nat.two_mul] at hchange
  have hweighted := grid.representable_weighted hvalues hfull
  have hplain := grid.representable_plain hvalues hfull
  rw [← WeightedSums.slide_ofWindow (toRat oldest), hlength] at hweighted hplain ⊢
  obtain ⟨hsum, hkept⟩ := h.weighted.add
    (hproduct.sub h.plain (grid.representable hrise htwice)) hweighted
  exact ⟨hsum, hkept h.isPlain, (h.plain.add
    (hrepresents.sub (represents_toRat holdest.isFinite) (grid.representable hchange htwo)) hplain).1⟩

/-- One step of the running sums keeps them exact, whether the window is being filled or moves
    on. -/
theorem Tracks.next {values : List Float} {index : Nat}
    (h : Tracks sums (.ofWindow ((valuesBefore values period index).map toRat)))
    (hgrid : ∀ x ∈ values.take (index + 1), grid.Contains x) (hperiod : 0 < period)
    (hvalue : values[index]? = some value) :
    Tracks (sums.next period index (leavingAt values period index value) value)
      (.ofWindow ((valuesBefore values period (index + 1)).map toRat)) := by
  obtain ⟨shorter, rfl⟩ := Nat.exists_eq_add_one_of_ne_zero hperiod.ne'
  have hindex := (List.getElem?_eq_some_iff.1 hvalue).1
  rw [List.take_add_one, hvalue, Option.toList_some] at hgrid
  obtain ⟨hpast, hlast⟩ := List.forall_mem_append.1 hgrid
  have hcontains := hlast value (List.mem_singleton_self value)
  have hbefore (count : Nat) : ∀ x ∈ valuesBefore values count index, grid.Contains x :=
    fun x hx => hpast x (List.mem_of_mem_drop hx)
  have hticks (count : Nat) : ∀ v ∈ (valuesBefore values count index).map toRat,
      IsTicks grid.unit grid.bound v := by
    intro v hv
    obtain ⟨x, hx, rfl⟩ := List.mem_map.1 hv
    exact (hbefore count x hx).isTicks
  rw [valuesBefore_succ hvalue, List.map_append, List.map_singleton, WeightedSums.next]
  split
  · rename_i hfill
    have hlength : ((valuesBefore values shorter index).map toRat).length = index := by
      rw [List.length_map, length_valuesBefore hindex.le, min_eq_left (Nat.le_of_lt_succ hfill)]
    rw [valuesBefore_of_lt hfill] at h
    have hfilled := h.fill (hticks shorter) hcontains (by omega)
    rwa [hlength] at hfilled
  · rename_i hslide
    have hslid := Nat.le_of_not_lt hslide
    have hcons := valuesBefore_eq_cons hslid hindex value
    have hfull := hticks (shorter + 1)
    have holdest := hbefore (shorter + 1) (leavingAt values (shorter + 1) index value)
      (hcons ▸ List.mem_cons_self)
    rw [hcons, List.map_cons] at h hfull
    apply h.slide hfull holdest hcontains
    rw [List.length_map, length_valuesBefore hindex.le, min_eq_right (Nat.le_of_succ_le hslid)]

end Steps

/-- Running sums into which an infinity has come, or what is no number. -/
def Poisoned (sums : WeightedSums Float) : Prop :=
  ∃ sign, Lost sign sums.weighted ∧ Lost sign sums.plain

namespace Poisoned

variable {sums : WeightedSums Float} {period index : Nat} {leaving value : Float}

theorem isUnsigned_whole (n : Nat) : IsUnsigned (whole n : Float).toModel.unpack :=
  isUnsigned_scientific n false 0

/-- A value that is infinite or no number poisons the sums that it comes into. -/
theorem of_value (hvalue : value.isFinite = false) :
    Poisoned (sums.next period index leaving value) := by
  obtain ⟨sign, hlost⟩ := exists_lost hvalue
  have hproduct (n : Nat) : Lost sign (whole n * value) := hlost.mul (isUnsigned_whole n)
  rw [WeightedSums.next]
  split
  · exact ⟨sign, (hproduct _).add_right _, hlost.add_right _⟩
  · exact ⟨sign, ((hproduct _).sub_left _).add_right _, (hlost.sub_left _).add_right _⟩

/-- Poisoned sums stay poisoned, whatever comes in or leaves. -/
theorem next (h : Poisoned sums) : Poisoned (sums.next period index leaving value) := by
  obtain ⟨sign, hweighted, hplain⟩ := h
  rw [WeightedSums.next]
  split
  · exact ⟨sign, hweighted.add_left _, hplain.add_left _⟩
  · exact ⟨sign, hweighted.add_left _, hplain.add_left _⟩

/-- A full window takes the plain sum away from the weighted one: of two infinities nothing is left. -/
theorem isNaN_next (h : Poisoned sums) (hfull : period ≤ index) :
    (sums.next period index leaving value).weighted.isNaN = true := by
  obtain ⟨sign, hweighted, hplain⟩ := h
  rw [WeightedSums.next, if_neg (Nat.not_lt.2 hfull)]
  exact hweighted.isNaN_add (hplain.sub_right _)

end Poisoned

section Entries

variable {period index : Nat} {values : List Float}

/-- Prices up to an index that are whole numbers of ticks, few enough for a window of `period` of them. -/
def OnGrid (period index : Nat) (values : List Float) : Prop :=
  ∃ grid : Grid period, ∀ x ∈ values.take (index + 1), grid.Contains x

theorem tracks_zero : Tracks ⟨whole 0, whole 0⟩ (.ofWindow []) := by
  have hzero : Represents (Float.ofNat 0) 0 := by
    have hcast := represents_ofNat (n := 0) (by decide)
    rwa [Nat.cast_zero] at hcast
  exact ⟨hzero, nofun, hzero⟩

/-- On a grid the sum behind an entry is the exact one of the window. -/
theorem exists_sum_of_onGrid (hperiod : 0 < period) (hindex : index < values.length)
    (hfull : period ≤ index + 1) (hgrid : OnGrid period index values) :
    ∃ sum : Float, Represents sum (weightedSum ((window period index values).map toRat)) ∧
      IsPlain sum ∧ (wma values period)[index]? =
        some (some (sum / (whole period * (whole period + whole 1) / whole 2))) := by
  obtain ⟨grid, hcontains⟩ := hgrid
  let holds (count : Nat) (sums : WeightedSums Float) : Prop :=
    (∀ x ∈ values.take count, grid.Contains x) →
      Tracks sums (.ofWindow ((valuesBefore values period count).map toRat))
  have hstart : holds 0 ⟨whole 0, whole 0⟩ := by
    intro _
    rw [valuesBefore_zero, List.map_nil]
    exact tracks_zero
  have hnext : ∀ count sums value, values[count]? = some value → holds count sums →
      holds (count + 1) (sums.next period count (leavingAt values period count value) value) := by
    intro count sums value hvalue hsums hall
    have hpast : ∀ x ∈ values.take count, grid.Contains x :=
      fun x hx => hall x (List.take_subset_take_left values (Nat.le_succ count) hx)
    exact (hsums hpast).next hall hperiod hvalue
  obtain ⟨sums, htracks, hentry⟩ := exists_sums_wma holds hstart hnext hperiod hindex
  rw [if_pos hfull] at hentry
  have hsums := htracks hcontains
  rw [← window_eq_valuesBefore hfull] at hsums
  exact ⟨sums.weighted, hsums.weighted, hsums.isPlain, hentry⟩

/-- An infinity, or what is no number, in front of an index is in the running sums there. -/
theorem exists_isNaN_of_not_finite {old : Nat} {x : Float} (hperiod : 0 < period)
    (hindex : index < values.length) (hfull : period ≤ index) (hold : values[old]? = some x)
    (hx : x.isFinite = false) (hbefore : old < index) :
    ∃ average, (wma values period)[index]? = some (some average) ∧ average.isNaN = true := by
  let holds (count : Nat) (sums : WeightedSums Float) : Prop :=
    (old < count → Poisoned sums) ∧
      (old + 1 < count → period < count → sums.weighted.isNaN = true)
  have hstart : holds 0 ⟨whole 0, whole 0⟩ := ⟨nofun, nofun⟩
  have hnext : ∀ count sums value, values[count]? = some value → holds count sums →
      holds (count + 1) (sums.next period count (leavingAt values period count value) value) := by
    intro count sums value hvalue hsums
    obtain ⟨hpoisoned, -⟩ := hsums
    refine ⟨fun hlater => ?_, fun hlater hcount => ?_⟩
    · rcases Nat.lt_succ_iff_lt_or_eq.1 hlater with hearlier | rfl
      · exact (hpoisoned hearlier).next
      · rw [hold] at hvalue
        cases hvalue
        exact .of_value hx
    · exact (hpoisoned (Nat.lt_of_succ_lt_succ hlater)).isNaN_next (Nat.le_of_lt_succ hcount)
  obtain ⟨sums, ⟨-, hnan⟩, hentry⟩ := exists_sums_wma holds hstart hnext hperiod hindex
  rw [if_pos (Nat.le_succ_of_le hfull)] at hentry
  exact ⟨_, hentry, isNaN_div (hnan (Nat.succ_lt_succ hbefore) (Nat.lt_succ_of_le hfull)) _⟩

theorem window_one (hindex : index < values.length) : window 1 index values = [values[index]] := by
  rw [window, Nat.add_sub_cancel, List.drop_eq_getElem_cons hindex, List.take_succ_cons, List.take_zero]

theorem weightedSum_singleton (v : Rat) : weightedSum [v] = v := by
  have hsum := weightedSum_append_singleton [] v
  have hnil : weightedSum [] = 0 := rfl
  rwa [List.nil_append, hnil, List.length_nil, Nat.cast_zero, zero_add, zero_add, one_mul] at hsum

theorem mem_take_succ (hindex : index < values.length) : values[index] ∈ values.take (index + 1) := by
  rw [List.take_add_one, List.getElem?_eq_getElem hindex, Option.toList_some]
  exact List.mem_append_right _ (List.mem_singleton_self _)

/-- With the period one the divisor is one. -/
theorem divisor_one : (whole 1 * (whole 1 + whole 1) / whole 2 : Float) = 1 := by
  decide +kernel

/-- What the weighted average of floats reads. On prices that are whole numbers of ticks, few enough for
    the weighted sums of a window, an entry is the weighted sum of its window, without rounding, divided
    by the sum of the weights: so lists with the same window have the same entry, and with the period one
    each value is its own average. An infinity, or what is no number, is in every later entry at which
    a window has been full before, whether it has left the window or not. -/
theorem wma_of_window (hperiod : 0 < period) (hindex : index < values.length) :
    (period ≤ index + 1 → OnGrid period index values →
      (∃ sum : Float, Represents sum (weightedSum ((window period index values).map toRat)) ∧
        IsPlain sum ∧ (wma values period)[index]? =
          some (some (sum / (whole period * (whole period + whole 1) / whole 2)))) ∧
      (∀ values' : List Float, OnGrid period index values' → index < values'.length →
        window period index values = window period index values' →
        (wma values period)[index]? = (wma values' period)[index]?) ∧
      (period = 1 → ∃ average, (wma values period)[index]? = some (some average) ∧
        (average == values[index]) = true)) ∧
    (period ≤ index → ∀ old < index, ∀ x, values[old]? = some x → x.isFinite = false →
      ∃ average, (wma values period)[index]? = some (some average) ∧ average.isNaN = true) := by
  refine ⟨fun hfull hgrid => ?_, fun hfull old hold x hx hinfinite =>
    exists_isNaN_of_not_finite hperiod hindex hfull hx hinfinite hold⟩
  obtain ⟨sum, hsum, hplain, hentry⟩ := exists_sum_of_onGrid hperiod hindex hfull hgrid
  refine ⟨⟨sum, hsum, hplain, hentry⟩, ?_, ?_⟩
  · intro values' hgrid' hindex' hwindow
    obtain ⟨sum', hsum', hplain', hentry'⟩ := exists_sum_of_onGrid hperiod hindex' hfull hgrid'
    rw [← hwindow] at hsum'
    rw [hentry, hentry', hsum.unique hsum' hplain hplain']
  · rintro rfl
    obtain ⟨grid, hcontains⟩ := hgrid
    have hfinite := (hcontains _ (mem_take_succ hindex)).isFinite
    rw [window_one hindex, List.map_singleton, weightedSum_singleton] at hsum
    rw [divisor_one, float_div_one] at hentry
    exact ⟨sum, hentry, hsum.beq (represents_toRat hfinite)⟩

/-- The average over two prices, behind different first prices, and the average over one price, behind an
    infinity. -/
theorem wma_of_window_behind_first :
    0 < 2 ∧ OnGrid 2 2 [3, 5, 8] ∧ OnGrid 2 2 [7, 5, 8] ∧
      (wma [(3 : Float), 5, 8] 2)[2]? = (wma [(7 : Float), 5, 8] 2)[2]? ∧
      ∃ average, (wma [(1 / 0 : Float), 5, 8] 1)[2]? = some (some average) ∧ average.isNaN = true := by
  have hperiod : 0 < 2 := by decide
  let grid : Grid 2 := ⟨0, 8, by decide, by decide, by decide, by decide⟩
  have hthree : grid.Contains 3 := grid.contains_ofNat (n := 3) rfl (by decide) (by decide)
  have hfive : grid.Contains 5 := grid.contains_ofNat (n := 5) rfl (by decide) (by decide)
  have hseven : grid.Contains 7 := grid.contains_ofNat (n := 7) rfl (by decide) (by decide)
  have height : grid.Contains 8 := grid.contains_ofNat (n := 8) rfl (by decide) (by decide)
  have hgrid : OnGrid 2 2 [3, 5, 8] := ⟨grid, by simp [hthree, hfive, height]⟩
  have hgrid' : OnGrid 2 2 [7, 5, 8] := ⟨grid, by simp [hseven, hfive, height]⟩
  have hindex (x : Float) : 2 < [x, 5, 8].length := Nat.lt_succ_self 2
  obtain ⟨hsteady, -⟩ := wma_of_window hperiod (hindex 3)
  obtain ⟨-, hsame, -⟩ := hsteady (by decide) hgrid
  obtain ⟨-, hlost⟩ := wma_of_window Nat.one_pos (hindex (1 / 0))
  have hinfinite : (1 / 0 : Float).isFinite = false := by decide +kernel
  have hwindow (x : Float) : window 2 2 [x, 5, 8] = [5, 8] := rfl
  exact ⟨hperiod, hgrid, hgrid', hsame _ hgrid' (by decide) ((hwindow 3).trans (hwindow 7).symm),
    hlost (by decide) 0 (by decide) _ rfl hinfinite⟩

/-- A large price that has left the window is in the running sums all the same: what the next price adds
    to them is rounded away. -/
theorem wma_reads_before_window :
    ¬ ∀ (values values' : List Float) (period index : Nat), 0 < period → period ≤ index + 1 →
      index < values.length → index < values'.length →
      window period index values = window period index values' →
      (wma values period)[index]? = (wma values' period)[index]? := by
  intro hwindow
  have hlarge : (wma [(1e16 : Float), 1] 1)[1]? = some (some 0) := by decide +kernel
  have hsmall : (wma [(0 : Float), 1] 1)[1]? = some (some 1) := by decide +kernel
  have hlatest (x : Float) : window 1 1 [x, 1] = [1] := rfl
  have hsame := hwindow [1e16, 1] [0, 1] 1 1 (by decide) (by decide) (by decide) (by decide)
    ((hlatest 1e16).trans (hlatest 0).symm)
  rw [hlarge, hsmall] at hsame
  exact absurd hsame (by decide +kernel)

end Entries

end Candlewick.Indicator
