import Candlewick.Proofs.Decimal.Represents
import Candlewick.Proofs.Indicator.Weighted

namespace Candlewick.Indicator

open Quantity Decimal

/-- A whole number of ticks of the size `2 ^ unit`, at most `bound` of them. -/
def IsTicks (unit : Int) (bound : Nat) (v : Rat) : Prop :=
  ∃ ticks : Int, ticks.natAbs ≤ bound ∧ v = ticks * 2 ^ unit

namespace IsTicks

variable {unit : Int} {bound bound' : Nat} {v v' : Rat}

theorem mono (h : IsTicks unit bound v) (hle : bound ≤ bound') : IsTicks unit bound' v := by
  obtain ⟨ticks, hticks, rfl⟩ := h
  exact ⟨ticks, hticks.trans hle, rfl⟩

theorem zero (unit : Int) : IsTicks unit 0 0 :=
  ⟨0, le_rfl, by rw [Int.cast_zero, zero_mul]⟩

/-- The ticks of a sum are at most those of its parts together. -/
theorem add (h : IsTicks unit bound v) (h' : IsTicks unit bound' v') :
    IsTicks unit (bound + bound') (v + v') := by
  obtain ⟨ticks, hticks, rfl⟩ := h
  obtain ⟨ticks', hticks', rfl⟩ := h'
  exact ⟨ticks + ticks', by omega, by rw [Int.cast_add, add_mul]⟩

theorem sub (h : IsTicks unit bound v) (h' : IsTicks unit bound' v') :
    IsTicks unit (bound + bound') (v - v') := by
  obtain ⟨ticks, hticks, rfl⟩ := h
  obtain ⟨ticks', hticks', rfl⟩ := h'
  exact ⟨ticks - ticks', by omega, by rw [Int.cast_sub, sub_mul]⟩

theorem mul (h : IsTicks unit bound v) (n : Nat) : IsTicks unit (n * bound) ((n : Rat) * v) := by
  obtain ⟨ticks, hticks, rfl⟩ := h
  refine ⟨n * ticks, ?_, ?_⟩
  · rw [Int.natAbs_mul, Int.natAbs_natCast]
    exact Nat.mul_le_mul_left n hticks
  · rw [Int.cast_mul, Int.cast_natCast, mul_assoc]

/-- A window has at most as many times the ticks of its values as it has values. -/
theorem sum {window : List Rat} (h : ∀ v ∈ window, IsTicks unit bound v) :
    IsTicks unit (window.length * bound) window.sum := by
  induction window with
  | nil =>
    rw [List.length_nil, Nat.zero_mul, List.sum_nil]
    exact zero unit
  | cons v rest ih =>
    obtain ⟨hv, hrest⟩ := List.forall_mem_cons.1 h
    rw [List.length_cons, List.sum_cons, Nat.add_mul, Nat.one_mul, Nat.add_comm]
    exact hv.add (ih hrest)

/-- No weight is above the length of the window. -/
theorem weightedSum {window : List Rat} (h : ∀ v ∈ window, IsTicks unit bound v) :
    IsTicks unit (window.length * window.length * bound) (weightedSum window) := by
  induction window using List.reverseRecOn with
  | nil =>
    rw [List.length_nil, Nat.mul_zero, Nat.zero_mul]
    exact zero unit
  | append_singleton front v ih =>
    obtain ⟨hfront, hv⟩ := List.forall_mem_append.1 h
    have hlast := (hv v (List.mem_singleton_self v)).mul (front.length + 1)
    rw [weightedSum_append_singleton, List.length_append, List.length_singleton]
    push_cast at hlast
    refine ((ih hfront).add hlast).mono ?_
    rw [← Nat.add_mul]
    apply Nat.mul_le_mul_right
    nlinarith

end IsTicks

/-- Ticks of a size that floats have, and a number of them that leaves room for the weighted sums of
    `period` values. -/
structure Grid (period : Nat) where
  unit : Int
  bound : Nat
  least_le : -1074 ≤ unit
  le_greatest : unit ≤ 971
  bound_pos : 0 < bound
  room : period * (period + 1) * bound < 2 ^ 53

namespace Grid

variable {period : Nat} (grid : Grid period)

/-- A float on the grid. -/
structure Contains (x : Float) : Prop where
  isFinite : x.isFinite = true
  isTicks : IsTicks grid.unit grid.bound (toRat x)

/-- A float can stand for every number of ticks that comes up in a window of the period. -/
theorem representable {n : Nat} {v : Rat} (h : IsTicks grid.unit (n * grid.bound) v)
    (hn : n ≤ period * (period + 1)) : Representable v := by
  obtain ⟨ticks, hticks, rfl⟩ := h
  have hroom := Nat.mul_le_mul_right grid.bound hn
  exact representable_mul_two_pow (hticks.trans_lt (hroom.trans_lt grid.room)) grid.least_le
    grid.le_greatest

section Windows

variable {window : List Rat} (hwindow : ∀ v ∈ window, IsTicks grid.unit grid.bound v)
  (hlength : window.length ≤ period)
include hwindow hlength

/-- A float can stand for the weighted sum of a window. -/
theorem representable_weighted : Representable (WeightedSums.ofWindow window).weighted :=
  grid.representable (.weightedSum hwindow)
    (Nat.mul_le_mul hlength (Nat.le_succ_of_le hlength))

theorem isTicks_plain : IsTicks grid.unit (period * grid.bound) (WeightedSums.ofWindow window).plain :=
  (IsTicks.sum hwindow).mono (Nat.mul_le_mul_right _ hlength)

/-- A float can stand for the plain sum of a window. -/
theorem representable_plain : Representable (WeightedSums.ofWindow window).plain :=
  grid.representable (grid.isTicks_plain hwindow hlength)
    (Nat.le_mul_of_pos_right _ (Nat.succ_pos _))

end Windows

theorem forall_mem_concat {window : List Rat} {value : Float}
    (hwindow : ∀ v ∈ window, IsTicks grid.unit grid.bound v) (hvalue : grid.Contains value) :
    ∀ v ∈ window ++ [toRat value], IsTicks grid.unit grid.bound v :=
  List.forall_mem_append.2 ⟨hwindow, fun _ hv => List.mem_singleton.1 hv ▸ hvalue.isTicks⟩

/-- Whole prices are ticks of the size one. -/
theorem contains_ofNat {n : Nat} (hunit : grid.unit = 0) (hbound : n ≤ grid.bound)
    (hn : n < 2 ^ 53) : grid.Contains (Float.ofNat n) := by
  have hrepresents := represents_ofNat hn
  refine ⟨hrepresents.isFinite, n, hbound, ?_⟩
  rw [hrepresents.toRat_eq, hunit, zpow_zero, mul_one, Int.cast_natCast]

include grid in
/-- The period itself is a whole number that a float can stand for. -/
theorem period_lt : period < 2 ^ 53 :=
  calc period ≤ period * (period + 1) := Nat.le_mul_of_pos_right _ (Nat.succ_pos _)
    _ ≤ period * (period + 1) * grid.bound := Nat.le_mul_of_pos_right _ grid.bound_pos
    _ < 2 ^ 53 := grid.room

end Grid

end Candlewick.Indicator
