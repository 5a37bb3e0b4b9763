import Candlewick.Decimal.Shortest
import Candlewick.Proofs.Decimal.Binary

namespace Candlewick.Decimal

/-- The number that a decimal stands for. -/
def Digits.value (d : Digits) : ℚ :=
  d.digits * 10 ^ d.exponent

namespace Binary

variable {b b' : Binary} {v : ℚ}

/-- Four times the lower end of the interval. -/
def lower (b : Binary) : ℚ :=
  (4 * b.significand - (if b.narrowBelow then 1 else 2) : ℕ) * 2 ^ b.exponent

/-- Four times the upper end of the interval. -/
def upper (b : Binary) : ℚ :=
  (4 * b.significand + 2 : ℕ) * 2 ^ b.exponent

/-- A number lies in the interval. Both ends belong to it when the significand is even. -/
structure Covers (b : Binary) (v : ℚ) : Prop where
  lower_le : b.lower ≤ 4 * v
  le_upper : 4 * v ≤ b.upper
  inside : b.significand % 2 = 1 → b.lower < 4 * v ∧ 4 * v < b.upper

/-- The ends of the interval as they are compared, over a common denominator. -/
theorem ratio_eq (b : Binary) (grid : Int) :
    ∃ scale : ℚ, 0 < scale ∧ ((b.ratio grid).1 : ℚ) = 2 ^ b.exponent * scale ∧
      ((b.ratio grid).2 : ℚ) = 10 ^ grid * scale := by
  have htwo : (2 : ℚ) ^ b.exponent.toNat = 2 ^ b.exponent * 2 ^ (-b.exponent).toNat := by
    rw [← zpow_natCast, ← zpow_natCast, ← zpow_add₀ (by norm_num)]
    congr 1
    omega
  have hten : (10 : ℚ) ^ grid.toNat = 10 ^ grid * 10 ^ (-grid).toNat := by
    rw [← zpow_natCast, ← zpow_natCast, ← zpow_add₀ (by norm_num)]
    congr 1
    omega
  refine ⟨2 ^ (-b.exponent).toNat * 10 ^ (-grid).toNat, by positivity, ?_, ?_⟩
  · simp only [ratio, Nat.pow_eq, Nat.cast_mul, Nat.cast_pow, Nat.cast_ofNat]
    rw [htwo, mul_assoc]
  · simp only [ratio, Nat.pow_eq, Nat.cast_mul, Nat.cast_pow, Nat.cast_ofNat]
    rw [hten]
    ring

/-- A comparison over the common denominator is one of the numbers themselves. -/
theorem mul_ratio_le_iff (b : Binary) (grid : Int) (d c : Nat) :
    (c * (b.ratio grid).1 ≤ 4 * d * (b.ratio grid).2 ↔
      (c : ℚ) * 2 ^ b.exponent ≤ 4 * Digits.value ⟨d, grid⟩) ∧
    (4 * d * (b.ratio grid).2 ≤ c * (b.ratio grid).1 ↔
      4 * Digits.value ⟨d, grid⟩ ≤ (c : ℚ) * 2 ^ b.exponent) := by
  obtain ⟨scale, hscale, hnumerator, hdenominator⟩ := b.ratio_eq grid
  have hleft : ((c * (b.ratio grid).1 : ℕ) : ℚ) = c * 2 ^ b.exponent * scale := by
    rw [Nat.cast_mul, hnumerator, mul_assoc]
  have hright : ((4 * d * (b.ratio grid).2 : ℕ) : ℚ) = 4 * Digits.value ⟨d, grid⟩ * scale := by
    rw [Nat.cast_mul, hdenominator, Digits.value]
    push_cast
    ring
  constructor
  · rw [← Nat.cast_le (α := ℚ), hleft, hright, mul_le_mul_iff_of_pos_right hscale]
  · rw [← Nat.cast_le (α := ℚ), hleft, hright, mul_le_mul_iff_of_pos_right hscale]

/-- The check of the shortest decimal is membership in the interval. -/
theorem readsBack_iff {grid : Int} {d : Nat} :
    b.readsBack grid d = true ↔ b.Covers (Digits.value ⟨d, grid⟩) := by
  have hlower := mul_ratio_le_iff b grid d (4 * b.significand - if b.narrowBelow then 1 else 2)
  have hupper := mul_ratio_le_iff b grid d (4 * b.significand + 2)
  simp only [← lower.eq_def, ← upper.eq_def] at hlower hupper
  unfold readsBack
  simp only [beq_iff_eq]
  split
  · rw [decide_eq_true_iff, hlower.1, hupper.2]
    exact ⟨fun h => ⟨h.1, h.2, by omega⟩, fun h => ⟨h.lower_le, h.le_upper⟩⟩
  · rw [decide_eq_true_iff, ← not_le, ← not_le, hlower.2, hupper.1, not_le, not_le]
    exact ⟨fun h => ⟨h.1.le, h.2.le, fun _ => h⟩, fun h => h.inside (by omega)⟩

/-- The intervals of two magnitudes follow each other: at most they share an end, and then it does
    not belong to one of them. -/
theorem upper_le_lower (hb : b.IsCanonical) (hb' : b'.IsCanonical)
    (hlt : b.exponent < b'.exponent ∨
      b.exponent = b'.exponent ∧ b.significand < b'.significand) :
    b.upper < b'.lower ∨
      b.upper = b'.lower ∧ (b.significand % 2 = 1 ∨ b'.significand % 2 = 1) := by
  have hpos : (0 : ℚ) < 2 ^ b.exponent := by positivity
  obtain ⟨shift, hshift⟩ : ∃ shift : Nat, b'.exponent = b.exponent + shift :=
    ⟨(b'.exponent - b.exponent).toNat, by omega⟩
  have hlower : b'.lower =
      ((4 * b'.significand - (if b'.narrowBelow then 1 else 2)) * 2 ^ shift : ℕ) *
        2 ^ b.exponent := by
    rw [lower, hshift, zpow_add₀ (by norm_num), zpow_natCast]
    push_cast
    ring
  rw [hlower, upper, mul_lt_mul_iff_of_pos_right hpos, mul_left_inj' hpos.ne', Nat.cast_lt,
    Nat.cast_inj]
  have hsignificand := hb.significand_lt
  rcases hlt with hexponent | ⟨hexponent, hsignificands⟩
  · -- a step in the exponent doubles what lies above the leading bit
    have htwo : 2 ≤ 2 ^ shift := Nat.le_self_pow (by omega) 2
    have hleast := hb.least_le
    have hleading := hb'.leading (by omega)
    have hnarrow : b'.significand = leadingBit → b'.narrowBelow = true := fun heq => by
      simp only [narrowBelow, heq, beq_self_eq_true, Bool.true_and, decide_eq_true_eq]
      omega
    have hmul := Nat.mul_le_mul_left
      (4 * b'.significand - (if b'.narrowBelow then 1 else 2)) htwo
    have hbit := leadingBit_eq
    rcases hleading.eq_or_lt with heq | hgt
    · rw [hnarrow heq.symm, if_pos rfl] at hmul ⊢
      omega
    · by_cases hbelow : b'.narrowBelow = true
      · rw [if_pos hbelow] at hmul ⊢
        omega
      · rw [if_neg hbelow] at hmul ⊢
        omega
  · obtain rfl : shift = 0 := by omega
    rw [pow_zero, mul_one]
    split <;> omega

/-- No number rounds to two floats. -/
theorem Covers.unique (hb : b.IsCanonical) (hb' : b'.IsCanonical) (hv : b.Covers v)
    (hv' : b'.Covers v) : b = b' := by
  have happart : ∀ {b b' : Binary}, b.IsCanonical → b'.IsCanonical → b.Covers v → b'.Covers v →
      ¬ (b.exponent < b'.exponent ∨
        b.exponent = b'.exponent ∧ b.significand < b'.significand) := by
    intro b b' hb hb' hv hv' hlt
    have hends := hv'.lower_le.trans hv.le_upper
    rcases upper_le_lower hb hb' hlt with hgap | ⟨htouch, hodd | hodd⟩
    · exact absurd hends hgap.not_ge
    · exact absurd hv'.lower_le (htouch ▸ (hv.inside hodd).2).not_ge
    · exact absurd hv.le_upper (htouch ▸ (hv'.inside hodd).1).not_ge
  have hbefore := happart hb hb' hv hv'
  have hbehind := happart hb' hb hv' hv
  obtain ⟨significand, exponent⟩ := b
  obtain ⟨significand', exponent'⟩ := b'
  simp only [mk.injEq] at *
  omega

end Binary

end Candlewick.Decimal
