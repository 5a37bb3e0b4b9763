import Candlewick.Decimal.Binary
import Mathlib

open Float.Model (Format UnpackedFloat)

namespace Candlewick.Decimal

namespace Binary

/-- The magnitudes as floats hold them: a significand has its leading bit, unless the exponent is the
    least one. -/
structure IsCanonical (b : Binary) : Prop where
  significand_lt : b.significand < 2 * leadingBit
  least_le : leastExponent ≤ b.exponent
  leading : leastExponent < b.exponent → leadingBit ≤ b.significand

instance (b : Binary) : Decidable b.IsCanonical :=
  decidable_of_iff (b.significand < 2 * leadingBit ∧ leastExponent ≤ b.exponent ∧
      (leastExponent < b.exponent → leadingBit ≤ b.significand))
    ⟨fun h => ⟨h.1, h.2.1, h.2.2⟩, fun h => ⟨h.significand_lt, h.least_le, h.leading⟩⟩

theorem leadingBit_eq : leadingBit = 2 ^ 52 :=
  rfl

/-- The two forms of a float: with an exponent of zeros there is no leading bit. -/
theorem ofFloat_cases (x : Float) :
    (x.toBits.toNat / 2 ^ 52 % 2 ^ 11 = 0 ∧
      ofFloat x = ⟨x.toBits.toNat % 2 ^ 52, leastExponent⟩) ∨
    (x.toBits.toNat / 2 ^ 52 % 2 ^ 11 ≠ 0 ∧
      ofFloat x = ⟨2 ^ 52 + x.toBits.toNat % 2 ^ 52,
        (x.toBits.toNat / 2 ^ 52 % 2 ^ 11 : ℕ) - 1075⟩) := by
  have hforms : ofFloat x =
      if x.toBits.toNat / 2 ^ 52 % 2 ^ 11 = 0 then ⟨x.toBits.toNat % 2 ^ 52, leastExponent⟩
      else ⟨2 ^ 52 + x.toBits.toNat % 2 ^ 52, (x.toBits.toNat / 2 ^ 52 % 2 ^ 11 : ℕ) - 1075⟩ := rfl
  rw [hforms]
  split
  · exact .inl ⟨by assumption, rfl⟩
  · exact .inr ⟨by assumption, rfl⟩

/-- The magnitude of every float is in normal form: its leading bit is set unless its exponent is
    the least one. -/
theorem isCanonical_ofFloat (x : Float) : (ofFloat x).IsCanonical := by
  have hfraction := Nat.mod_lt x.toBits.toNat (show 2 ^ 52 > 0 by decide)
  obtain ⟨-, heq⟩ | ⟨hbiased, heq⟩ := ofFloat_cases x
  · rw [heq]
    exact ⟨by simp only [leadingBit_eq]; omega, le_rfl, fun h => absurd h (lt_irrefl _)⟩
  · rw [heq]
    refine ⟨by simp only [leadingBit_eq]; omega, ?_, fun _ => Nat.le_add_right _ _⟩
    simp only [leastExponent]
    omega

/-- The exponent field is cut out of the word of a float by division with remainder. -/
theorem toNat_unpackExponent (x : Float) :
    (@UnpackedFloat.unpackExponent .binary64 x.toBits.toBitVec).toNat =
      x.toBits.toNat / 2 ^ 52 % 2 ^ 11 := by
  simp [UnpackedFloat.unpackExponent, Nat.shiftRight_eq_div_pow]

/-- The mantissa field is the end of the word of a float. -/
theorem toNat_unpackMantissa (x : Float) :
    (@UnpackedFloat.unpackMantissa .binary64 x.toBits.toBitVec).toNat =
      x.toBits.toNat % 2 ^ 52 := by
  simp [UnpackedFloat.unpackMantissa]

/-- Only a float that is infinite or no number has an exponent of ones. -/
theorem exponent_ofFloat_le {x : Float} (hx : x.isFinite = true) : (ofFloat x).exponent ≤ 971 := by
  have hones : x.toBits.toNat / 2 ^ 52 % 2 ^ 11 ≠ 2047 := fun hones => by
    change (UnpackedFloat.unpack .binary64 x.toBits.toBitVec).isFinite = true at hx
    unfold UnpackedFloat.unpack at hx
    have hexponent : @UnpackedFloat.unpackExponent .binary64 x.toBits.toBitVec = -1#11 :=
      BitVec.eq_of_toNat_eq ((toNat_unpackExponent x).trans hones)
    simp only at hx
    rw [if_pos hexponent] at hx
    split at hx <;> cases hx
  obtain ⟨-, heq⟩ | ⟨-, heq⟩ := ofFloat_cases x
  · rw [heq]
    exact (show leastExponent ≤ 971 by decide)
  · rw [heq]
    simp only
    omega

/-- A magnitude in normal form is packed as it is. -/
theorem toFloat_of_isCanonical {b : Binary} (negative : Bool) (hb : b.IsCanonical) :
    b.toFloat negative = Float.ofBits (UInt64.ofNat ((if negative then 2 ^ 63 else 0) +
      if b.significand < 2 ^ 52 then b.significand
      else (b.exponent + 1075).toNat * 2 ^ 52 + (b.significand - 2 ^ 52))) := by
  have hroom : min (52 - b.significand.log2) (b.exponent - leastExponent).toNat = 0 := by
    rcases hb.least_le.eq_or_lt with heq | hlt
    · simp [heq]
    · have hleading := hb.leading hlt
      have hlog : 52 ≤ b.significand.log2 :=
        (Nat.le_log2 (by simp only [leadingBit_eq] at hleading; omega)).2 hleading
      omega
  unfold toFloat
  simp only [hroom, Nat.pow_eq, pow_zero, mul_one, Nat.cast_zero, sub_zero, leadingBit_eq]

/-- A float is made of its sign and its magnitude. -/
theorem toFloat_ofFloat (x : Float) : (ofFloat x).toFloat (isNegative x) = x := by
  have hlt : x.toBits.toNat < 2 ^ 64 := x.toBits.toNat_lt
  have hnegative : (if isNegative x then 2 ^ 63 else 0) = x.toBits.toNat / 2 ^ 63 * 2 ^ 63 := by
    simp only [isNegative, Nat.pow_eq, beq_iff_eq]
    split <;> omega
  rw [toFloat_of_isCanonical _ (isCanonical_ofFloat x), hnegative]
  suffices hmagnitude : (if (ofFloat x).significand < 2 ^ 52 then (ofFloat x).significand
      else ((ofFloat x).exponent + 1075).toNat * 2 ^ 52 + ((ofFloat x).significand - 2 ^ 52)) =
        x.toBits.toNat % 2 ^ 63 by
    rw [hmagnitude, Nat.div_add_mod', UInt64.ofNat_toNat, Float.ofBits_toBits]
  obtain ⟨hbiased, heq⟩ | ⟨hbiased, heq⟩ := ofFloat_cases x
  · rw [heq, if_pos (Nat.mod_lt _ (by decide))]
    simp only
    omega
  · rw [heq, if_neg (by simp only; omega)]
    simp only
    omega

/-- What unpacks to zero has neither an exponent nor a fraction. -/
theorem parts_of_unpack_eq_zero {x : Float} {sign : UnpackedFloat.Sign}
    (hzero : UnpackedFloat.unpack .binary64 x.toBits.toBitVec = .zero sign) :
    x.toBits.toNat / 2 ^ 52 % 2 ^ 11 = 0 ∧ x.toBits.toNat % 2 ^ 52 = 0 := by
  rw [← toNat_unpackExponent, ← toNat_unpackMantissa]
  unfold UnpackedFloat.unpack at hzero
  simp only at hzero
  split at hzero
  · split at hzero <;> cases hzero
  split at hzero
  · rename_i hexponent
    split at hzero
    · rename_i hmantissa
      exact ⟨congrArg BitVec.toNat hexponent, congrArg BitVec.toNat hmantissa⟩
    · cases hzero
  · cases hzero

theorem unpack_of_beq_zero {x : Float} (hx : (x == 0) = true) :
    ∃ sign, UnpackedFloat.unpack .binary64 x.toBits.toBitVec = .zero sign := by
  change (UnpackedFloat.compare (UnpackedFloat.unpack .binary64 x.toBits.toBitVec)
    (.zero .positive) == some .eq) = true at hx
  revert hx
  cases UnpackedFloat.unpack .binary64 x.toBits.toBitVec with
  | zero sign => exact fun _ => ⟨sign, rfl⟩
  | notANumber => exact nofun
  | infinity sign => cases sign <;> exact nofun
  | finite sign => cases sign <;> exact nofun

/-- Only the two zeros have no magnitude. -/
theorem significand_ofFloat_eq_zero_iff {x : Float} :
    (ofFloat x).significand = 0 ↔ (x == 0) = true := by
  constructor
  · intro hzero
    have hbits : x.toBits.toNat % 2 ^ 63 = 0 := by
      obtain ⟨hbiased, heq⟩ | ⟨-, heq⟩ := ofFloat_cases x <;>
        · rw [heq] at hzero
          simp only at hzero
          omega
    have hlt : x.toBits.toNat < 2 ^ 64 := x.toBits.toNat_lt
    have hx : x = Float.ofBits (UInt64.ofNat x.toBits.toNat) := by
      rw [UInt64.ofNat_toNat, Float.ofBits_toBits]
    obtain hplus | hminus : x.toBits.toNat = 0 ∨ x.toBits.toNat = 2 ^ 63 := by omega
    · rw [hx, hplus]
      rfl
    · rw [hx, hminus]
      rfl
  · intro hx
    obtain ⟨sign, hzero⟩ := unpack_of_beq_zero hx
    obtain ⟨hbiased, hfraction⟩ := parts_of_unpack_eq_zero hzero
    obtain ⟨-, heq⟩ | ⟨hne, -⟩ := ofFloat_cases x
    · rw [heq]
      exact hfraction
    · exact absurd hbiased hne

end Binary

end Candlewick.Decimal
