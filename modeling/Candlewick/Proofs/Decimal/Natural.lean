import Candlewick.Proofs.Decimal.Represents
import Candlewick.Proofs.Decimal.Whole

open Float.Model (UnpackedFloat)
open Float.Model.UnpackedFloat (ExtendedMantissa)

namespace Candlewick.Decimal

theorem ofMantissa_exact (mantissa : Nat) :
    ExtendedMantissa.ofMantissaAndAccuracy mantissa .exact = ⟨mantissa, false, false⟩ :=
  rfl

/-- Shifting makes no mantissa larger. -/
theorem mantissa_shiftRight_le (em : ExtendedMantissa) (shift : Nat) :
    (em >>> shift).mantissa ≤ em.mantissa := by
  change (shift.repeat ExtendedMantissa.shiftRightOne em).mantissa ≤ _
  induction shift with
  | zero => exact Nat.le_refl _
  | succ shift ih => exact (Nat.div_le_self _ 2).trans ih

/-- What stands for a natural number is rounded to it. -/
theorem roundToInt_of_value_eq {mantissa n : Nat} {exponent : Int}
    (hvalue : (mantissa : ℚ) * 2 ^ exponent = n) :
    UnpackedFloat.roundToInt .positive mantissa exponent = n := by
  rcases le_or_gt 0 exponent with hexponent | hexponent
  · obtain ⟨shift, rfl⟩ := Int.eq_ofNat_of_zero_le hexponent
    rw [zpow_natCast] at hvalue
    rw [roundToInt_of_nonneg hexponent, Int.toNat_natCast, Nat.shiftLeft_eq]
    exact_mod_cast hvalue
  · obtain ⟨shift, hshift⟩ : ∃ shift : Nat, exponent = 0 - shift :=
      ⟨(-exponent).toNat, by omega⟩
    subst hshift
    have hmantissa : mantissa = n * 2 ^ shift := by
      apply eq_mul_two_pow_of_value_eq 0
      rw [hvalue, zpow_zero, mul_one]
    have hnone : (0 - (shift : Int) - 0).toNat = 0 := by omega
    have hback : (0 - (0 - (shift : Int) - (0 : Nat))).toNat = shift := by omega
    simp only [UnpackedFloat.roundToInt, UnpackedFloat.decreaseExponent,
      UnpackedFloat.shiftToExponent, hnone, hback, Nat.shiftLeft_zero, hmantissa, ofMantissa_exact,
      shiftRight_mul_two_pow]
    rfl

/-- Without an exponent above zero nothing is rounded to more than the mantissa. -/
theorem roundToInt_le {exponent : Int} (hexponent : exponent ≤ 0) (mantissa : Nat) :
    (UnpackedFloat.roundToInt .positive mantissa exponent).toNat ≤ mantissa := by
  have hnone : (exponent - 0).toNat = 0 := by omega
  simp only [UnpackedFloat.roundToInt, UnpackedFloat.decreaseExponent,
    UnpackedFloat.shiftToExponent, hnone, Nat.shiftLeft_zero, ofMantissa_exact]
  exact mantissa_shiftRight_le ⟨mantissa, false, false⟩ _

variable {x y : Float}

/-- A positive number is cast to the number that it rounds to, or to the greatest word. -/
theorem toNat_toUInt64_of_unpack {mantissa : Nat} {exponent : Int} {hpos : 0 < mantissa}
    (hx : x.toModel.unpack = .finite .positive mantissa exponent hpos) :
    x.toUInt64.toNat =
      min (UnpackedFloat.roundToInt .positive mantissa exponent).toNat (2 ^ 64 - 1) := by
  have hword : x.toUInt64 = UInt64.ofNatClamp
      (UnpackedFloat.roundToInt .positive mantissa exponent).toNat := by
    change UnpackedFloat.toUInt64 x.toModel.unpack = _
    rw [hx, UnpackedFloat.toUInt64, UnpackedFloat.toInt]
  rw [hword, toNat_ofNatClamp]

/-- A float for a natural number is zero, or above zero with this number as its magnitude. -/
theorem Represents.natural_cases {n : Nat} (hx : Represents x n) :
    (n = 0 ∧ ∃ sign, x.toModel.unpack = .zero sign) ∨
      ∃ (mantissa : Nat) (exponent : Int) (hpos : 0 < mantissa),
        x.toModel.unpack = .finite .positive mantissa exponent hpos ∧
          (mantissa : ℚ) * 2 ^ exponent = n := by
  rw [Represents] at hx
  cases hu : x.toModel.unpack with
  | notANumber | infinity _ => rw [hu] at hx; cases hx
  | zero sign =>
    rw [hu] at hx
    have hzero : (n : ℚ) = 0 := (Option.some.inj hx).symm
    exact .inl ⟨Nat.cast_eq_zero.1 hzero, sign, rfl⟩
  | finite sign mantissa exponent hpos =>
    rw [hu] at hx
    cases sign with
    | positive => exact .inr ⟨mantissa, exponent, hpos, rfl, Option.some.inj hx⟩
    | negative =>
      have hvalue : ((-(mantissa : Int) : Int) : ℚ) * 2 ^ exponent = n := Option.some.inj hx
      have hmantissa : (0 : ℚ) < mantissa := Nat.cast_pos.2 hpos
      have hpow : (0 : ℚ) < 2 ^ exponent := by positivity
      have hn : (0 : ℚ) ≤ n := Nat.cast_nonneg n
      push_cast at hvalue
      nlinarith [mul_pos hmantissa hpow]

/-- The word of a float for a natural number. -/
theorem Represents.toNat_toUInt64 {n : Nat} (hx : Represents x n) :
    x.toUInt64.toNat = min n (2 ^ 64 - 1) := by
  obtain ⟨rfl, sign, hu⟩ | ⟨mantissa, exponent, hpos, hu, hvalue⟩ := hx.natural_cases
  · have hword : x.toUInt64 = 0 := by
      change UnpackedFloat.toUInt64 x.toModel.unpack = _
      rw [hu]
      rfl
    rw [hword]
    rfl
  · rw [toNat_toUInt64_of_unpack hu, roundToInt_of_value_eq hvalue, Int.toNat_natCast]

/-- Without an exponent above zero the word has no more digits than a mantissa. -/
theorem toUInt64_lt {mantissa : Nat} {exponent : Int} {hpos : 0 < mantissa}
    (hx : x.toModel.unpack = .finite .positive mantissa exponent hpos) (hexponent : exponent ≤ 0) :
    x.toUInt64.toNat < 2 ^ 53 := by
  have hfits := fits_unpack x
  rw [hx] at hfits
  have hmantissa : mantissa < 2 ^ 53 := hfits.1.significand_lt
  have hle := roundToInt_le hexponent mantissa
  rw [toNat_toUInt64_of_unpack hx]
  omega

/-- Equal floats stand for the same number. -/
theorem Represents.of_beq {v : ℚ} (hx : Represents x v) (hbeq : (x == y) = true) :
    Represents y v := by
  change UnpackedFloat.beq x.toModel.unpack y.toModel.unpack = true at hbeq
  rw [Represents] at hx ⊢
  rw [← hx]
  generalize x.toModel.unpack = u at hbeq
  generalize y.toModel.unpack = u' at hbeq
  rw [UnpackedFloat.beq, beq_iff_eq] at hbeq
  unfold UnpackedFloat.compare at hbeq
  split at hbeq <;> simp_all [value?, Ordering.then_eq_eq]

/-- A float is at least `2 ^ 53` if its exponent is more than that of `2 ^ 53`, or its mantissa is
    no less. -/
theorem two_pow_le_iff {mantissa : Nat} {exponent : Int} {hpos : 0 < mantissa}
    (hx : x.toModel.unpack = .finite .positive mantissa exponent hpos) :
    9007199254740992 ≤ x ↔ 1 < exponent ∨ (exponent = 1 ∧ 2 ^ 52 ≤ mantissa) := by
  have hcompare : 9007199254740992 ≤ x ↔
      ((compare 1 exponent).then (compare (2 ^ 52) mantissa)).isLE = true := by
    rw [le_iff, hx]
    exact Iff.rfl
  rw [hcompare, Ordering.isLE_then_iff_or, compare_lt_iff_lt, compare_eq_iff_eq, Nat.isLE_compare,
    eq_comm]

/-- A number whose exponent is not negative stands for a natural number. -/
theorem exists_represents_of_nonneg {mantissa : Nat} {exponent : Int} {hpos : 0 < mantissa}
    (hx : x.toModel.unpack = .finite .positive mantissa exponent hpos) (hexponent : 0 ≤ exponent) :
    ∃ n : Nat, Represents x n := by
  obtain ⟨shift, rfl⟩ := Int.eq_ofNat_of_zero_le hexponent
  refine ⟨mantissa * 2 ^ shift, ?_⟩
  rw [Represents, hx, value?, zpow_natCast]
  push_cast
  rfl

/-- A float for a natural number from `2 ^ 53` on is no less than the float `2 ^ 53`. -/
theorem two_pow_le_of_value_eq {n mantissa : Nat} {exponent : Int} {hpos : 0 < mantissa}
    (hx : x.toModel.unpack = .finite .positive mantissa exponent hpos)
    (hvalue : (mantissa : ℚ) * 2 ^ exponent = n) (hn : 2 ^ 53 ≤ n) : 9007199254740992 ≤ x := by
  have hfits := fits_unpack x
  rw [hx] at hfits
  have hmantissa : mantissa < 2 ^ 53 := hfits.1.significand_lt
  rw [two_pow_le_iff hx]
  rcases le_or_gt exponent 0 with hexponent | hexponent
  · obtain ⟨shift, hshift⟩ : ∃ shift : Nat, exponent = 0 - shift :=
      ⟨(-exponent).toNat, by omega⟩
    have hsmaller : mantissa = n * 2 ^ shift := by
      apply eq_mul_two_pow_of_value_eq 0
      rw [← hshift, hvalue, zpow_zero, mul_one]
    have hle := Nat.le_mul_of_pos_right n (Nat.two_pow_pos shift)
    omega
  · rcases (show 1 ≤ exponent by omega).eq_or_lt with rfl | hlt
    · rw [zpow_one] at hvalue
      have hdouble : mantissa * 2 = n := by exact_mod_cast hvalue
      exact .inr ⟨rfl, by omega⟩
    · exact .inl hlt

/-- A float counts as a whole number if and only if it stands for a natural number. -/
theorem isWholeNumber_iff : isWholeNumber x = true ↔ ∃ n : Nat, Represents x n := by
  rw [isWholeNumber, Bool.and_eq_true, Bool.and_eq_true, Bool.or_eq_true, decide_eq_true_iff,
    decide_eq_true_iff, le_iff]
  constructor
  · rintro ⟨⟨hfinite, hzero⟩, hwhole⟩
    change x.toModel.unpack.isFinite = true at hfinite
    cases hx : x.toModel.unpack with
    | notANumber | infinity _ => rw [hx] at hfinite; cases hfinite
    | zero sign =>
      refine ⟨0, ?_⟩
      rw [Represents, hx, Nat.cast_zero]
      rfl
    | finite sign mantissa exponent hpos =>
      cases sign with
      | negative => rw [hx] at hzero; cases hzero
      | positive =>
        rcases le_or_gt 0 exponent with hexponent | hexponent
        · exact exists_represents_of_nonneg hx hexponent
        · -- the word is small, so it is cast back without a loss
          rcases hwhole with hlarge | hback
          · rw [two_pow_le_iff hx] at hlarge
            omega
          · exact ⟨_, (represents_toFloat (toUInt64_lt hx hexponent.le)).of_beq hback⟩
  · rintro ⟨n, hx⟩
    have hword := hx.toNat_toUInt64
    have hzero : UnpackedFloat.le (.zero .positive) x.toModel.unpack = true := by
      obtain ⟨-, sign, hu⟩ | ⟨mantissa, exponent, hpos, hu, -⟩ := hx.natural_cases <;>
        rw [hu] <;> rfl
    refine ⟨⟨hx.isFinite, hzero⟩, ?_⟩
    rcases Nat.lt_or_ge n (2 ^ 53) with hn | hn
    · have hsame : x.toUInt64.toNat = n := by omega
      have hback : Represents x.toUInt64.toFloat n := by
        rw [← hsame]
        exact represents_toFloat (hsame.symm ▸ hn)
      exact .inr (hback.beq hx)
    · obtain ⟨rfl, -⟩ | ⟨mantissa, exponent, hpos, hu, hvalue⟩ := hx.natural_cases
      · omega
      · exact .inl (two_pow_le_of_value_eq hu hvalue hn)

end Candlewick.Decimal
