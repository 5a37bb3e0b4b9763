import Candlewick.Proofs.Decimal.Rounding

open Float.Model (Format UnpackedFloat totalExponent)
open Float.Model.UnpackedFloat (Sign)

namespace Candlewick.Decimal

/-- The number that an unpacked float stands for. -/
def value? : UnpackedFloat → Option ℚ
  | .zero _ => some 0
  | .finite sign mantissa exponent _ => some (sign.apply mantissa * 2 ^ exponent)
  | .infinity _ | .notANumber => none

/-- An unpacked float that fits into a float and stands for a number. -/
structure Holds (u : UnpackedFloat) (v : ℚ) : Prop where
  fits : Fits u
  value_eq : value? u = some v

/-- The numbers that a float can stand for. -/
def Representable (v : ℚ) : Prop :=
  ∃ u, Holds u v

theorem holds_zero (sign : Sign) : Holds (.zero sign) 0 :=
  ⟨trivial, rfl⟩

theorem apply_positive_one : ((Sign.positive.apply 1 : ℤ) : ℚ) = 1 :=
  rfl

theorem apply_negative_one : ((Sign.negative.apply 1 : ℤ) : ℚ) = -1 :=
  rfl

/-- A finite number in normal form holds its own value. -/
theorem holds_finite {b : Binary} (hb : b.IsCanonical) (hle : b.exponent ≤ 971)
    (hpos : 0 < b.significand) (sign : Sign) :
    Holds (.finite sign b.significand b.exponent hpos) (sign.apply 1 * b.value) := by
  refine ⟨⟨hb, hle⟩, congrArg some ?_⟩
  rw [Binary.value, ← mul_assoc]
  cases sign <;> simp [Sign.apply]

theorem Binary.value_pos {b : Binary} (hpos : 0 < b.significand) : 0 < b.value := by
  have hsignificand : (0 : ℚ) < b.significand := Nat.cast_pos.2 hpos
  rw [value]
  positivity

/-- The magnitude of a number that a float can stand for. -/
theorem Representable.exists_magnitude {v : ℚ} (hv : Representable v) (hne : v ≠ 0) :
    ∃ b : Binary, b.IsCanonical ∧ b.exponent ≤ 971 ∧ 0 < b.significand ∧ b.value = |v| := by
  obtain ⟨u, hfits, hvalue⟩ := hv
  match u with
  | .zero _ => cases hvalue; exact absurd rfl hne
  | .finite sign mantissa exponent hpos =>
    cases hvalue
    refine ⟨⟨mantissa, exponent⟩, hfits.1, hfits.2, hpos, ?_⟩
    have hmagnitude := Binary.value_pos (b := ⟨mantissa, exponent⟩) hpos
    rw [Binary.value] at hmagnitude ⊢
    cases sign <;> simp [Sign.apply, abs_mul]

/-- A magnitude that a float can hold is rounded to itself. -/
theorem holds_round {v : ℚ} (hv : Representable v) (hne : v ≠ 0) (sign : Sign) {mantissa : Nat}
    {exponent : Int} (hvalue : (mantissa : ℚ) * 2 ^ exponent = |v|) :
    Holds (UnpackedFloat.round .binary64 sign mantissa exponent) (sign.apply 1 * |v|) ∧
      UnpackedFloat.round .binary64 sign mantissa exponent ≠ .zero .negative := by
  obtain ⟨b, hb, hle, hpos, habs⟩ := hv.exists_magnitude hne
  rw [round_exact hb hpos sign (hvalue.trans habs.symm), ← habs]
  exact ⟨holds_finite hb hle hpos sign, nofun⟩

/-- So is a whole number of units, and what is normalized is never a negative zero. -/
theorem holds_normalize {mantissa exponent : Int}
    (hrepresentable : Representable (mantissa * 2 ^ exponent)) :
    Holds (UnpackedFloat.normalize .binary64 mantissa exponent .positive) (mantissa * 2 ^ exponent) ∧
      UnpackedFloat.normalize .binary64 mantissa exponent .positive ≠ .zero .negative := by
  have hpow : (0 : ℚ) < 2 ^ exponent := by positivity
  unfold UnpackedFloat.normalize
  rcases lt_trichotomy mantissa 0 with hnegative | rfl | hpositive
  · have hmantissa : (mantissa : ℚ) < 0 := Int.cast_lt_zero.2 hnegative
    have hv := mul_neg_of_neg_of_pos hmantissa hpow
    have habs : (((-mantissa).toNat : ℕ) : ℚ) * 2 ^ exponent =
        |(mantissa : ℚ) * 2 ^ exponent| := by
      have hcast : (((-mantissa).toNat : ℕ) : ℤ) = -mantissa := Int.toNat_of_nonneg (by omega)
      rw [abs_of_neg hv, ← Int.cast_natCast, hcast]
      push_cast
      ring
    have hround := holds_round hrepresentable hv.ne .negative habs
    rw [show compare mantissa 0 = .lt from Int.compare_eq_lt.2 hnegative]
    rwa [abs_of_neg hv, apply_negative_one, neg_mul_neg,
      one_mul] at hround
  · rw [show compare (0 : Int) 0 = .eq from rfl, Int.cast_zero, zero_mul]
    exact ⟨holds_zero _, nofun⟩
  · have hmantissa : (0 : ℚ) < mantissa := Int.cast_pos.2 hpositive
    have hv := mul_pos hmantissa hpow
    have habs : ((mantissa.toNat : ℕ) : ℚ) * 2 ^ exponent =
        |(mantissa : ℚ) * 2 ^ exponent| := by
      have hcast : ((mantissa.toNat : ℕ) : ℤ) = mantissa := Int.toNat_of_nonneg hpositive.le
      rw [abs_of_pos hv, ← Int.cast_natCast, hcast]
    have hround := holds_round hrepresentable hv.ne' .positive habs
    rw [show compare mantissa 0 = .gt from Int.compare_eq_gt.2 hpositive]
    rwa [abs_of_pos hv, apply_positive_one, one_mul] at hround

/-- Writing a magnitude with a smaller exponent does not change its value. -/
theorem decreaseExponent_value {mantissa : Nat} {exponent target : Int} (hle : target ≤ exponent) :
    (((UnpackedFloat.decreaseExponent mantissa exponent target).1 : ℕ) : ℚ) * 2 ^ target =
      mantissa * 2 ^ exponent := by
  obtain ⟨shift, rfl⟩ : ∃ shift : Nat, exponent = target + shift :=
    ⟨(exponent - target).toNat, by omega⟩
  have hshift : (target + (shift : Int) - target).toNat = shift := by omega
  simp only [UnpackedFloat.decreaseExponent, hshift, Nat.shiftLeft_eq]
  rw [zpow_add₀ (by norm_num), zpow_natCast]
  push_cast
  ring

/-- A signed number is its magnitude times its sign. -/
theorem cast_apply (sign : Sign) (n : ℤ) : ((sign.apply n : ℤ) : ℚ) = sign.apply 1 * n := by
  cases sign <;> simp [Sign.apply]

section Operations

variable {u u' : UnpackedFloat} {v v' : ℚ}

/-- A sum that a float can hold is not rounded. It is a negative zero only if both summands are. -/
theorem Holds.add (hu : Holds u v) (hu' : Holds u' v') (hrepresentable : Representable (v + v')) :
    Holds (UnpackedFloat.add .binary64 u u') (v + v') ∧
      (u ≠ .zero .negative → UnpackedFloat.add .binary64 u u' ≠ .zero .negative) := by
  match u, u' with
  | .zero sign, .zero sign' =>
    cases hu.value_eq
    cases hu'.value_eq
    rw [add_zero]
    cases sign with
    | negative => exact ⟨by cases sign' <;> exact holds_zero _, fun hplain => absurd rfl hplain⟩
    | positive => exact ⟨by cases sign' <;> exact holds_zero _, by cases sign' <;> nofun⟩
  | .zero sign, .finite sign' mantissa' exponent' hpos' =>
    cases hu.value_eq
    rw [zero_add]
    exact ⟨hu', nofun⟩
  | .finite sign mantissa exponent hpos, .zero sign' =>
    cases hu'.value_eq
    rw [add_zero]
    exact ⟨hu, nofun⟩
  | .finite sign mantissa exponent hpos, .finite sign' mantissa' exponent' hpos' =>
    cases hu.value_eq
    cases hu'.value_eq
    let target := min exponent exponent'
    let left := (UnpackedFloat.decreaseExponent mantissa exponent target).1
    let right := (UnpackedFloat.decreaseExponent mantissa' exponent' target).1
    have hsum : (((sign.apply left + sign'.apply right : ℤ) : ℚ)) * 2 ^ target =
        sign.apply mantissa * 2 ^ exponent + sign'.apply mantissa' * 2 ^ exponent' := by
      have hleft : (left : ℚ) * 2 ^ target = mantissa * 2 ^ exponent :=
        decreaseExponent_value (min_le_left _ _)
      have hright : (right : ℚ) * 2 ^ target = mantissa' * 2 ^ exponent' :=
        decreaseExponent_value (min_le_right _ _)
      rw [Int.cast_add, cast_apply sign left, cast_apply sign' right, cast_apply sign mantissa,
        cast_apply sign' mantissa', add_mul, mul_assoc, mul_assoc, mul_assoc, mul_assoc,
        Int.cast_natCast, Int.cast_natCast, hleft, hright, Int.cast_natCast, Int.cast_natCast]
    rw [← hsum] at hrepresentable ⊢
    obtain ⟨hholds, hplain⟩ := holds_normalize hrepresentable
    exact ⟨hholds, fun _ => hplain⟩
  | .infinity _, _ | .notANumber, _ => cases hu.value_eq
  | _, .infinity _ | _, .notANumber => cases hu'.value_eq

theorem apply_neg (sign : Sign) (n : ℤ) : (-sign).apply n = -sign.apply n := by
  cases sign with
  | negative => exact (neg_neg n).symm
  | positive => rfl

/-- A difference is the sum with the opposite of what is taken away. -/
theorem model_sub_eq (u u' : UnpackedFloat) :
    UnpackedFloat.sub .binary64 u u' = UnpackedFloat.add .binary64 u u'.neg := by
  match u, u' with
  | .notANumber, _ => rfl
  | .infinity _, .notANumber | .zero _, .notANumber | .finite _ _ _ _, .notANumber => rfl
  | .infinity _, .infinity _ | .infinity _, .zero _ | .infinity _, .finite _ _ _ _ => rfl
  | .zero _, .infinity _ | .zero _, .zero _ | .zero _, .finite _ _ _ _ => rfl
  | .finite _ _ _ _, .infinity _ | .finite _ _ _ _, .zero _ => rfl
  | .finite sign mantissa exponent hpos, .finite sign' mantissa' exponent' hpos' =>
    simp only [UnpackedFloat.sub, UnpackedFloat.neg, UnpackedFloat.add, apply_neg, sub_eq_add_neg]

/-- The opposite number holds the opposite value. -/
theorem Holds.neg (hu : Holds u v) : Holds u.neg (-v) := by
  match u with
  | .zero sign =>
    cases hu.value_eq
    rw [neg_zero]
    exact holds_zero _
  | .finite sign mantissa exponent hpos =>
    cases hu.value_eq
    refine ⟨hu.fits, congrArg some ?_⟩
    rw [apply_neg, Int.cast_neg, neg_mul]
  | .infinity _ | .notANumber => cases hu.value_eq

/-- A difference that a float can stand for is exact, as it is the sum with the opposite number. -/
theorem Holds.sub (hu : Holds u v) (hu' : Holds u' v') (hrepresentable : Representable (v - v')) :
    Holds (UnpackedFloat.sub .binary64 u u') (v - v') := by
  rw [model_sub_eq]
  rw [sub_eq_add_neg] at hrepresentable ⊢
  exact (hu.add hu'.neg hrepresentable).1

/-- The sign of a product is the product of the signs. -/
theorem mul_apply (sign sign' : Sign) :
    (((sign * sign').apply 1 : ℤ) : ℚ) = sign.apply 1 * sign'.apply 1 := by
  cases sign <;> cases sign' <;> simp [Sign.apply]

/-- The value of a finite number is its signed magnitude. -/
theorem value?_finite (sign : Sign) {mantissa : Nat} {exponent : Int} (hpos : 0 < mantissa) :
    value? (.finite sign mantissa exponent hpos) =
      some (sign.apply 1 * (Binary.mk mantissa exponent).value) := by
  rw [value?, cast_apply, Binary.value, mul_assoc, Int.cast_natCast]

/-- The exponent of a product that a float can hold is at least the sum of the exponents: a significand
    with its leading bit leaves no room for another one. -/
theorem exponent_add_le {b b' product : Binary} (hb : b.IsCanonical) (hb' : b'.IsCanonical)
    (hpos : 0 < b.significand) (hpos' : 0 < b'.significand) (hproduct : product.IsCanonical)
    (hvalue : product.value = b.value * b'.value) :
    b.exponent + b'.exponent ≤ product.exponent := by
  by_contra hlt
  obtain ⟨shift, hshift⟩ : ∃ shift : Nat, product.exponent = b.exponent + b'.exponent - shift :=
    ⟨(b.exponent + b'.exponent - product.exponent).toNat, by omega⟩
  have hsignificand : product.significand = b.significand * b'.significand * 2 ^ shift := by
    apply eq_mul_two_pow_of_value_eq (b.exponent + b'.exponent)
    rw [← hshift, ← Binary.value, hvalue, Binary.value, Binary.value, zpow_add₀ (by norm_num)]
    push_cast
    ring
  have hshifted : 2 ≤ 2 ^ shift := Nat.le_self_pow (by omega) 2
  have hleading : 2 ^ 52 ≤ b.significand * b'.significand := by
    have hleast := hproduct.least_le
    have hleast' : Binary.leastExponent < b.exponent ∨ Binary.leastExponent < b'.exponent := by
      simp only [Binary.leastExponent] at hleast ⊢
      omega
    rcases hleast' with h | h
    · exact (hb.leading h).trans (Nat.le_mul_of_pos_right _ hpos')
    · exact (hb'.leading h).trans (Nat.le_mul_of_pos_left _ hpos)
  have hroom := Nat.mul_le_mul hleading hshifted
  have hlimit := hproduct.significand_lt
  rw [hsignificand, Binary.leadingBit_eq] at hlimit
  omega

/-- The product of two magnitudes is rounded to the one that a float can hold. -/
theorem round_product_exact {b b' product : Binary} (hb : b.IsCanonical) (hb' : b'.IsCanonical)
    (hpos : 0 < b.significand) (hpos' : 0 < b'.significand) (hproduct : product.IsCanonical)
    (hposProduct : 0 < product.significand) (hvalue : product.value = b.value * b'.value)
    (sign : Sign) :
    UnpackedFloat.roundWithAccuracy .binary64 sign (b.significand * b'.significand)
      (b.exponent + b'.exponent) .exact =
        .finite sign product.significand product.exponent hposProduct := by
  have hexponent := exponent_add_le hb hb' hpos hpos' hproduct hvalue
  obtain ⟨shift, hshift⟩ : ∃ shift : Nat, b.exponent + b'.exponent = product.exponent - shift :=
    ⟨(product.exponent - (b.exponent + b'.exponent)).toNat, by omega⟩
  have hsignificand : b.significand * b'.significand = product.significand * 2 ^ shift := by
    apply eq_mul_two_pow_of_value_eq product.exponent
    rw [← hshift, ← Binary.value, hvalue, zpow_add₀ (by norm_num), Binary.value, Binary.value]
    push_cast
    ring
  rw [hsignificand, hshift]
  exact roundWithAccuracy_exact hproduct hposProduct sign shift

/-- A product that a float can hold is not rounded. -/
theorem Holds.mul (hu : Holds u v) (hu' : Holds u' v') (hrepresentable : Representable (v * v')) :
    Holds (UnpackedFloat.mul .binary64 u u') (v * v') := by
  match u, u' with
  | .zero sign, .zero sign' | .zero sign, .finite sign' _ _ _ =>
    cases hu.value_eq
    rw [zero_mul]
    exact holds_zero _
  | .finite sign _ _ _, .zero sign' =>
    cases hu'.value_eq
    rw [mul_zero]
    exact holds_zero _
  | .finite sign mantissa exponent hpos, .finite sign' mantissa' exponent' hpos' =>
    let b : Binary := ⟨mantissa, exponent⟩
    let b' : Binary := ⟨mantissa', exponent'⟩
    have hv : sign.apply 1 * b.value = v :=
      Option.some.inj ((value?_finite sign hpos).symm.trans hu.value_eq)
    have hv' : sign'.apply 1 * b'.value = v' :=
      Option.some.inj ((value?_finite sign' hpos').symm.trans hu'.value_eq)
    have hsigns : v * v' = (sign * sign').apply 1 * (b.value * b'.value) := by
      rw [mul_apply, ← hv, ← hv']
      ring
    have hone : |(((sign * sign').apply 1 : ℤ) : ℚ)| = 1 := by
      cases sign <;> cases sign' <;> simp [Sign.apply]
    have hpositive : 0 < b.value * b'.value :=
      mul_pos (Binary.value_pos hpos) (Binary.value_pos hpos')
    have habs : |v * v'| = b.value * b'.value := by
      rw [hsigns, abs_mul, hone, one_mul, abs_of_pos hpositive]
    obtain ⟨product, hproduct, hle, hposProduct, hvalue⟩ :=
      hrepresentable.exists_magnitude (abs_pos.1 (habs ▸ hpositive))
    have hround := round_product_exact hu.fits.1 hu'.fits.1 hpos hpos' hproduct hposProduct
      (hvalue.trans habs) (sign * sign')
    change Holds (UnpackedFloat.roundWithAccuracy .binary64 (sign * sign') (mantissa * mantissa')
      (exponent + exponent') .exact) _
    rw [hround, hsigns, ← habs, ← hvalue]
    exact holds_finite hproduct hle hposProduct (sign * sign')
  | .infinity _, _ | .notANumber, _ => cases hu.value_eq
  | _, .infinity _ | _, .notANumber => cases hu'.value_eq

theorem Holds.ne_zero {sign : Sign} {mantissa : Nat} {exponent : Int} {hpos : 0 < mantissa}
    (hu : Holds (.finite sign mantissa exponent hpos) v) : v ≠ 0 := by
  have hvalue := (value?_finite sign hpos).symm.trans hu.value_eq
  have hmagnitude := Binary.value_pos (b := ⟨mantissa, exponent⟩) hpos
  rintro rfl
  rw [Option.some_inj] at hvalue
  cases sign <;> simp [Sign.apply] at hvalue <;> exact hmagnitude.ne' hvalue

/-- Two unpacked floats that stand for the same number are the same, apart from a negative zero. -/
theorem Holds.unique (hu : Holds u v) (hu' : Holds u' v) (hplain : u ≠ .zero .negative)
    (hplain' : u' ≠ .zero .negative) : u = u' := by
  match u, u' with
  | .zero .negative, _ => exact absurd rfl hplain
  | _, .zero .negative => exact absurd rfl hplain'
  | .zero .positive, .zero .positive => rfl
  | .zero .positive, .finite _ _ _ _ => exact absurd (Option.some.inj hu.value_eq).symm hu'.ne_zero
  | .finite _ _ _ _, .zero .positive => exact absurd (Option.some.inj hu'.value_eq).symm hu.ne_zero
  | .finite sign mantissa exponent hpos, .finite sign' mantissa' exponent' hpos' =>
    have hvalue := hu.value_eq.trans hu'.value_eq.symm
    rw [value?_finite, value?_finite, Option.some_inj] at hvalue
    have hmagnitude := Binary.value_pos (b := ⟨mantissa, exponent⟩) hpos
    have hmagnitude' := Binary.value_pos (b := ⟨mantissa', exponent'⟩) hpos'
    obtain ⟨rfl, hequal⟩ : sign = sign' ∧
        (Binary.mk mantissa exponent).value = (Binary.mk mantissa' exponent').value := by
      cases sign <;> cases sign' <;> simp [Sign.apply] at hvalue ⊢ <;> linarith
    exact (round_exact hu.fits.1 hpos sign rfl).symm.trans
      (round_exact hu'.fits.1 hpos' sign hequal)
  | .infinity _, _ | .notANumber, _ => cases hu.value_eq
  | _, .infinity _ | _, .notANumber => cases hu'.value_eq

end Operations

/-- The quotient by one is computed with an exponent that is not above the one of the float, and without
    a remainder. -/
theorem exists_divCore_one {b : Binary} (hb : b.IsCanonical) (hpos : 0 < b.significand) :
    ∃ shift : Nat, UnpackedFloat.divCore .binary64 b.significand b.exponent (2 ^ 52) (-52) =
      (b.significand * 2 ^ shift, b.exponent - shift, .exact) := by
  have hone : totalExponent (2 ^ 52) (-52) = 1 := rfl
  have hexponent := hb.targetExponent hpos
  rw [Binary.targetExponent_eq] at hexponent
  unfold UnpackedFloat.divCore
  rw [hone, Binary.targetExponent_eq]
  obtain ⟨shift, hshift⟩ : ∃ shift : Nat, min (b.exponent - -52)
      (max (totalExponent b.significand b.exponent - 1 - 53) Binary.leastExponent) =
        b.exponent - shift :=
    ⟨(b.exponent - min (b.exponent - -52)
      (max (totalExponent b.significand b.exponent - 1 - 53) Binary.leastExponent)).toNat, by omega⟩
  have hamount : (b.exponent - -52 - (b.exponent - (shift : Int))).toNat = shift + 52 := by omega
  have hscaled : b.significand <<< (shift + 52) = b.significand * 2 ^ shift * 2 ^ 52 := by
    rw [Nat.shiftLeft_eq, pow_add, mul_assoc]
  refine ⟨shift, ?_⟩
  simp only [hshift, hamount, hscaled, Nat.mul_div_cancel _ (Nat.two_pow_pos 52), Nat.mul_mod_left]
  rfl

/-- Dividing by one changes nothing. -/
theorem Fits.div_one {u : UnpackedFloat} (hu : Fits u) :
    UnpackedFloat.div .binary64 u (.finite .positive (2 ^ 52) (-52) (Nat.two_pow_pos 52)) = u := by
  match u with
  | .notANumber => rfl
  | .infinity sign | .zero sign => cases sign <;> rfl
  | .finite sign mantissa exponent hpos =>
    obtain ⟨shift, hcore⟩ := exists_divCore_one hu.1 hpos
    have hsign : sign / .positive = sign := by cases sign <;> rfl
    rw [UnpackedFloat.div, hcore, hsign]
    exact roundWithAccuracy_exact hu.1 hpos sign shift

theorem compare_self_of_finite (sign : Sign) {mantissa : Nat} {exponent : Int} {hpos : 0 < mantissa} :
    UnpackedFloat.compare (.finite sign mantissa exponent hpos)
      (.finite sign mantissa exponent hpos) = some .eq := by
  cases sign <;> simp [UnpackedFloat.compare]

/-- A significand below `2 ^ 53` gets its leading bit, as far as the least exponent allows. -/
theorem exists_isCanonical {n : Nat} {unit : Int} (hpos : 0 < n) (hn : n < 2 ^ 53)
    (hleast : -1074 ≤ unit) :
    ∃ b : Binary, b.IsCanonical ∧ b.exponent ≤ unit ∧ 0 < b.significand ∧ b.value = n * 2 ^ unit := by
  let room := min (52 - n.log2) (unit + 1074).toNat
  have hlog : n.log2 < 53 := (Nat.log2_lt hpos.ne').2 hn
  refine ⟨⟨n * 2 ^ room, unit - room⟩, ⟨?_, ?_, fun habove => ?_⟩, ?_, by positivity, ?_⟩
  · calc n * 2 ^ room < 2 ^ (n.log2 + 1) * 2 ^ room :=
          Nat.mul_lt_mul_of_pos_right Nat.lt_log2_self (Nat.two_pow_pos room)
      _ = 2 ^ (n.log2 + 1 + room) := (pow_add 2 _ _).symm
      _ ≤ 2 ^ 53 := Nat.pow_le_pow_right Nat.two_pos (by omega)
  · simp only [Binary.leastExponent]
    omega
  · simp only [Binary.leastExponent] at habove
    have hroom : n.log2 + room = 52 := by omega
    calc Binary.leadingBit = 2 ^ n.log2 * 2 ^ room := by rw [← pow_add, hroom]; rfl
      _ ≤ n * 2 ^ room := Nat.mul_le_mul_right _ (Nat.log2_self_le hpos.ne')
  · exact sub_le_self unit (Int.natCast_nonneg room)
  · rw [Binary.value, zpow_sub₀ (by norm_num), zpow_natCast]
    push_cast
    field_simp

/-- A whole number of units, where a unit is a power of two, is a number that a float can stand for if
    it is below `2 ^ 53`. -/
theorem representable_mul_two_pow {ticks unit : Int} (hticks : ticks.natAbs < 2 ^ 53)
    (hleast : -1074 ≤ unit) (hle : unit ≤ 971) : Representable (ticks * 2 ^ unit) := by
  rcases Nat.eq_zero_or_pos ticks.natAbs with hzero | hpos
  · rw [Int.natAbs_eq_zero.1 hzero, Int.cast_zero, zero_mul]
    exact ⟨_, holds_zero .positive⟩
  · obtain ⟨b, hb, hexponent, hsignificand, hvalue⟩ := exists_isCanonical hpos hticks hleast
    have hholds := holds_finite hb (hexponent.trans hle) hsignificand
    rw [hvalue, Nat.cast_natAbs] at hholds
    rcases le_total 0 ticks with hsign | hsign
    · have hpositive := hholds .positive
      rw [abs_of_nonneg hsign, apply_positive_one, one_mul] at hpositive
      exact ⟨_, hpositive⟩
    · have hnegative := hholds .negative
      rw [abs_of_nonpos hsign, apply_negative_one, Int.cast_neg, neg_mul, one_mul, neg_mul, neg_neg]
        at hnegative
      exact ⟨_, hnegative⟩

end Candlewick.Decimal
