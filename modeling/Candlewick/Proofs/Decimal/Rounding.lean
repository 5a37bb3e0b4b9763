import Candlewick.Proofs.Decimal.Binary
import Candlewick.Proofs.Decimal.Unsigned

open Float.Model (Format UnpackedFloat totalExponent)
open Float.Model.UnpackedFloat (Sign ExtendedMantissa)

namespace Candlewick.Decimal

namespace Binary

variable {b : Binary}

/-- The number that a magnitude stands for. -/
def value (b : Binary) : ℚ :=
  b.significand * 2 ^ b.exponent

theorem targetExponent_eq (total : Int) :
    Format.binary64.targetExponent total = max (total - 53) leastExponent :=
  rfl

/-- The exponent of a magnitude in normal form is the one that rounding would choose for it. -/
theorem IsCanonical.targetExponent (hb : b.IsCanonical) (hpos : 0 < b.significand) :
    Format.binary64.targetExponent (totalExponent b.significand b.exponent) = b.exponent := by
  have hlog : b.significand.log2 < 53 := (Nat.log2_lt hpos.ne').2 hb.significand_lt
  have hleast := hb.least_le
  rw [targetExponent_eq, totalExponent]
  rcases hleast.eq_or_lt with heq | hlt
  · omega
  · have hleading : 52 ≤ b.significand.log2 := (Nat.le_log2 hpos.ne').2 (hb.leading hlt)
    omega

/-- Zeros at the end of a significand do not change the place of its leading bit. -/
theorem totalExponent_mul_two_pow {significand : Nat} (hpos : 0 < significand) (shift : Nat)
    (exponent : Int) :
    totalExponent (significand * 2 ^ shift) exponent = totalExponent significand (exponent + shift) := by
  have hlog : (significand * 2 ^ shift).log2 = significand.log2 + shift := by
    rw [Nat.log2_eq_iff (by positivity), Nat.add_right_comm, pow_add, pow_add _ _ shift]
    exact ⟨Nat.mul_le_mul_right _ (Nat.log2_self_le hpos.ne'),
      Nat.mul_lt_mul_of_pos_right Nat.lt_log2_self (Nat.two_pow_pos shift)⟩
  rw [totalExponent, totalExponent, hlog]
  push_cast
  ring

end Binary

/-- Nothing is lost when only zeros are shifted out. -/
theorem shiftRight_mul_two_pow (mantissa shift : Nat) :
    (⟨mantissa * 2 ^ shift, false, false⟩ : ExtendedMantissa) >>> shift = ⟨mantissa, false, false⟩ := by
  change shift.repeat ExtendedMantissa.shiftRightOne _ = _
  induction shift generalizing mantissa with
  | zero => rw [Nat.repeat, pow_zero, mul_one]
  | succ shift ih =>
    have hlast : ExtendedMantissa.shiftRightOne ⟨mantissa * 2, false, false⟩ =
        ⟨mantissa, false, false⟩ := by
      simp [ExtendedMantissa.shiftRightOne]
    rw [Nat.repeat, pow_succ', ← mul_assoc, ih, hlast]

/-- Of two ways to write one value, that with the smaller exponent has the other's significand with
    zeros behind it. -/
theorem eq_mul_two_pow_of_value_eq {m n shift : Nat} (exponent : Int)
    (hvalue : (m : ℚ) * 2 ^ (exponent - shift) = n * 2 ^ exponent) : m = n * 2 ^ shift := by
  have hpow : (2 : ℚ) ^ exponent = 2 ^ (exponent - shift) * 2 ^ shift := by
    rw [← zpow_natCast, ← zpow_add₀ (by norm_num), sub_add_cancel]
  have hpos : (2 : ℚ) ^ (exponent - shift) ≠ 0 := by positivity
  rw [hpow, mul_comm (2 ^ _ : ℚ), ← mul_assoc, mul_left_inj' hpos] at hvalue
  exact_mod_cast hvalue

section Rounding

variable {b : Binary} (hb : b.IsCanonical) (hpos : 0 < b.significand)
include hb

/-- Zeros behind the significand of a canonical magnitude are shifted away without loss. -/
theorem shiftToTargetExponent_exact (hpos : 0 < b.significand) (shift : Nat) :
    UnpackedFloat.shiftToTargetExponent .binary64 (b.significand * 2 ^ shift) (b.exponent - shift)
      .exact = (⟨b.significand, false, false⟩, b.exponent) := by
  have hback : b.exponent - (shift : Int) + shift = b.exponent := by omega
  have hshift : (b.exponent - (b.exponent - (shift : Int))).toNat = shift := by omega
  rw [UnpackedFloat.shiftToTargetExponent, Binary.totalExponent_mul_two_pow hpos, hback,
    hb.targetExponent hpos]
  simp only [UnpackedFloat.shiftToExponent, hshift, hback]
  exact congrArg (·, b.exponent) (shiftRight_mul_two_pow b.significand shift)

/-- Rounding keeps a magnitude that a float can hold, with whatever zeros it comes. -/
theorem roundWithAccuracy_exact (sign : Sign) (shift : Nat) :
    UnpackedFloat.roundWithAccuracy .binary64 sign (b.significand * 2 ^ shift) (b.exponent - shift)
      .exact = .finite sign b.significand b.exponent hpos := by
  have hagain := shiftToTargetExponent_exact hb hpos 0
  rw [pow_zero, mul_one, Nat.cast_zero, sub_zero] at hagain
  unfold UnpackedFloat.roundWithAccuracy
  rw [shiftToTargetExponent_exact hb hpos]
  have hrounded : ExtendedMantissa.roundedMantissa ⟨b.significand, false, false⟩ = b.significand := rfl
  simp only [hrounded, hagain, dif_neg hpos.ne']

/-- A value that a float can hold is rounded to the float that holds it, however it is written. -/
theorem round_exact (sign : Sign) {mantissa : Nat} {exponent : Int}
    (hvalue : (mantissa : ℚ) * 2 ^ exponent = b.value) :
    UnpackedFloat.round .binary64 sign mantissa exponent =
      .finite sign b.significand b.exponent hpos := by
  unfold UnpackedFloat.round UnpackedFloat.decreaseExponent
  rcases le_total exponent b.exponent with hle | hle
  · obtain ⟨shift, rfl⟩ : ∃ shift : Nat, exponent = b.exponent - shift :=
      ⟨(b.exponent - exponent).toNat, by omega⟩
    obtain rfl := eq_mul_two_pow_of_value_eq b.exponent hvalue
    have hback : b.exponent - (shift : Int) + shift = b.exponent := by omega
    have hnone : (b.exponent - (shift : Int) - b.exponent).toNat = 0 := by omega
    simp only [Binary.totalExponent_mul_two_pow hpos, hback, hb.targetExponent hpos, hnone,
      Nat.shiftLeft_zero, Nat.cast_zero, sub_zero]
    exact roundWithAccuracy_exact hb hpos sign shift
  · obtain ⟨shift, rfl⟩ : ∃ shift : Nat, exponent = b.exponent + shift :=
      ⟨(exponent - b.exponent).toNat, by omega⟩
    have hsignificand : b.significand = mantissa * 2 ^ shift := by
      apply eq_mul_two_pow_of_value_eq (b.exponent + shift)
      rw [add_sub_cancel_right, hvalue, Binary.value]
    have hmantissa : 0 < mantissa := Nat.pos_of_mul_pos_right (hsignificand ▸ hpos)
    have htarget : Format.binary64.targetExponent
        (totalExponent mantissa (b.exponent + shift)) = b.exponent := by
      rw [← Binary.totalExponent_mul_two_pow hmantissa, ← hsignificand, hb.targetExponent hpos]
    have hshift : (b.exponent + (shift : Int) - b.exponent).toNat = shift := by omega
    have hexact := roundWithAccuracy_exact hb hpos sign 0
    rw [pow_zero, mul_one, Nat.cast_zero, sub_zero] at hexact
    simp only [htarget, hshift, add_sub_cancel_right, Nat.shiftLeft_eq, ← hsignificand]
    exact hexact

end Rounding

/-- The unpacked floats that fit into a float: the magnitude has its normal form, and its exponent is
    not that of an infinity. -/
def Fits : UnpackedFloat → Prop
  | .finite _ mantissa exponent _ => (Binary.mk mantissa exponent).IsCanonical ∧ exponent ≤ 971
  | _ => True

/-- The bit that a word leaves out stands in front of the mantissa. -/
theorem append_leadingBit (mantissa : BitVec 52) :
    (1#1 ++ mantissa).toNat = 2 ^ 52 + mantissa.toNat := by
  rw [BitVec.toNat_append, ← Nat.shiftLeft_add_eq_or_of_lt mantissa.isLt]
  rfl

/-- A float that unpacks to a magnitude has this one. -/
theorem Binary.ofFloat_of_unpack {x : Float} {sign : Sign} {mantissa : Nat} {exponent : Int}
    {hpos : 0 < mantissa} (hx : x.toModel.unpack = .finite sign mantissa exponent hpos) :
    ofFloat x = ⟨mantissa, exponent⟩ := by
  change UnpackedFloat.unpack .binary64 x.toBits.toBitVec = _ at hx
  unfold UnpackedFloat.unpack at hx
  have hexponent := toNat_unpackExponent x
  have hmantissa := toNat_unpackMantissa x
  simp only at hx
  split at hx
  · split at hx <;> cases hx
  split at hx
  · rename_i hzero
    split at hx
    · cases hx
    · cases hx
      have hbiased := congrArg BitVec.toNat hzero
      obtain ⟨-, heq⟩ | ⟨hne, -⟩ := ofFloat_cases x
      · rw [heq, hmantissa, hbiased]
        rfl
      · exact absurd (hexponent.symm.trans hbiased) hne
  · rename_i hnonzero
    cases hx
    obtain ⟨hzero, -⟩ | ⟨-, heq⟩ := ofFloat_cases x
    · exact (hnonzero (BitVec.eq_of_toNat_eq (hexponent.trans hzero))).elim
    · rw [heq, append_leadingBit, hmantissa, hexponent]
      rfl

theorem ofBitVec_toBitVec (sign : Sign) : Sign.ofBitVec sign.toBitVec = sign := by
  cases sign <;> rfl

section Packing

variable (sign : Sign)

/-- The fields of a float with a leading bit. -/
theorem unpack_normal {biased : BitVec 11} (fraction : BitVec 52) (hbiased : 0 < biased.toNat)
    (hlimit : biased.toNat < 2047) {mantissa : Nat} (hmantissa : (1#1 ++ fraction).toNat = mantissa)
    (hpos : 0 < mantissa) :
    UnpackedFloat.unpack .binary64 (UnpackedFloat.packComponents .binary64 sign biased fraction) =
      .finite sign mantissa (biased.toNat - 1075) hpos := by
  have hones : biased ≠ -1#11 := fun h => by
    rw [h, BitVec.neg_one_eq_allOnes, BitVec.toNat_allOnes] at hlimit
    omega
  have hzeros : biased ≠ 0#11 := fun h => by
    rw [h, BitVec.toNat_zero] at hbiased
    omega
  unfold UnpackedFloat.unpack
  simp only [UnpackedFloat.unpackExponent_packComponents,
    UnpackedFloat.unpackMantissa_packComponents, unpackSign_packComponents, ofBitVec_toBitVec,
    if_neg hones, if_neg hzeros, hmantissa]
  rfl

/-- The fields of a float without a leading bit. -/
theorem unpack_subnormal {fraction : BitVec 52} {mantissa : Nat} (hmantissa : fraction.toNat = mantissa)
    (hpos : 0 < mantissa) :
    UnpackedFloat.unpack .binary64 (UnpackedFloat.packComponents .binary64 sign 0#11 fraction) =
      .finite sign mantissa (-1074) hpos := by
  have hnonzero : fraction ≠ 0#52 := fun h => by
    rw [← hmantissa, h, BitVec.toNat_zero] at hpos
    omega
  unfold UnpackedFloat.unpack
  simp only [UnpackedFloat.unpackExponent_packComponents,
    UnpackedFloat.unpackMantissa_packComponents, unpackSign_packComponents, ofBitVec_toBitVec]
  rw [if_neg (by decide), if_pos trivial, dif_neg hnonzero]
  simp only [hmantissa]
  rfl

variable {mantissa : Nat} {exponent : Int} (hpos : 0 < mantissa)

/-- A magnitude below the limits of the format is packed field by field: the exponent counts from
    the least one, and the leading bit is left out. -/
theorem pack_finite (hlt : mantissa < 2 ^ 53) (hle : exponent ≤ 971) :
    UnpackedFloat.pack .binary64 (.finite sign mantissa exponent hpos) =
      UnpackedFloat.packComponents .binary64 sign
        (if 2 ^ 52 ≤ mantissa then BitVec.ofNat 11 (exponent + 1075).toNat else 0#11)
        (BitVec.ofNat 52 mantissa) := by
  have hbiased : (exponent + (Format.binary64.exponentBias : Int) +
      (Format.binary64.mantissaBitsWithoutImplicit : Int)).toNat = (exponent + 1075).toNat := by
    change (exponent + 1023 + 52).toNat = _
    omega
  have hlog : mantissa.log2 + 1 = Format.binary64.mantissaBits ↔ 2 ^ 52 ≤ mantissa := by
    have hupper := (Nat.log2_lt hpos.ne').2 hlt
    rw [← Nat.le_log2 hpos.ne']
    change mantissa.log2 + 1 = 53 ↔ _
    omega
  unfold UnpackedFloat.pack
  simp only [hbiased, hlog]
  rw [if_neg (by omega)]
  split <;> rfl

/-- A finite float that fits is packed and unpacked without loss. -/
theorem unpack_pack_finite (hcanonical : (Binary.mk mantissa exponent).IsCanonical)
    (hle : exponent ≤ 971) :
    UnpackedFloat.unpack .binary64 (UnpackedFloat.pack .binary64
      (.finite sign mantissa exponent hpos)) = .finite sign mantissa exponent hpos := by
  have hleast : -1074 ≤ exponent := hcanonical.least_le
  have hlt : mantissa < 2 ^ 53 := hcanonical.significand_lt
  rw [pack_finite sign hpos hlt hle]
  by_cases hnormal : 2 ^ 52 ≤ mantissa
  · have hfraction : (1#1 ++ BitVec.ofNat 52 mantissa).toNat = mantissa := by
      rw [append_leadingBit, BitVec.toNat_ofNat]
      omega
    have hbiased : (BitVec.ofNat 11 (exponent + 1075).toNat).toNat = (exponent + 1075).toNat := by
      rw [BitVec.toNat_ofNat, Nat.mod_eq_of_lt (by omega)]
    have hback : (((exponent + 1075).toNat : Nat) : Int) - 1075 = exponent := by omega
    rw [if_pos hnormal, unpack_normal sign _ (by omega) (by omega) hfraction hpos, hbiased]
    simp only [hback]
  · have hfraction : (BitVec.ofNat 52 mantissa).toNat = mantissa := by
      rw [BitVec.toNat_ofNat, Nat.mod_eq_of_lt (Nat.not_le.1 hnormal)]
    -- without its leading bit a magnitude in normal form has the least exponent
    obtain rfl : exponent = -1074 := by
      by_contra hne
      exact hnormal (hcanonical.leading (lt_of_le_of_ne hleast (Ne.symm hne)))
    rw [if_neg hnormal, unpack_subnormal sign hfraction hpos]

end Packing

/-- What has been unpacked from a word fits into a word. -/
theorem fits_unpack (x : Float) : Fits x.toModel.unpack := by
  cases hx : x.toModel.unpack with
  | finite sign mantissa exponent hpos =>
    have hfinite : x.isFinite = true := by
      change x.toModel.unpack.isFinite = true
      rw [hx]
      rfl
    have hmagnitude := Binary.ofFloat_of_unpack hx
    have hexponent := Binary.exponent_ofFloat_le hfinite
    have hcanonical := Binary.isCanonical_ofFloat x
    rw [hmagnitude] at hexponent hcanonical
    exact ⟨hcanonical, hexponent⟩
  | _ => trivial

/-- What fits into a float is packed and unpacked without loss. -/
theorem Fits.unpack_pack {u : UnpackedFloat} (hu : Fits u) :
    UnpackedFloat.unpack .binary64 (UnpackedFloat.pack .binary64 u) = u := by
  cases u with
  | notANumber => rfl
  | infinity sign | zero sign => cases sign <;> rfl
  | finite sign mantissa exponent hpos => exact unpack_pack_finite sign hpos hu.1 hu.2

section Operations

variable {x y : Float}

/-- A sum that fits is what the float of the sum unpacks to. -/
theorem unpack_add (h : Fits (UnpackedFloat.add .binary64 x.toModel.unpack y.toModel.unpack)) :
    (x + y).toModel.unpack = UnpackedFloat.add .binary64 x.toModel.unpack y.toModel.unpack :=
  h.unpack_pack

theorem unpack_sub (h : Fits (UnpackedFloat.sub .binary64 x.toModel.unpack y.toModel.unpack)) :
    (x - y).toModel.unpack = UnpackedFloat.sub .binary64 x.toModel.unpack y.toModel.unpack :=
  h.unpack_pack

theorem unpack_mul (h : Fits (UnpackedFloat.mul .binary64 x.toModel.unpack y.toModel.unpack)) :
    (x * y).toModel.unpack = UnpackedFloat.mul .binary64 x.toModel.unpack y.toModel.unpack :=
  h.unpack_pack

theorem unpack_div (h : Fits (UnpackedFloat.div .binary64 x.toModel.unpack y.toModel.unpack)) :
    (x / y).toModel.unpack = UnpackedFloat.div .binary64 x.toModel.unpack y.toModel.unpack :=
  h.unpack_pack

end Operations

/-- A float is what it unpacks to. -/
theorem eq_of_unpack_eq {x y : Float} (hxy : x.toModel.unpack = y.toModel.unpack) : x = y := by
  have hpacked (z : Float) : z = Float.ofModel (.pack z.toModel.unpack) := (Float.ofBits_toBits z).symm
  rw [hpacked x, hpacked y, hxy]

end Candlewick.Decimal

