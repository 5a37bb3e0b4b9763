import Candlewick.Decimal.Reader
import Mathlib

open Float.Model (Format UnpackedFloat)
open Float.Model.UnpackedFloat (Accuracy Sign)

namespace Candlewick.Decimal

/-- A float that is a number, with the sign plus. Rounding, packing and scaling by a power of ten
    keep the sign, so a number that is written without one is never negative. -/
def IsUnsigned : UnpackedFloat → Prop
  | .infinity sign | .zero sign | .finite sign _ _ _ => sign = .positive
  | .notANumber => False

/-- A float that a number can be scaled by: neither zero nor infinite, with the sign plus. -/
def IsScale : UnpackedFloat → Prop
  | .finite sign _ _ _ => sign = .positive
  | _ => False

/-- The sign that was packed is the sign that is unpacked. -/
theorem unpackSign_packComponents {format : Format} {sign : Sign}
    {exponent : BitVec format.exponentBits}
    {mantissa : BitVec format.mantissaBitsWithoutImplicit} :
    UnpackedFloat.unpackSign (UnpackedFloat.packComponents format sign exponent mantissa) =
      sign.toBitVec := by
  ext i hi
  obtain rfl : i = 0 := by omega
  simp [UnpackedFloat.unpackSign, UnpackedFloat.packComponents, BitVec.getLsbD_append,
    BitVec.getElem_append]

/-- With an exponent of ones only a float is infinite or no number, and the mantissa tells which. -/
theorem isUnsigned_unpack {format : Format} {exponent : BitVec format.exponentBits}
    {mantissa : BitVec format.mantissaBitsWithoutImplicit}
    (hnumber : exponent = -1#_ → mantissa = 0#_) :
    IsUnsigned (UnpackedFloat.unpack format
      (UnpackedFloat.packComponents format .positive exponent mantissa)) := by
  unfold UnpackedFloat.unpack
  simp only [UnpackedFloat.unpackExponent_packComponents,
    UnpackedFloat.unpackMantissa_packComponents, unpackSign_packComponents]
  split
  · rename_i hexponent
    rw [if_pos (hnumber hexponent)]
    rfl
  split
  · split <;> rfl
  · rfl

/-- A float keeps its sign in the bits that hold it. -/
theorem IsUnsigned.unpack_pack {format : Format} {x : UnpackedFloat} (hx : IsUnsigned x) :
    IsUnsigned (UnpackedFloat.unpack format (UnpackedFloat.pack format x)) := by
  cases x with
  | notANumber => cases hx
  | infinity sign | zero sign =>
    cases hx
    exact isUnsigned_unpack fun _ => rfl
  | finite sign mantissa exponent hmantissa =>
    cases hx
    unfold UnpackedFloat.pack
    simp only
    split
    · exact isUnsigned_unpack fun _ => rfl
    split
    · refine isUnsigned_unpack fun hones => ?_
      have hexponent := congrArg BitVec.toNat hones
      rw [BitVec.toNat_ofNat, Nat.mod_eq_of_lt (by omega), BitVec.neg_one_eq_allOnes,
        BitVec.toNat_allOnes] at hexponent
      omega
    · refine isUnsigned_unpack fun hones => ?_
      rw [BitVec.neg_one_eq_allOnes] at hones
      simp [Nat.pos_iff_ne_zero.1 format.he] at hones

/-- Rounding a magnitude without a sign never gives one. -/
theorem isUnsigned_roundWithAccuracy (format : Format) (mantissa : Nat) (exponent : Int)
    (accuracy : Accuracy) :
    IsUnsigned (UnpackedFloat.roundWithAccuracy format .positive mantissa exponent accuracy) := by
  unfold UnpackedFloat.roundWithAccuracy
  split
  simp only
  split <;> rfl

/-- A number without a sign that is multiplied or divided by a scale stays without one. The scale is
    neither zero nor infinite, so the result is never no number. -/
theorem IsUnsigned.scaled {format : Format} {x y : UnpackedFloat} (hx : IsUnsigned x)
    (hy : IsScale y) :
    IsUnsigned (UnpackedFloat.mul format x y) ∧ IsUnsigned (UnpackedFloat.div format x y) := by
  cases y with
  | infinity | zero | notANumber => cases hy
  | finite sign' mantissa' exponent' hmantissa' =>
  cases hy
  cases x with
  | notANumber => cases hx
  | infinity sign | zero sign =>
    cases hx
    exact ⟨rfl, rfl⟩
  | finite sign mantissa exponent hmantissa =>
    cases hx
    exact ⟨isUnsigned_roundWithAccuracy .., isUnsigned_roundWithAccuracy ..⟩

/-- A natural number becomes a float without a sign. -/
theorem isUnsigned_ofNat (format : Format) (n : Nat) :
    IsUnsigned (UnpackedFloat.ofNat format n) := by
  unfold UnpackedFloat.ofNat UnpackedFloat.ofInt UnpackedFloat.normalize
  cases n with
  | zero => rfl
  | succ n =>
    have hpositive : compare ((n + 1 : Nat) : Int) 0 = .gt := by
      rw [compare_gt_iff_gt]
      omega
    rw [hpositive]
    exact isUnsigned_roundWithAccuracy ..

/-- Digits with a decimal exponent become a number without a sign. -/
theorem isUnsigned_ofScientific (format : Format) (digits : Nat) (exponent : Int) :
    IsUnsigned (UnpackedFloat.ofScientific format digits exponent) := by
  unfold UnpackedFloat.ofScientific
  split
  · rfl
  split
  · rfl
  split
  · rfl
  split <;> exact isUnsigned_roundWithAccuracy ..

/-- The powers of ten that floats hold exactly are there to scale by. -/
theorem isScale_powerOfTen (exponent : Fin Float.exactlyRepresentablePowersOfTen.size) :
    IsScale Float.exactlyRepresentablePowersOfTen[exponent].toModel.unpack := by
  fin_cases exponent <;> rfl

/-- The number of a scientific literal, unpacked from its float, has no sign. -/
theorem isUnsigned_scientific (digits : Nat) (divide : Bool) (exponent : Nat) :
    IsUnsigned (Float.ofScientific digits divide exponent).toModel.unpack := by
  unfold Float.ofScientific
  split
  · rename_i hexact
    have hdigits : IsUnsigned digits.toUInt64.toFloat.toModel.unpack :=
      (isUnsigned_ofNat ..).unpack_pack
    have hscaled := @IsUnsigned.scaled .binary64 _ _ hdigits
      (isScale_powerOfTen ⟨exponent, Nat.lt_succ_of_le hexact.2⟩)
    simp only
    split
    · exact hscaled.2.unpack_pack
    · exact hscaled.1.unpack_pack
  · exact (isUnsigned_ofScientific ..).unpack_pack

theorem isUnsigned_nearest (d : Digits) : IsUnsigned (nearest d).toModel.unpack := by
  unfold nearest
  simp only
  split
  · rfl
  split
  · rfl
  · exact isUnsigned_scientific ..

/-- What begins with a digit is not the word for a float that is no number. -/
theorem isUnsigned_of_unsigned? {c : Char} {cs : List Char} {x : Float} (hdigit : c.isDigit = true)
    (hread : unsigned? (c :: cs) = some x) : IsUnsigned x.toModel.unpack := by
  unfold unsigned? at hread
  simp only at hread
  split at hread
  · cases hread
    rfl
  split at hread
  · rename_i hword
    have hsmall : ¬ c.isUpper = true := by
      simp only [Char.isDigit, Char.isUpper, Bool.and_eq_true, decide_eq_true_eq] at hdigit ⊢
      grind
    have hletters : c.toLower :: cs.map Char.toLower = ['n', 'a', 'n'] :=
      String.ofList_injective hword
    rw [Char.toLower_eq_of_not_isUpper hsmall] at hletters
    rw [(List.cons.inj hletters).1] at hdigit
    exact absurd hdigit (by decide)
  · obtain ⟨d, -, rfl⟩ := Option.map_eq_some_iff.1 hread
    exact isUnsigned_nearest d

theorem IsUnsigned.isNaN {u : UnpackedFloat} (hu : IsUnsigned u) : u.isNaN = false := by
  cases u with
  | notANumber => cases hu
  | _ => rfl

theorem IsUnsigned.zero_le {u : UnpackedFloat} (hu : IsUnsigned u) :
    UnpackedFloat.le (.zero .positive) u = true := by
  cases u with
  | notANumber => cases hu
  | _ => cases hu; rfl

/-- The sign bit of a word whose float has no sign is zero. -/
theorem unpackSign_of_isUnsigned {format : Format} {bits : BitVec format.numBits}
    (hbits : IsUnsigned (UnpackedFloat.unpack format bits)) :
    UnpackedFloat.unpackSign bits = 0#1 := by
  have hsign : Sign.ofBitVec (UnpackedFloat.unpackSign bits) = .positive := by
    unfold UnpackedFloat.unpack at hbits
    simp only at hbits
    split at hbits
    · split at hbits
      · exact hbits
      · cases hbits
    split at hbits
    · split at hbits <;> exact hbits
    · exact hbits
  unfold Sign.ofBitVec at hsign
  split at hsign
  · assumption
  · cases hsign

/-- A number that is not negative, and not minus zero. -/
structure IsNonnegative (x : Float) : Prop where
  isNaN : x.isNaN = false
  zero_le : 0 ≤ x
  isNegative : isNegative x = false

/-- A float without a sign is a number that is not below zero and is written without a minus
    sign. -/
theorem IsUnsigned.isNonnegative {x : Float} (hx : IsUnsigned x.toModel.unpack) :
    IsNonnegative x := by
  refine ⟨hx.isNaN, decide_eq_true hx.zero_le, ?_⟩
  have hsign := congrArg BitVec.toNat (unpackSign_of_isUnsigned hx)
  have hbits : x.toBits.toNat < 2 ^ 64 := x.toBits.toNat_lt
  have htop : x.toBits.toNat / 2 ^ 63 % 2 = 0 := by
    simpa [UnpackedFloat.unpackSign, Nat.shiftRight_eq_div_pow, Float.toBits] using hsign
  have hsmall : x.toBits.toNat / 2 ^ 63 ≠ 1 := by omega
  exact beq_false_of_ne hsmall

end Candlewick.Decimal
