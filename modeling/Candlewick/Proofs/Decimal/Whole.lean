import Candlewick.Proofs.Decimal.Binary

open Float.Model (UnpackedFloat)

namespace Candlewick.Decimal

theorem toNat_ofNatClamp (n : Nat) : (UInt64.ofNatClamp n).toNat = min n (2 ^ 64 - 1) := by
  have hsize : UInt64.size = 2 ^ 64 := rfl
  unfold UInt64.ofNatClamp
  split <;> rw [UInt64.toNat_ofNatLT] <;> omega

/-- There is nothing to round where the exponent is not negative. -/
theorem roundToInt_of_nonneg {exponent : Int} (hexponent : 0 ≤ exponent) (mantissa : Nat) :
    UnpackedFloat.roundToInt .positive mantissa exponent =
      ((mantissa <<< exponent.toNat : Nat) : Int) := by
  have hback : (0 - (exponent - (exponent.toNat : Int))).toNat = 0 := by omega
  simp only [UnpackedFloat.roundToInt, UnpackedFloat.decreaseExponent,
    UnpackedFloat.shiftToExponent, Int.sub_zero, hback]
  rfl

/-- The order of floats is that of the numbers they unpack to. -/
theorem le_iff {x y : Float} :
    x ≤ y ↔ UnpackedFloat.le x.toModel.unpack y.toModel.unpack = true :=
  ⟨of_decide_eq_true, decide_eq_true⟩

/-- A positive number without digits behind the point is cast to a word that is not zero. -/
theorem toUInt64_pos_of_exponent {n : Float} {mantissa : Nat} {exponent : Int} {hpos : 0 < mantissa}
    (hn : n.toModel.unpack = .finite .positive mantissa exponent hpos) (hexponent : 0 ≤ exponent) :
    0 < n.toUInt64.toNat := by
  have hword : n.toUInt64 = UInt64.ofNatClamp (mantissa <<< exponent.toNat) := by
    change UnpackedFloat.toUInt64 n.toModel.unpack = _
    rw [hn, UnpackedFloat.toUInt64, UnpackedFloat.toInt, roundToInt_of_nonneg hexponent,
      Int.toNat_natCast]
  have hshifted : 0 < mantissa * 2 ^ exponent.toNat := Nat.mul_pos hpos (Nat.two_pow_pos _)
  rw [hword, toNat_ofNatClamp, Nat.shiftLeft_eq]
  omega

/-- A whole number from one on is not cast to the word zero. -/
theorem toUInt64_pos {n : Float} (hwhole : isWholeNumber n = true) (hone : 1 ≤ n) :
    0 < n.toUInt64.toNat := by
  rw [isWholeNumber, Bool.and_eq_true, Bool.and_eq_true, Bool.or_eq_true, decide_eq_true_iff]
    at hwhole
  obtain ⟨⟨hfinite, -⟩, hlarge | hsmall⟩ := hwhole
  · -- from `2 ^ 53` on the exponent is positive
    have hlarge : UnpackedFloat.le (.finite .positive (2 ^ 52) 1 (by decide)) n.toModel.unpack =
        true := le_iff.1 (of_decide_eq_true hlarge)
    change n.toModel.unpack.isFinite = true at hfinite
    match hn : n.toModel.unpack with
    | .notANumber | .infinity _ => rw [hn] at hfinite; cases hfinite
    | .zero _ | .finite .negative _ _ _ => rw [hn] at hlarge; cases hlarge
    | .finite .positive mantissa exponent hpos =>
      refine toUInt64_pos_of_exponent hn ?_
      by_contra hnegative
      have hgt : compare (1 : Int) exponent = .gt := compare_gt_iff_gt.2 (by omega)
      rw [hn, UnpackedFloat.le, UnpackedFloat.compare, hgt] at hlarge
      cases hlarge
  · -- below it the word gives the number back, and the word zero only gives zero
    by_contra hzero
    have hword : n.toUInt64 = 0 := UInt64.toNat_inj.1 (Nat.eq_zero_of_not_pos hzero)
    have hone : UnpackedFloat.le (.finite .positive (2 ^ 52) (-52) (by decide)) n.toModel.unpack =
        true := le_iff.1 hone
    rw [hword] at hsmall
    change UnpackedFloat.beq (.zero .positive) n.toModel.unpack = true at hsmall
    match hn : n.toModel.unpack with
    | .zero _ => rw [hn] at hone; cases hone
    | .notANumber | .infinity .positive | .infinity .negative | .finite .positive _ _ _
    | .finite .negative _ _ _ => rw [hn] at hsmall; cases hsmall

end Candlewick.Decimal
