import Candlewick.Proofs.Decimal.Represents

open Float.Model (UnpackedFloat)
open Float.Model.UnpackedFloat (Sign)

namespace Candlewick.Decimal

/-- The infinity of a sign, or no number at all. -/
def IsLost (sign : Sign) (u : UnpackedFloat) : Prop :=
  u = .infinity sign ∨ u = .notANumber

section Unpacked

variable {sign : Sign} {u u' : UnpackedFloat}

/-- Two infinities add up to themselves or, if they are opposite, to no number. -/
theorem isLost_add_infinities (sign sign' : Sign) :
    IsLost sign (UnpackedFloat.add .binary64 (.infinity sign) (.infinity sign')) ∧
      IsLost sign' (UnpackedFloat.add .binary64 (.infinity sign) (.infinity sign')) :=
  match sign, sign' with
  | .negative, .negative | .positive, .positive => ⟨.inl rfl, .inl rfl⟩
  | .negative, .positive | .positive, .negative => ⟨.inr rfl, .inr rfl⟩

/-- A sum is lost as soon as its first part is. -/
theorem IsLost.add_left (hu : IsLost sign u) (u' : UnpackedFloat) :
    IsLost sign (UnpackedFloat.add .binary64 u u') := by
  rcases hu with rfl | rfl
  · match u' with
    | .infinity sign' => exact (isLost_add_infinities sign sign').1
    | .zero _ | .finite _ _ _ _ => exact .inl rfl
    | .notANumber => exact .inr rfl
  · exact .inr rfl

theorem IsLost.add_right (hu' : IsLost sign u') (u : UnpackedFloat) :
    IsLost sign (UnpackedFloat.add .binary64 u u') := by
  match u with
  | .notANumber => exact .inr rfl
  | .infinity sign' =>
    rcases hu' with rfl | rfl
    · exact (isLost_add_infinities sign' sign).2
    · exact .inr rfl
  | .zero _ | .finite _ _ _ _ =>
    rcases hu' with rfl | rfl
    · exact .inl rfl
    · exact .inr rfl

/-- What is opposite to something lost is lost to the opposite side. -/
theorem IsLost.neg (hu : IsLost sign u) : IsLost (-sign) u.neg := by
  rcases hu with rfl | rfl
  · exact .inl rfl
  · exact .inr rfl

/-- Opposite infinities have no sum. -/
theorem IsLost.add_opposite (hu : IsLost sign u) (hu' : IsLost (-sign) u') :
    UnpackedFloat.add .binary64 u u' = .notANumber := by
  rcases hu with rfl | rfl
  · rcases hu' with rfl | rfl
    · cases sign <;> rfl
    · rfl
  · rfl

/-- Times a number without a sign, what is lost stays lost to the same side. -/
theorem IsLost.mul (hu' : IsLost sign u') (hu : IsUnsigned u) :
    IsLost sign (UnpackedFloat.mul .binary64 u u') := by
  rcases hu' with rfl | rfl
  · match u with
    | .infinity .positive | .finite .positive _ _ _ => cases sign <;> exact .inl rfl
    | .zero .positive => exact .inr rfl
  · cases u <;> exact .inr rfl

theorem IsLost.fits (hu : IsLost sign u) : Fits u := by
  rcases hu with rfl | rfl <;> trivial

end Unpacked

/-- A float that is the infinity of a sign, or no number at all. -/
def Lost (sign : Sign) (x : Float) : Prop :=
  IsLost sign x.toModel.unpack

section Floats

variable {sign : Sign} {x y : Float}

/-- A float that is lost takes every sum along that it begins. -/
theorem Lost.add_left (hx : Lost sign x) (y : Float) : Lost sign (x + y) := by
  have hsum := IsLost.add_left hx y.toModel.unpack
  rw [Lost, unpack_add hsum.fits]
  exact hsum

theorem Lost.add_right (hy : Lost sign y) (x : Float) : Lost sign (x + y) := by
  have hsum := IsLost.add_right hy x.toModel.unpack
  rw [Lost, unpack_add hsum.fits]
  exact hsum

theorem Lost.sub_left (hx : Lost sign x) (y : Float) : Lost sign (x - y) := by
  have hdifference := IsLost.add_left hx y.toModel.unpack.neg
  rw [← model_sub_eq] at hdifference
  rw [Lost, unpack_sub hdifference.fits]
  exact hdifference

/-- A float that is lost takes every difference along that it is subtracted in, to the opposite
    side. -/
theorem Lost.sub_right (hy : Lost sign y) (x : Float) : Lost (-sign) (x - y) := by
  have hdifference := IsLost.add_right (IsLost.neg hy) x.toModel.unpack
  rw [← model_sub_eq] at hdifference
  rw [Lost, unpack_sub hdifference.fits]
  exact hdifference

/-- A factor without a sign does not bring back a float that is lost. -/
theorem Lost.mul (hy : Lost sign y) (hx : IsUnsigned x.toModel.unpack) : Lost sign (x * y) := by
  have hproduct := IsLost.mul hy hx
  rw [Lost, unpack_mul hproduct.fits]
  exact hproduct

/-- Opposite infinities add to no number. -/
theorem Lost.isNaN_add (hx : Lost sign x) (hy : Lost (-sign) y) : (x + y).isNaN = true := by
  have hsum := IsLost.add_opposite hx hy
  change (x + y).toModel.unpack.isNaN = true
  rw [unpack_add (hsum ▸ trivial), hsum]
  rfl

theorem unpack_of_isNaN (hx : x.isNaN = true) : x.toModel.unpack = .notANumber := by
  change x.toModel.unpack.isNaN = true at hx
  match hu : x.toModel.unpack with
  | .notANumber => rfl
  | .infinity _ | .zero _ | .finite _ _ _ _ => rw [hu] at hx; cases hx

/-- Every float that is not finite is lost to one side. -/
theorem exists_lost (hx : x.isFinite = false) : ∃ sign, Lost sign x := by
  change x.toModel.unpack.isFinite = false at hx
  match hu : x.toModel.unpack with
  | .notANumber => exact ⟨.positive, .inr hu⟩
  | .infinity sign => exact ⟨sign, .inl hu⟩
  | .zero _ | .finite _ _ _ _ => rw [hu] at hx; cases hx

theorem isNaN_div (hx : x.isNaN = true) (y : Float) : (x / y).isNaN = true := by
  have hquotient : UnpackedFloat.div .binary64 x.toModel.unpack y.toModel.unpack = .notANumber := by
    rw [unpack_of_isNaN hx]
    rfl
  change (x / y).toModel.unpack.isNaN = true
  rw [unpack_div (hquotient ▸ trivial), hquotient]
  rfl

end Floats

end Candlewick.Decimal
