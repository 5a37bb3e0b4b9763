import Candlewick.Proofs.Decimal.Exactness

open Float.Model (UnpackedFloat)
open Float.Model.UnpackedFloat (Sign)

namespace Candlewick.Decimal

/-- A float stands for a number. -/
def Represents (x : Float) (v : ℚ) : Prop :=
  value? x.toModel.unpack = some v

/-- A float that is not minus zero. -/
def IsPlain (x : Float) : Prop :=
  x.toModel.unpack ≠ .zero .negative

section Floats

variable {x y : Float} {v w : ℚ}

theorem Represents.holds (h : Represents x v) : Holds x.toModel.unpack v :=
  ⟨fits_unpack x, h⟩

/-- A sum that a float can stand for is exact, and it is plain if its first part is. -/
theorem Represents.add (hx : Represents x v) (hy : Represents y w)
    (hrepresentable : Representable (v + w)) :
    Represents (x + y) (v + w) ∧ (IsPlain x → IsPlain (x + y)) := by
  obtain ⟨hsum, hplain⟩ := hx.holds.add hy.holds hrepresentable
  rw [Represents, IsPlain, IsPlain, unpack_add hsum.fits]
  exact ⟨hsum.value_eq, hplain⟩

theorem Represents.sub (hx : Represents x v) (hy : Represents y w)
    (hrepresentable : Representable (v - w)) : Represents (x - y) (v - w) := by
  have hdifference := hx.holds.sub hy.holds hrepresentable
  rw [Represents, unpack_sub hdifference.fits]
  exact hdifference.value_eq

theorem Represents.mul (hx : Represents x v) (hy : Represents y w)
    (hrepresentable : Representable (v * w)) : Represents (x * y) (v * w) := by
  have hproduct := hx.holds.mul hy.holds hrepresentable
  rw [Represents, unpack_mul hproduct.fits]
  exact hproduct.value_eq

/-- Two plain floats that stand for one number are the same float. -/
theorem Represents.unique (hx : Represents x v) (hy : Represents y v) (hplain : IsPlain x)
    (hplain' : IsPlain y) : x = y :=
  eq_of_unpack_eq (hx.holds.unique hy.holds hplain hplain')

theorem unpack_one :
    (1 : Float).toModel.unpack = .finite .positive (2 ^ 52) (-52) (Nat.two_pow_pos 52) :=
  rfl

/-- Division by one gives every float back, also the infinities and no number. -/
theorem float_div_one (x : Float) : x / 1 = x := by
  have hquotient := (fits_unpack x).div_one
  apply eq_of_unpack_eq
  rw [unpack_div] <;> rw [unpack_one, hquotient]
  exact fits_unpack x

/-- Floats that stand for the same number are equal, of whatever sign a zero is. -/
theorem Represents.beq (hx : Represents x v) (hy : Represents y v) : (x == y) = true := by
  change UnpackedFloat.beq x.toModel.unpack y.toModel.unpack = true
  have hu := hx.holds
  have hu' := hy.holds
  generalize x.toModel.unpack = u at hu
  generalize y.toModel.unpack = u' at hu'
  match u, u' with
  | .zero _, .zero _ => rfl
  | .zero _, .finite _ _ _ _ => exact absurd (Option.some.inj hu.value_eq).symm hu'.ne_zero
  | .finite _ _ _ _, .zero _ => exact absurd (Option.some.inj hu'.value_eq).symm hu.ne_zero
  | .finite sign _ _ _, .finite _ _ _ _ =>
    cases hu.unique hu' nofun nofun
    rw [UnpackedFloat.beq, compare_self_of_finite]
    rfl
  | .infinity _, _ | .notANumber, _ => cases hu.value_eq
  | _, .infinity _ | _, .notANumber => cases hu'.value_eq

/-- The number that a float stands for; zero if it stands for none. -/
def toRat (x : Float) : ℚ :=
  (value? x.toModel.unpack).getD 0

/-- A finite float stands for its own value. -/
theorem represents_toRat (hx : x.isFinite = true) : Represents x (toRat x) := by
  change x.toModel.unpack.isFinite = true at hx
  rw [Represents, toRat]
  match hu : x.toModel.unpack with
  | .zero _ | .finite _ _ _ _ => rfl
  | .infinity _ | .notANumber => rw [hu] at hx; cases hx

/-- A float stands for one number only, which is its value. -/
theorem Represents.toRat_eq (hx : Represents x v) : toRat x = v := by
  rw [toRat, hx]
  rfl

/-- A float that stands for a number is finite. -/
theorem Represents.isFinite (hx : Represents x v) : x.isFinite = true := by
  change x.toModel.unpack.isFinite = true
  rw [Represents] at hx
  match hu : x.toModel.unpack with
  | .zero _ | .finite _ _ _ _ => rfl
  | .infinity _ | .notANumber => rw [hu] at hx; cases hx

theorem represents_one : Represents 1 1 := by
  rw [Represents, unpack_one, value?, Option.some_inj]
  norm_num [Sign.apply]

/-- A word below `2 ^ 53` is cast to a float without a loss. -/
theorem represents_toFloat {word : UInt64} (hword : word.toNat < 2 ^ 53) :
    Represents word.toFloat word.toNat := by
  have hrepresentable : Representable ((word.toNat : ℤ) * 2 ^ (0 : ℤ)) :=
    representable_mul_two_pow hword (by decide) (by decide)
  obtain ⟨hholds, -⟩ := holds_normalize hrepresentable
  have hunpack : word.toFloat.toModel.unpack = UnpackedFloat.unpack .binary64
      (UnpackedFloat.pack .binary64 (UnpackedFloat.normalize .binary64 word.toNat 0 .positive)) := rfl
  rw [Represents, hunpack, hholds.fits.unpack_pack, hholds.value_eq, zpow_zero, mul_one,
    Int.cast_natCast]

/-- The whole numbers below `2 ^ 53` are floats. -/
theorem represents_ofNat {n : Nat} (hn : n < 2 ^ 53) : Represents (Float.ofNat n) n := by
  have hn' : n.toUInt64.toNat = n := UInt64.toNat_ofNat_of_lt (hn.trans (by decide))
  have hword : Represents n.toUInt64.toFloat n.toUInt64.toNat :=
    represents_toFloat (hn'.symm ▸ hn)
  rw [hn'] at hword
  have hproduct := hword.mul represents_one ((mul_one (n : ℚ)).symm ▸ ⟨_, hword.holds⟩)
  rw [mul_one] at hproduct
  have hfast : Float.ofNat n = n.toUInt64.toFloat * 1 := by
    change Float.ofScientific n false 0 = _
    rw [Float.ofScientific, dif_pos ⟨hn, by decide⟩]
    rfl
  rw [hfast]
  exact hproduct

end Floats

end Candlewick.Decimal
