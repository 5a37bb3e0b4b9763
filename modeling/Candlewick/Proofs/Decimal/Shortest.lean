import Candlewick.Proofs.Decimal.Interval

namespace Candlewick.Decimal

/-- Zeros at the end of the digits say nothing but the exponent. -/
theorem Digits.value_stripped (d : Digits) : d.stripped.value = d.value := by
  induction d using Digits.stripped.induct with
  | case1 d hzero ih =>
    rw [stripped, dif_pos hzero, ih]
    have hdigits : (d.digits : ℚ) = 10 * (d.digits / 10 : ℕ) := by
      exact_mod_cast (by omega : d.digits = 10 * (d.digits / 10))
    rw [value, value, hdigits, zpow_add_one₀ (by norm_num)]
    ring
  | case2 d hzero => rw [stripped, dif_neg hzero]

namespace Binary

variable {b : Binary} {d : Digits}

/-- The interval of a magnitude lies around it. -/
theorem covers_self (b : Binary) : b.Covers (b.significand * 2 ^ b.exponent) := by
  have hpos : (0 : ℚ) < 2 ^ b.exponent := by positivity
  have hself : 4 * ((b.significand : ℚ) * 2 ^ b.exponent) =
      (4 * b.significand : ℕ) * 2 ^ b.exponent := by
    push_cast
    ring
  constructor
  · rw [hself, lower, mul_le_mul_iff_of_pos_right hpos, Nat.cast_le]
    exact Nat.sub_le _ _
  · rw [hself, upper, mul_le_mul_iff_of_pos_right hpos, Nat.cast_le]
    exact Nat.le_add_right _ _
  · intro hodd
    rw [hself, lower, upper, mul_lt_mul_iff_of_pos_right hpos, mul_lt_mul_iff_of_pos_right hpos,
      Nat.cast_lt, Nat.cast_lt]
    split <;> omega

/-- The exact decimal of a magnitude has the value of the magnitude. -/
theorem value_exact (b : Binary) : b.exact.value = b.significand * 2 ^ b.exponent := by
  unfold exact
  split
  · rename_i hexponent
    obtain ⟨exponent, hexponent⟩ := Int.eq_ofNat_of_zero_le hexponent
    simp [Digits.value, hexponent]
  · obtain ⟨exponent, hexponent⟩ : ∃ exponent : ℕ, b.exponent = -exponent :=
      ⟨(-b.exponent).toNat, by omega⟩
    have hten : ((10 : ℚ) ^ exponent) = 5 ^ exponent * 2 ^ exponent := by
      rw [← mul_pow]
      norm_num
    simp only [Digits.value, hexponent, neg_neg, Int.toNat_natCast, Nat.pow_eq, Nat.cast_mul,
      Nat.cast_pow, Nat.cast_ofNat, zpow_neg, zpow_natCast, hten]
    field_simp

/-- A decimal is taken only where it reads back. -/
theorem covers_of_onGrid? {tie : Tie} {grid : Int} (hd : b.onGrid? tie grid = some d) :
    b.Covers d.value := by
  have htaken : ∀ digits : Nat, b.readsBack grid digits = true →
      some (Digits.mk digits grid) = some d → b.Covers d.value := by
    rintro digits hreads ⟨⟩
    exact readsBack_iff.1 hreads
  unfold onGrid? at hd
  simp only at hd
  split at hd
  · cases hd
  · exact htaken _ ‹_› hd
  · exact htaken _ ‹_› hd
  · rename_i hbelow habove
    split at hd
    · exact htaken _ hbelow hd
    · exact htaken _ habove hd
    · exact htaken _ habove hd
    · split at hd
      · exact htaken _ hbelow hd
      · exact htaken _ habove hd

/-- The shortest decimal of a float rounds to it. -/
theorem covers_shortest (tie : Tie) (b : Binary) : b.Covers (shortest tie b).value := by
  unfold shortest
  rw [Digits.value_stripped]
  cases hfound : (List.range 17).findSome? fun count =>
      b.onGrid? tie (b.scale - (count + 1 : Nat)) with
  | none =>
    rw [Option.getD_none, value_exact]
    exact b.covers_self
  | some d =>
    obtain ⟨_, -, hcount⟩ := List.exists_of_findSome?_eq_some hfound
    exact covers_of_onGrid? hcount

/-- The two magnitudes of an exponent that are next to a decimal. -/
def nextTo (d : Digits) (exponent : Int) : List Binary :=
  let (numerator, denominator) := ratio ⟨1, exponent⟩ d.exponent
  let below := d.digits * denominator / numerator
  [⟨below, exponent⟩, ⟨below + 1, exponent⟩]

/-- The exponents of finite floats. -/
def exponents : List Int :=
  (List.range 2046).map fun (step : Nat) => leastExponent + (step : Int)

/-- The magnitude that a decimal rounds to. -/
def ofDigits? (d : Digits) : Option Binary :=
  (exponents.flatMap (nextTo d)).find? fun b =>
    decide b.IsCanonical && b.readsBack d.exponent d.digits

/-- The search for the magnitude of a decimal goes through every exponent that a float can have. -/
theorem mem_exponents {exponent : Int} (hleast : leastExponent ≤ exponent)
    (hgreatest : exponent ≤ 971) : exponent ∈ exponents := by
  simp only [exponents, leastExponent, List.mem_map, List.mem_range] at hleast ⊢
  exact ⟨(exponent + 1074).toNat, by omega, by omega⟩

/-- Around a magnitude the interval is not wider than the step to the next one. -/
theorem mem_nextTo (hcovers : b.Covers d.value) : b ∈ nextTo d b.exponent := by
  have hlower := (mul_ratio_le_iff b d.exponent d.digits _).1.2 hcovers.lower_le
  have hupper := (mul_ratio_le_iff b d.exponent d.digits _).2.2 hcovers.le_upper
  have hpos : 0 < (b.ratio d.exponent).1 := by simp [ratio]
  change b ∈ [Binary.mk (d.digits * (b.ratio d.exponent).2 / (b.ratio d.exponent).1) b.exponent,
    Binary.mk (d.digits * (b.ratio d.exponent).2 / (b.ratio d.exponent).1 + 1) b.exponent]
  generalize (b.ratio d.exponent).1 = numerator at hlower hupper hpos ⊢
  rw [mul_assoc] at hlower hupper
  generalize d.digits * (b.ratio d.exponent).2 = point at hlower hupper ⊢
  have hbelow : 4 * (point / numerator) ≤ 4 * b.significand + 2 := by
    refine Nat.le_of_mul_le_mul_right (Nat.le_trans ?_ hupper) hpos
    rw [mul_assoc]
    exact Nat.mul_le_mul_left 4 (Nat.div_mul_le_self point numerator)
  have habove : 4 * b.significand - (if b.narrowBelow then 1 else 2) <
      4 * (point / numerator + 1) := by
    refine Nat.lt_of_mul_lt_mul_right (a := numerator) (Nat.lt_of_le_of_lt hlower ?_)
    rw [mul_assoc, mul_comm _ numerator]
    have := Nat.lt_mul_div_succ point hpos
    omega
  obtain hsignificand | hsignificand :
      b.significand = point / numerator ∨ b.significand = point / numerator + 1 := by
    split at habove <;> omega
  · simp [← hsignificand]
  · simp [← hsignificand]

/-- A float is found from any decimal that rounds to it. -/
theorem ofDigits?_of_covers (hb : b.IsCanonical) (hgreatest : b.exponent ≤ 971)
    (hcovers : b.Covers d.value) : ofDigits? d = some b := by
  have hmem : b ∈ exponents.flatMap (nextTo d) :=
    List.mem_flatMap.2 ⟨_, mem_exponents hb.least_le hgreatest, mem_nextTo hcovers⟩
  have hcheck : (decide b.IsCanonical && b.readsBack d.exponent d.digits) = true := by
    simp [hb, readsBack_iff.2 hcovers]
  cases hfound : ofDigits? d with
  | none => exact absurd hcheck (List.find?_eq_none.1 hfound b hmem)
  | some b' =>
    have hcheck' := List.find?_some hfound
    simp only [Bool.and_eq_true, decide_eq_true_eq, readsBack_iff] at hcheck'
    rw [hcovers.unique hb hcheck'.1 hcheck'.2]

end Binary

end Candlewick.Decimal
