import Candlewick.Calendar.Timestamp
import Candlewick.Proofs.Calendar.Days
import Candlewick.Proofs.Decimal.Reading

namespace Candlewick

open Decimal (AllDigits natural allDigits_zeros)

namespace Calendar

theorem natural_concat (digits : List Char) (c : Char) :
    natural (digits ++ [c]) = 10 * natural digits + (c.toNat - '0'.toNat) := by
  rw [natural, List.foldl_append]
  rfl

/-- A number has no more than its digits. -/
theorem natural_lt {digits : List Char} (hdigits : AllDigits digits) :
    natural digits < 10 ^ digits.length := by
  induction digits using List.reverseRecOn with
  | nil => decide
  | append_singleton digits c ih =>
    have hc := hdigits c (by simp)
    have hle : c.toNat ≤ '9'.toNat := by
      simp only [Char.isDigit, Bool.and_eq_true, decide_eq_true_eq] at hc
      exact hc.2
    have hnine : '9'.toNat - '0'.toNat = 9 := rfl
    have hrest := ih fun c hmem => hdigits c (List.mem_append_left _ hmem)
    rw [natural_concat, List.length_append, List.length_singleton, Nat.pow_succ]
    omega

/-- A fraction is read as milliseconds, less than a second of them. -/
theorem fraction?_bounds {cs rest : List Char} {fraction : Int}
    (hread : fraction? cs = some (fraction, rest)) : 0 ≤ fraction ∧ fraction < 1000 := by
  unfold fraction? at hread
  simp only at hread
  split at hread
  · cases hread
  · cases hread
    have hdigits : AllDigits ((cs.takeWhile Char.isDigit ++ ['0', '0']).take 3) := by
      refine Decimal.AllDigits.take (Decimal.AllDigits.append ?_ (allDigits_zeros 2)) 3
      exact List.all_eq_true.1 List.all_takeWhile
    have hlength := List.length_take_le 3 (cs.takeWhile Char.isDigit ++ ['0', '0'])
    have hlt := Nat.lt_of_lt_of_le (natural_lt hdigits)
      (Nat.pow_le_pow_right (by decide : 0 < 10) hlength)
    exact ⟨Int.natCast_nonneg _, Int.ofNat_lt.2 hlt⟩

/-- A time of day lies within a day and a second. -/
theorem time?_bounds {cs rest : List Char} {time : Int}
    (hread : time? cs = some (time, rest)) : 0 ≤ time ∧ time < 86402000 := by
  unfold time? at hread
  simp only [Option.bind_eq_bind, Option.bind_eq_some_iff, Prod.exists] at hread
  obtain ⟨hour, _, -, _, -, minute, _, -, _, -, second, behind, -, hread⟩ := hread
  have hwithin : ∀ (fraction : Int) (left : List Char), 0 ≤ fraction ∧ fraction < 1000 →
      (if hour < 24 ∧ minute < 60 ∧ second ≤ 60 then
        some ((((hour * 60 + minute) * 60 + second : Nat) * 1000 + fraction : Int), left)
      else none) = some (time, rest) → 0 ≤ time ∧ time < 86402000 := by
    intro fraction left hfraction hsome
    split at hsome
    · cases hsome
      omega
    · cases hsome
  split at hread
  · obtain ⟨⟨fraction, left⟩, hfraction, hwhole⟩ := Option.bind_eq_some_iff.1 hread
    exact hwithin fraction left (fraction?_bounds hfraction) hwhole
  · exact hwithin 0 behind (by decide) hread

/-- A distance from universal time is less than a day. -/
theorem distance?_bounds {cs rest : List Char} {distance : Int}
    (hread : distance? cs = some (distance, rest)) : 0 ≤ distance ∧ distance < 86400000 := by
  unfold distance? at hread
  simp only [Option.bind_eq_bind, Option.bind_eq_some_iff, Prod.exists] at hread
  obtain ⟨hours, _, -, _, -, minutes, behind, -, hread⟩ := hread
  split at hread
  · have hwhole : some (((hours * 60 + minutes : Nat) * 60000 : Int), behind) =
        some (distance, rest) := hread
    cases hwhole
    omega
  · cases hread

/-- An offset is less than a day to either side. -/
theorem offset?_bounds {cs rest : List Char} {offset : Int}
    (hread : offset? cs = some (offset, rest)) : -86400000 < offset ∧ offset < 86400000 := by
  unfold offset? at hread
  split at hread
  · cases hread
  · split at hread
    · cases hread
      decide
    · split at hread
      · have := distance?_bounds hread
        omega
      · split at hread
        · obtain ⟨⟨distance, left⟩, hdistance, hsame⟩ := Option.map_eq_some_iff.1 hread
          have := distance?_bounds hdistance
          cases hsame
          omega
        · cases hread

/-- What the calendar has not is no date. -/
theorem isValid_of_checked? {written date : Date} (hchecked : written.checked? = some date) :
    date.isValid = true := by
  unfold Date.checked? at hchecked
  split at hchecked
  · rename_i hvalid
    cases hchecked
    exact hvalid
  · cases hchecked

/-- Only valid dates are read. -/
theorem isValid_of_date? {cs : List Char} {date : Date} (hread : date? cs = some date) :
    date.isValid = true := by
  unfold date? at hread
  simp only [Option.bind_eq_bind, Option.bind_eq_some_iff, Prod.exists] at hread
  obtain ⟨year, _, -, _, -, month, _, -, _, -, day, _, -, hread⟩ := hread
  split at hread
  · exact isValid_of_checked? hread
  · cases hread

/-- A moment is read only if its timestamp is a whole number of 64 bits, since the years of the
    calendar are few enough. -/
theorem moment?_bounds {cs : List Char} {t : Int} (hread : moment? cs = some t) :
    -integerBound ≤ t ∧ t < integerBound := by
  unfold moment? at hread
  simp only [Option.bind_eq_bind, Option.bind_eq_some_iff, Prod.exists] at hread
  obtain ⟨_, _, -, _, -, _, _, -, _, -, _, _, -, _, -, time, _, htime, offset, _, hoffset, date,
    hdate, hread⟩ := hread
  have hday := Date.dayNumber_bounds (isValid_of_checked? hdate)
  have hwithin := time?_bounds htime
  have hdistance := offset?_bounds hoffset
  split at hread
  · cases hread
    unfold dayLength integerBound
    omega
  · cases hread

/-- A whole number is read only if it has 64 bits. -/
theorem integer?_bounds {cs : List Char} {n : Int} (hread : integer? cs = some n) :
    -integerBound ≤ n ∧ n < integerBound := by
  simp only [integer?, Option.ite_none_right_eq_some, Option.some.injEq] at hread
  obtain ⟨⟨-, -, hbounds⟩, rfl⟩ := hread
  exact hbounds

/-- Every timestamp is a whole number of 64 bits. -/
theorem timestamp?_bounds {raw : String} {t : Int} (hread : timestamp? raw = some t) :
    -integerBound ≤ t ∧ t < integerBound := by
  rcases (Option.orElse_eq_some _ _ _).1 hread with hinteger | ⟨-, hread⟩
  · exact integer?_bounds hinteger
  · rcases (Option.orElse_eq_some _ _ _).1 hread with hdate | ⟨-, hmoment⟩
    · obtain ⟨date, hdate, hsame⟩ := Option.map_eq_some_iff.1 hdate
      have hday := Date.dayNumber_bounds (isValid_of_date? hdate)
      cases hsame
      unfold dayLength integerBound
      omega
    · exact moment?_bounds hmoment

end Calendar

end Candlewick
