import Candlewick.Calendar.Date

namespace Candlewick.Calendar

/-- The number of days of a year. -/
def yearLength (year : Int) : Nat :=
  if isLeapYear year then 366 else 365

/-- The rule of the Gregorian calendar: every fourth year, but of the full centuries only every
    fourth. -/
theorem isLeapYear_iff {year : Int} :
    isLeapYear year = true ↔ year % 4 = 0 ∧ (year % 100 ≠ 0 ∨ year % 400 = 0) := by
  simp [isLeapYear]

/-- A year is as long as the days from its beginning to that of the next one. -/
theorem daysBeforeYear_add_one (year : Int) :
    daysBeforeYear (year + 1) = daysBeforeYear year + yearLength year := by
  have hleap := @isLeapYear_iff year
  unfold daysBeforeYear yearLength
  split
  · have := hleap.1 (by assumption)
    simp only
    omega
  · have : ¬ (year % 4 = 0 ∧ (year % 100 ≠ 0 ∨ year % 400 = 0)) := by
      rw [← hleap]
      assumption
    simp only
    omega

theorem daysBeforeMonth_one (year : Int) : daysBeforeMonth year 1 = 0 := rfl

/-- A month is as long as the days from its beginning to that of the next one. -/
theorem daysBeforeMonth_add_one (year : Int) {month : Nat} (hmonth : 1 ≤ month) :
    daysBeforeMonth year (month + 1) = daysBeforeMonth year month + monthLength year month := by
  obtain ⟨earlier, rfl⟩ := Nat.exists_eq_add_of_le' hmonth
  rw [daysBeforeMonth, daysBeforeMonth, Nat.add_sub_cancel, Nat.add_sub_cancel,
    List.range_succ, List.foldl_append]
  rfl

/-- The months of a year make up the year. -/
theorem daysBeforeMonth_thirteen (year : Int) : daysBeforeMonth year 13 = yearLength year := by
  have hrange : List.range 12 = [0, 1, 2, 3, 4, 5, 6, 7, 8, 9, 10, 11] := rfl
  unfold daysBeforeMonth yearLength
  rw [hrange]
  cases hleap : isLeapYear year <;> simp [monthLength, hleap]

/-- A later month of a year has at least as many days in front of it. -/
theorem daysBeforeMonth_mono (year : Int) {one other : Nat} (hone : 1 ≤ one) (hle : one ≤ other) :
    daysBeforeMonth year one ≤ daysBeforeMonth year other := by
  obtain ⟨months, rfl⟩ := Nat.exists_eq_add_of_le hle
  induction months with
  | zero => exact Nat.le_refl _
  | succ months ih =>
    have hearlier := ih (Nat.le_add_right _ _)
    rw [← Nat.add_assoc, daysBeforeMonth_add_one year (by omega)]
    omega

/-- A later year has at least as many days in front of it. -/
theorem daysBeforeYear_mono {one other : Int} (hle : one ≤ other) :
    daysBeforeYear one ≤ daysBeforeYear other := by
  obtain ⟨years, rfl⟩ := Int.le.dest hle
  induction years with
  | zero => simp
  | succ years ih =>
    have hnext := daysBeforeYear_add_one (one + years)
    have hprevious := ih (by omega)
    rw [Int.add_assoc] at hnext
    push_cast
    omega

namespace Date

/-- A date comes before another one. -/
def Before (one other : Date) : Prop :=
  one.year < other.year ∨ one.year = other.year ∧
    (one.month < other.month ∨ one.month = other.month ∧ one.day < other.day)

/-- The day after a date. -/
def next (date : Date) : Date :=
  if date.day < monthLength date.year date.month then
    { date with day := date.day + 1 }
  else if date.month < 12 then
    ⟨date.year, date.month + 1, 1⟩
  else
    ⟨date.year + 1, 1, 1⟩

/-- A date is valid if its year is in the calendar, its month in the year and its day in the
    month. -/
theorem isValid_iff {date : Date} : date.isValid = true ↔ hasYear date.year = true ∧
    (1 ≤ date.month ∧ date.month ≤ 12) ∧
    1 ≤ date.day ∧ date.day ≤ monthLength date.year date.month := by
  simp [isValid, and_assoc]

/-- A date lies within its month. -/
theorem day_le_of_isValid {date : Date} (hvalid : date.isValid = true) :
    daysBeforeMonth date.year date.month + date.day ≤
      daysBeforeMonth date.year (date.month + 1) := by
  obtain ⟨-, ⟨hmonth, -⟩, -, hday⟩ := isValid_iff.1 hvalid
  rw [daysBeforeMonth_add_one _ hmonth]
  omega

/-- A date lies within its year. -/
theorem day_le_yearLength_of_isValid {date : Date} (hvalid : date.isValid = true) :
    daysBeforeMonth date.year date.month + date.day ≤ yearLength date.year := by
  obtain ⟨-, ⟨-, hmonth⟩, -⟩ := isValid_iff.1 hvalid
  have hmonths := @daysBeforeMonth_mono date.year (date.month + 1) 13 (by omega) (by omega)
  rw [daysBeforeMonth_thirteen] at hmonths
  exact Nat.le_trans (day_le_of_isValid hvalid) hmonths

/-- The day after a date has the next number. -/
theorem dayNumber_next {date : Date} (hvalid : date.isValid = true) :
    date.next.dayNumber = date.dayNumber + 1 := by
  obtain ⟨-, ⟨hmonth, hlast⟩, hday, hend⟩ := isValid_iff.1 hvalid
  rcases date with ⟨year, month, day⟩
  simp only at hmonth hlast hday hend
  simp only [next, dayNumber]
  split
  · push_cast
    omega
  · split
    · rw [daysBeforeMonth_add_one _ hmonth]
      push_cast
      omega
    · obtain rfl : month = 12 := by omega
      have hyear := daysBeforeMonth_add_one year hmonth
      rw [daysBeforeMonth_thirteen] at hyear
      rw [daysBeforeYear_add_one, daysBeforeMonth_one]
      push_cast
      omega

/-- A later date has a greater number. -/
theorem dayNumber_lt_of_before {one other : Date} (hone : one.isValid = true)
    (hother : other.isValid = true) (hbefore : one.Before other) :
    one.dayNumber < other.dayNumber := by
  obtain ⟨-, ⟨hmonth, -⟩, -, -⟩ := isValid_iff.1 hone
  obtain ⟨-, -, hday, -⟩ := isValid_iff.1 hother
  unfold dayNumber
  rcases hbefore with hyear | ⟨hyear, hmonths | ⟨hmonths, hdays⟩⟩
  · have hyears := @daysBeforeYear_mono (one.year + 1) other.year (by omega)
    have hwithin := day_le_yearLength_of_isValid hone
    rw [daysBeforeYear_add_one] at hyears
    omega
  · have hmono := @daysBeforeMonth_mono one.year (one.month + 1) other.month (by omega) hmonths
    have hwithin := day_le_of_isValid hone
    rw [← hyear]
    omega
  · rw [← hyear, ← hmonths]
    omega

/-- The number of a date has no more than nine digits. -/
theorem dayNumber_bounds {date : Date} (hvalid : date.isValid = true) :
    -100000000 ≤ date.dayNumber ∧ date.dayNumber ≤ 100000000 := by
  obtain ⟨hyear, -, hday, -⟩ := isValid_iff.1 hvalid
  have hwithin := day_le_yearLength_of_isValid hvalid
  have hyears : -262143 ≤ date.year ∧ date.year ≤ 262142 := of_decide_eq_true hyear
  have hlength : yearLength date.year ≤ 366 := by
    unfold yearLength
    split <;> omega
  unfold dayNumber daysBeforeYear epochDays
  simp only
  omega

end Date

end Candlewick.Calendar
