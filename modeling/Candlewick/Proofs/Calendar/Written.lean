import Candlewick.Calendar.Timestamp
import Candlewick.Proofs.Calendar.Days
import Candlewick.Proofs.Decimal.Reading

namespace Candlewick

open Decimal (AllDigits natural allDigits_toDigits allDigits_zeros natural_toDigits
  natural_zeros_append length_zeros)

namespace Text

theorem isBlank_eq_false_of_isDigit {c : Char} (hdigit : c.isDigit = true) : isBlank c = false := by
  simp only [Char.isDigit, Bool.and_eq_true, decide_eq_true_eq, UInt32.le_iff_toNat_le] at hdigit
  simp only [isBlank, Char.toNat, Bool.or_eq_false_iff, Bool.and_eq_false_iff, decide_eq_false_iff_not,
    beq_eq_false_iff_ne]
  have hlower : 48 ≤ c.val.toNat := hdigit.1
  have hupper : c.val.toNat ≤ 57 := hdigit.2
  omega

/-- A text without a blank at either end stays as it is. -/
theorem trimmed_of_ends {cs : List Char} (hfirst : ∀ c ∈ cs.head?, isBlank c = false)
    (hlast : ∀ c ∈ cs.getLast?, isBlank c = false) : trimmed cs = cs := by
  have hkept : ∀ {front : List Char}, (∀ c ∈ front.head?, isBlank c = false) →
      trimmedStart front = front := by
    intro front hfront
    cases front with
    | nil => rfl
    | cons c rest => exact List.dropWhile_cons_of_neg (by simp [hfront c rfl])
  rw [trimmed, hkept hfirst, hkept (by simpa using hlast), List.reverse_reverse]

end Text

namespace Calendar

/-- A number in decimal digits, with zeros in front up to a width. -/
def padded (width n : Nat) : List Char :=
  Decimal.zeros (width - (Nat.toDigits 10 n).length) ++ Nat.toDigits 10 n

theorem allDigits_padded (width n : Nat) : AllDigits (padded width n) :=
  (allDigits_zeros _).append (allDigits_toDigits n)

@[simp] theorem natural_padded (width n : Nat) : natural (padded width n) = n := by
  rw [padded, natural_zeros_append, natural_toDigits]

/-- A number that is small enough has just the width that it is padded to. -/
theorem length_padded {width n : Nat} (hwidth : 0 < width) (hn : n < 10 ^ width) :
    (padded width n).length = width := by
  have hlength := (Nat.length_toDigits_le_iff (by decide : 1 < 10) hwidth).2 hn
  rw [padded, List.length_append, length_zeros]
  omega

theorem padded_ne_nil (width n : Nat) : padded width n ≠ [] :=
  List.append_ne_nil_of_right_ne_nil _ Nat.toDigits_ne_nil

theorem exists_padded_eq_cons (width n : Nat) :
    ∃ c rest, padded width n = c :: rest ∧ c.isDigit = true := by
  obtain ⟨c, rest, hcons⟩ := List.exists_cons_of_ne_nil (padded_ne_nil width n)
  exact ⟨c, rest, hcons, allDigits_padded width n c (by rw [hcons]; exact List.mem_cons_self)⟩

section

variable {width n : Nat} (hwidth : 0 < width) (hn : n < 10 ^ width)
include hwidth hn

theorem digitsExactly?_padded (rest : List Char) :
    digitsExactly? width (padded width n ++ rest) = some (n, rest) := by
  have hlength := length_padded hwidth hn
  have hall : (padded width n).all Char.isDigit = true :=
    List.all_eq_true.2 (allDigits_padded width n)
  have hsplit : (padded width n ++ rest).take width = padded width n := List.take_left' hlength
  simp only [digitsExactly?, hsplit, hlength, hall, and_self, if_true, natural_padded,
    List.drop_left' hlength]

/-- A padded number is read back by a reader of up to its width, which leaves the digits behind
    it. -/
theorem digitsUpTo?_padded (rest : List Char) :
    digitsUpTo? width (padded width n ++ rest) = some (n, rest) := by
  have hlength := length_padded hwidth hn
  have htaken : ((padded width n ++ rest).take width).takeWhile Char.isDigit = padded width n := by
    rw [List.take_append_of_le_length hlength.ge, List.take_of_length_le hlength.le,
      List.takeWhile_eq_self_iff]
    exact allDigits_padded width n
  simp only [digitsUpTo?, htaken, padded_ne_nil, if_false, natural_padded, List.drop_left]

end

/-- Blanks may stand in front of a number, but need not. -/
theorem trimmedStart_padded (width n : Nat) (rest : List Char) :
    Text.trimmedStart (padded width n ++ rest) = padded width n ++ rest := by
  obtain ⟨c, more, hcons, hdigit⟩ := exists_padded_eq_cons width n
  rw [hcons]
  exact List.dropWhile_cons_of_neg (by simp [Text.isBlank_eq_false_of_isDigit hdigit])

/-- A year of four digits is read back, without a sign. -/
theorem year?_padded {year : Nat} (hyear : year < 10000) (rest : List Char) :
    year? (padded 4 year ++ rest) = some ((year : Int), rest) := by
  obtain ⟨c, more, hcons, hdigit⟩ := exists_padded_eq_cons 4 year
  have hread := digitsUpTo?_padded (by decide : 0 < 4) hyear rest
  rw [hcons] at hread ⊢
  rw [year?, hread]
  · rfl
  all_goals
    rintro behind hsign
    cases hsign
    cases hdigit

theorem after?_cons (c : Char) (rest : List Char) : after? c (c :: rest) = some rest :=
  if_pos rfl

namespace Date

/-- A date with the four digits of its year, and two for the month and the day. -/
def written (date : Date) : List Char :=
  padded 4 date.year.toNat ++ '-' :: (padded 2 date.month ++ '-' :: padded 2 date.day)

/-- A date of the calendar whose year has no more than four digits. -/
structure HasFourDigits (date : Date) : Prop where
  valid : date.isValid = true
  nonneg : 0 ≤ date.year
  lt : date.year < 10000

variable {date : Date}

theorem monthLength_le (year : Int) (month : Nat) : monthLength year month ≤ 31 := by
  unfold monthLength
  split
  · split <;> omega
  all_goals omega

theorem HasFourDigits.month_lt (hdate : date.HasFourDigits) : date.month < 10 ^ 2 := by
  obtain ⟨-, ⟨-, hmonth⟩, -⟩ := isValid_iff.1 hdate.valid
  omega

theorem HasFourDigits.day_lt (hdate : date.HasFourDigits) : date.day < 10 ^ 2 := by
  obtain ⟨-, -, -, hday⟩ := isValid_iff.1 hdate.valid
  have hlength := monthLength_le date.year date.month
  omega

theorem HasFourDigits.year_lt (hdate : date.HasFourDigits) : date.year.toNat < 10 ^ 4 := by
  have hlt := hdate.lt
  omega

/-- A date that can be written in four digits passes the check of dates that are read. -/
theorem HasFourDigits.checked? (hdate : date.HasFourDigits) : Date.checked? date = some date :=
  if_pos hdate.valid

theorem HasFourDigits.toNat_year (hdate : date.HasFourDigits) :
    (date.year.toNat : Int) = date.year :=
  Int.toNat_of_nonneg hdate.nonneg

end Date

/-- A date is read back if nothing stands behind it, and is no date on its own if anything does. -/
theorem date?_written {date : Date} (hdate : date.HasFourDigits) (rest : List Char) :
    date? (date.written ++ rest) = if rest = [] then some date else none := by
  have hsource : date.written ++ rest =
      padded 4 date.year.toNat ++ '-' :: (padded 2 date.month ++ '-' :: (padded 2 date.day ++ rest)) := by
    simp [Date.written]
  have hread := hdate.checked?
  rw [hsource, date?]
  simp only [year?_padded hdate.year_lt, Option.bind_eq_bind, Option.bind_some, after?_cons,
    trimmedStart_padded, digitsUpTo?_padded (by decide : 0 < 2) hdate.month_lt,
    digitsUpTo?_padded (by decide : 0 < 2) hdate.day_lt, hdate.toNat_year]
  split
  · exact hread
  · rfl

/-- What has a character other than a digit behind its first one is no whole number. -/
theorem integer?_eq_none {first : Char} {front back : List Char} {c : Char}
    (hc : c.isDigit = false) : integer? (first :: front ++ c :: back) = none := by
  have hmem : c ∈ (Decimal.signed (first :: front ++ c :: back)).2 := by
    unfold Decimal.signed
    split
    · rename_i hcons
      cases hcons
      simp
    · rename_i hcons
      cases hcons
      simp
    · simp
  have hall : (Decimal.signed (first :: front ++ c :: back)).2.all Char.isDigit = false := by
    rw [List.all_eq_false]
    exact ⟨c, hmem, by simp [hc]⟩
  simp only [integer?, hall, Bool.false_eq_true, false_and, and_false, if_false]

/-- A date is not a whole number, because of the dashes in it. -/
theorem integer?_written (date : Date) (rest : List Char) :
    integer? (date.written ++ rest) = none := by
  obtain ⟨c, more, hcons, -⟩ := exists_padded_eq_cons 4 date.year.toNat
  have hsource : date.written ++ rest = c :: more ++ '-' ::
      (padded 2 date.month ++ '-' :: (padded 2 date.day ++ rest)) := by
    simp [Date.written, hcons]
  rw [hsource]
  exact integer?_eq_none (by decide)

/-- A time of day. The digits of a fraction of a second follow a point; without any there is no
    point. -/
structure Clock where
  hour : Nat
  minute : Nat
  second : Nat
  fraction : List Char

namespace Clock

/-- A time that a day has; the last minute of a day can have a second more. -/
structure IsValid (clock : Clock) : Prop where
  hour : clock.hour < 24
  minute : clock.minute < 60
  second : clock.second ≤ 60
  fraction : AllDigits clock.fraction

/-- The point and the digits of a fraction. -/
def writtenFraction (clock : Clock) : List Char :=
  if clock.fraction = [] then [] else '.' :: clock.fraction

def written (clock : Clock) : List Char :=
  padded 2 clock.hour ++ ':' :: (padded 2 clock.minute ++ ':' ::
    (padded 2 clock.second ++ clock.writtenFraction))

/-- The milliseconds since midnight; of a fraction the first three digits count. -/
def milliseconds (clock : Clock) : Milliseconds :=
  ((clock.hour * 60 + clock.minute) * 60 + clock.second : Nat) * 1000 +
    natural ((clock.fraction ++ ['0', '0', '0']).take 3)

end Clock

/-- A distance from universal time in hours and minutes. -/
structure Distance where
  hours : Nat
  minutes : Nat

namespace Distance

structure IsValid (distance : Distance) : Prop where
  hours : distance.hours < 24
  minutes : distance.minutes < 60

def written (distance : Distance) : List Char :=
  padded 2 distance.hours ++ ':' :: padded 2 distance.minutes

def milliseconds (distance : Distance) : Milliseconds :=
  (distance.hours * 60 + distance.minutes : Nat) * 60000

end Distance

/-- A fraction is read to three digits, as if it went on with zeros. -/
theorem fraction?_append {digits rest : List Char} (hdigits : AllDigits digits)
    (hne : digits ≠ []) (hrest : ∀ c ∈ rest.head?, c.isDigit = false) :
    fraction? (digits ++ rest) =
      some ((natural ((digits ++ ['0', '0', '0']).take 3) : Milliseconds), rest) := by
  have hspan := Decimal.span_append hdigits hrest
  rw [List.span_eq_takeWhile_dropWhile, Prod.mk.injEq] at hspan
  obtain ⟨first, more, rfl⟩ := List.exists_cons_of_ne_nil hne
  have htaken : (first :: more ++ ['0', '0'] ++ ['0']).take 3 =
      (first :: more ++ ['0', '0']).take 3 := List.take_append_of_le_length (by simp)
  rw [List.append_assoc] at htaken
  simp only [fraction?, hspan.1, hspan.2, if_neg hne, ← htaken]
  rfl

/-- A time of day is read back, up to what is neither a digit nor a point. -/
theorem time?_written {clock : Clock} (hclock : clock.IsValid) {rest : List Char}
    (hrest : ∀ c ∈ rest.head?, c.isDigit = false ∧ c ≠ '.') :
    time? (clock.written ++ rest) = some (clock.milliseconds, rest) := by
  obtain ⟨hhour, hminute, hsecond, hfraction⟩ := hclock
  have hsource : clock.written ++ rest = padded 2 clock.hour ++ ':' :: (padded 2 clock.minute ++
      ':' :: (padded 2 clock.second ++ (clock.writtenFraction ++ rest))) := by
    simp [Clock.written]
  rw [hsource, time?]
  simp only [digitsExactly?_padded (by decide : 0 < 2) (by omega : clock.hour < 10 ^ 2),
    digitsExactly?_padded (by decide : 0 < 2) (by omega : clock.minute < 10 ^ 2),
    digitsExactly?_padded (by decide : 0 < 2) (by omega : clock.second < 10 ^ 2),
    Option.bind_eq_bind, Option.bind_some, after?_cons, hhour, hminute, hsecond, and_self, if_true]
  unfold Clock.writtenFraction Clock.milliseconds
  by_cases hempty : clock.fraction = []
  · rw [if_pos hempty, hempty, List.nil_append]
    split
    · exact absurd rfl (hrest '.' rfl).2
    · rfl
  · rw [if_neg hempty, List.cons_append]
    simp only [fraction?_append hfraction hempty fun c hc => (hrest c hc).1, Option.bind_some]

/-- A distance from universal time is read back from its hours and minutes. -/
theorem distance?_written {distance : Distance} (hdistance : distance.IsValid) :
    distance? distance.written = some (distance.milliseconds, []) := by
  obtain ⟨hhours, hminutes⟩ := hdistance
  have hlast := digitsExactly?_padded (by decide : 0 < 2) (by omega : distance.minutes < 10 ^ 2) []
  rw [List.append_nil] at hlast
  rw [distance?, Distance.written]
  simp only [digitsExactly?_padded (by decide : 0 < 2) (by omega : distance.hours < 10 ^ 2),
    Option.bind_eq_bind, Option.bind_some, after?_cons, hlast, hhours, hminutes, and_self, if_true]
  rfl

end Calendar

end Candlewick
