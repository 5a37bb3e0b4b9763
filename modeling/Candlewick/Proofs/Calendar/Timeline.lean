import Candlewick.Proofs.Calendar.Range
import Candlewick.Proofs.Calendar.Written

namespace Candlewick

open Decimal (AllDigits allDigits_toDigits natural_toDigits)

namespace Calendar

/-- A date and a time of day, with the character between them. -/
structure Instant where
  date : Date
  separator : Char
  clock : Clock

namespace Instant

structure IsValid (instant : Instant) : Prop where
  date : instant.date.HasFourDigits
  separator : instant.separator = 'T' ∨ instant.separator = 't' ∨ instant.separator = ' '
  clock : instant.clock.IsValid

def written (instant : Instant) : List Char :=
  instant.date.written ++ instant.separator :: instant.clock.written

/-- The milliseconds from the start of 1970, on a clock of universal time. -/
def milliseconds (instant : Instant) : Milliseconds :=
  instant.date.dayNumber * dayLength + instant.clock.milliseconds

end Instant

/-- The distance of a clock from universal time: none, ahead of it or behind it. -/
inductive Zone where
  | universal
  | ahead (distance : Distance)
  | behind (distance : Distance)

namespace Zone

def written : Zone → List Char
  | universal => ['Z']
  | ahead distance => '+' :: distance.written
  | behind distance => '-' :: distance.written

def offset : Zone → Milliseconds
  | universal => 0
  | ahead distance => distance.milliseconds
  | behind distance => -distance.milliseconds

def IsValid : Zone → Prop
  | universal => True
  | ahead distance | behind distance => distance.IsValid

theorem offset?_written {zone : Zone} (hzone : zone.IsValid) :
    offset? zone.written = some (zone.offset, []) := by
  cases zone with
  | universal => rfl
  | ahead distance => exact distance?_written hzone
  | behind distance =>
    have hread := distance?_written hzone
    have hoffset : offset? ('-' :: distance.written) =
        (distance? distance.written).map fun read => (-read.1, read.2) := rfl
    rw [written, hoffset, hread]
    rfl

/-- What begins the text of a clock's offset is neither a digit nor a point, so no fraction of a
    second runs into it. -/
theorem head?_written (zone : Zone) :
    ∀ c ∈ zone.written.head?, c.isDigit = false ∧ c ≠ '.' := by
  cases zone <;> simp [written]

/-- The text of a clock's offset does not end in a blank. -/
theorem getLast?_written (zone : Zone) (front : List Char) :
    ∀ c ∈ (front ++ zone.written).getLast?, Text.isBlank c = false := by
  have hdigits : ∀ (distance : Distance) (before : List Char),
      ∀ c ∈ (before ++ distance.written).getLast?, Text.isBlank c = false := by
    intro distance before c hc
    have hsplit : before ++ distance.written =
        (before ++ padded 2 distance.hours ++ [':']) ++ padded 2 distance.minutes := by
      simp [Distance.written]
    rw [hsplit, List.getLast?_append_of_ne_nil _ (padded_ne_nil _ _)] at hc
    exact Text.isBlank_eq_false_of_isDigit
      (allDigits_padded _ _ c (List.mem_of_mem_getLast? hc))
  cases zone with
  | universal =>
    intro c hc
    rw [written, List.getLast?_concat] at hc
    cases hc
    decide
  | ahead distance =>
    have hlast := hdigits distance (front ++ ['+'])
    rwa [List.append_assoc] at hlast
  | behind distance =>
    have hlast := hdigits distance (front ++ ['-'])
    rwa [List.append_assoc] at hlast

end Zone

/-- A moment on a clock is read back as its time in universal time. -/
theorem moment?_written {instant : Instant} (hinstant : instant.IsValid) {zone : Zone}
    (hzone : zone.IsValid) :
    moment? (instant.written ++ zone.written) = some (instant.milliseconds - zone.offset) := by
  obtain ⟨hdate, hseparator, hclock⟩ := hinstant
  have hsource : instant.written ++ zone.written =
      padded 4 instant.date.year.toNat ++ '-' :: (padded 2 instant.date.month ++ '-' ::
        (padded 2 instant.date.day ++ instant.separator ::
          (instant.clock.written ++ zone.written))) := by
    simp [Instant.written, Date.written]
  have hbehind : ∀ rest, (after? 'T' (instant.separator :: rest) <|>
      after? 't' (instant.separator :: rest) <|> after? ' ' (instant.separator :: rest)) =
        some rest := by
    intro rest
    rcases hseparator with h | h | h <;> rw [h] <;> rfl
  rw [hsource, moment?]
  simp only [digitsExactly?_padded (by decide : 0 < 4) hdate.year_lt,
    digitsExactly?_padded (by decide : 0 < 2) hdate.month_lt,
    digitsExactly?_padded (by decide : 0 < 2) hdate.day_lt, Option.bind_eq_bind, Option.bind_some,
    after?_cons, hbehind, time?_written hclock zone.head?_written, Zone.offset?_written hzone,
    hdate.toNat_year]
  rw [hdate.checked?]
  rfl

/-- The text of a date does not begin with a blank. -/
theorem head?_written_append (date : Date) (rest : List Char) :
    ∀ c ∈ (date.written ++ rest).head?, Text.isBlank c = false := by
  obtain ⟨first, more, hcons, hdigit⟩ := exists_padded_eq_cons 4 date.year.toNat
  intro c hc
  rw [Date.written, hcons] at hc
  cases hc
  exact Text.isBlank_eq_false_of_isDigit hdigit

/-- The timestamp of a moment on a clock. -/
theorem timestamp?_instant {instant : Instant} (hinstant : instant.IsValid) {zone : Zone}
    (hzone : zone.IsValid) :
    timestamp? (String.ofList (instant.written ++ zone.written)) =
      some (instant.milliseconds - zone.offset) := by
  have hmoment := moment?_written hinstant hzone
  have hsource : instant.written ++ zone.written =
      instant.date.written ++ (instant.separator :: instant.clock.written ++ zone.written) := by
    simp [Instant.written]
  have htrimmed := Text.trimmed_of_ends (head?_written_append instant.date
    (instant.separator :: instant.clock.written ++ zone.written))
    (by rw [← hsource]; exact zone.getLast?_written _)
  rw [hsource] at hmoment ⊢
  simp only [timestamp?, String.toList_ofList, htrimmed, integer?_written,
    date?_written hinstant.date, List.append_eq_nil_iff, List.cons_ne_nil, false_and, if_false,
    Option.map_none, hmoment]
  rfl

/-- The timestamp of a date is midnight. -/
theorem timestamp?_date {date : Date} (hdate : date.HasFourDigits) :
    timestamp? (String.ofList date.written) = some (date.dayNumber * dayLength) := by
  have hread := date?_written hdate []
  have hinteger := integer?_written date []
  have hfirst := head?_written_append date []
  rw [List.append_nil] at hread hinteger hfirst
  have hlast : ∀ c ∈ date.written.getLast?, Text.isBlank c = false := by
    intro c hc
    have hsplit : date.written = (padded 4 date.year.toNat ++ '-' :: padded 2 date.month ++ ['-']) ++
        padded 2 date.day := by
      simp [Date.written]
    rw [hsplit, List.getLast?_append_of_ne_nil _ (padded_ne_nil _ _)] at hc
    exact Text.isBlank_eq_false_of_isDigit (allDigits_padded _ _ c (List.mem_of_mem_getLast? hc))
  simp only [timestamp?, String.toList_ofList, Text.trimmed_of_ends hfirst hlast, hinteger, hread,
    if_true]
  rfl

/-- The start of a day. -/
def midnight : Clock := ⟨0, 0, 0, []⟩

theorem midnight_isValid : midnight.IsValid :=
  ⟨by decide, by decide, by decide, fun _ hmem => absurd hmem List.not_mem_nil⟩

namespace Instant

theorem isValid_midnight {date : Date} (hdate : date.HasFourDigits) :
    IsValid ⟨date, 'T', midnight⟩ :=
  ⟨hdate, .inl rfl, midnight_isValid⟩

theorem milliseconds_midnight (date : Date) :
    milliseconds ⟨date, 'T', midnight⟩ = date.dayNumber * dayLength := by
  have hclock : midnight.milliseconds = 0 := by decide
  rw [milliseconds, hclock, Int.add_zero]

end Instant

/-- A whole number is written as the digits of its magnitude, behind a minus sign if it is
    negative. -/
theorem toList_toString (n : Int) :
    (toString n).toList = (if n < 0 then ['-'] else []) ++ Nat.toDigits 10 n.natAbs := by
  cases n with
  | ofNat n =>
    have hnat : toString (Int.ofNat n) = n.repr := rfl
    rw [hnat, Nat.toList_repr, if_neg (by simp)]
    rfl
  | negSucc n =>
    have hnat : toString (Int.negSucc n) = "-" ++ (n + 1).repr := rfl
    rw [hnat, String.toList_append, Nat.toList_repr, if_pos (Int.negSucc_lt_zero n)]
    rfl

/-- A whole number of 64 bits is read back. -/
theorem integer?_toString {n : Int} (hlower : -integerBound ≤ n) (hupper : n < integerBound) :
    integer? (toString n).toList = some n := by
  have hdigits : (Nat.toDigits 10 n.natAbs).all Char.isDigit = true :=
    List.all_eq_true.2 (allDigits_toDigits _)
  have hsigned : Decimal.signed (toString n).toList =
      (decide (n < 0), Nat.toDigits 10 n.natAbs) := by
    rw [toList_toString]
    split
    · rename_i hneg
      simp [Decimal.signed, hneg]
    · rename_i hneg
      rw [List.nil_append, decide_eq_false hneg]
      unfold Decimal.signed
      split
      · rename_i hsign
        have := allDigits_toDigits n.natAbs '-' (by rw [hsign]; exact List.mem_cons_self)
        cases this
      · rename_i hsign
        have := allDigits_toDigits n.natAbs '+' (by rw [hsign]; exact List.mem_cons_self)
        cases this
      · rfl
  have hvalue : (if decide (n < 0) = true then -(n.natAbs : Int) else n.natAbs) = n := by
    simp only [decide_eq_true_eq]
    split <;> omega
  simp only [integer?, hsigned, natural_toDigits, hvalue, hdigits, hlower, hupper, and_self,
    Nat.toDigits_ne_nil, ne_eq, not_false_eq_true, if_true]

/-- A whole number of 64 bits is read back as the timestamp that it is. -/
theorem timestamp?_toString {n : Int} (hlower : -integerBound ≤ n) (hupper : n < integerBound) :
    timestamp? (toString n) = some n := by
  have htrimmed : Text.trimmed (toString n).toList = (toString n).toList := by
    have hdigit : ∀ c ∈ Nat.toDigits 10 n.natAbs, Text.isBlank c = false := fun c hc =>
      Text.isBlank_eq_false_of_isDigit (allDigits_toDigits _ c hc)
    have hall : ∀ c ∈ (toString n).toList, Text.isBlank c = false := by
      rw [toList_toString]
      split
      · exact List.forall_mem_cons.2 ⟨by decide, hdigit⟩
      · exact hdigit
    exact Text.trimmed_of_ends (fun c hc => hall c (List.mem_of_mem_head? hc))
      fun c hc => hall c (List.mem_of_mem_getLast? hc)
  rw [timestamp?, htrimmed, integer?_toString hlower hupper]
  rfl

end Calendar

open Calendar

/-- The spellings of a timestamp agree. A later date has a greater timestamp, and the next day has that
    of a day later. A date means its midnight in universal time. A clock ahead of universal time shows
    an earlier moment by its distance, and one behind it a later moment. Every timestamp is read back
    from its digits. -/
theorem timestamps_share_one_line :
    (∀ one other : Date, one.HasFourDigits → other.HasFourDigits → one.Before other →
      ∃ t u, timestamp? (String.ofList one.written) = some t ∧
        timestamp? (String.ofList other.written) = some u ∧ t < u) ∧
    (∀ date : Date, date.HasFourDigits → date.next.HasFourDigits →
      ∃ t, timestamp? (String.ofList date.written) = some t ∧
        timestamp? (String.ofList date.next.written) = some (t + 86400000)) ∧
    (∀ date : Date, date.HasFourDigits →
      ∃ t, timestamp? (String.ofList date.written) = some t ∧
        timestamp? (String.ofList date.written ++ "T00:00:00Z") = some t) ∧
    (∀ (instant : Instant) (distance : Distance), instant.IsValid → distance.IsValid →
      ∃ t, timestamp? (String.ofList (instant.written ++ ['Z'])) = some t ∧
        timestamp? (String.ofList (instant.written ++ '+' :: distance.written)) =
          some (t - distance.milliseconds) ∧
        timestamp? (String.ofList (instant.written ++ '-' :: distance.written)) =
          some (t + distance.milliseconds)) ∧
    (∀ raw t, timestamp? raw = some t → timestamp? (toString t) = some t) := by
  refine ⟨?order, ?days, ?midnight, ?clocks, ?digits⟩
  case order =>
    intro one other hone hother hbefore
    have hlt := Date.dayNumber_lt_of_before hone.valid hother.valid hbefore
    exact ⟨_, _, timestamp?_date hone, timestamp?_date hother,
      Int.mul_lt_mul_of_pos_right hlt (by decide)⟩
  case days =>
    intro date hdate hnext
    refine ⟨_, timestamp?_date hdate, ?_⟩
    rw [timestamp?_date hnext, Date.dayNumber_next hdate.valid, Int.add_mul, Int.one_mul]
    rfl
  case midnight =>
    intro date hdate
    have hread := @timestamp?_instant _ (Instant.isValid_midnight hdate) .universal trivial
    have hbehind : "T00:00:00Z" = String.ofList ('T' :: midnight.written ++ ['Z']) := by decide +kernel
    refine ⟨_, timestamp?_date hdate, ?_⟩
    rw [hbehind, ← String.ofList_append, ← List.append_assoc]
    rw [Instant.milliseconds_midnight, Zone.offset, Int.sub_zero] at hread
    exact hread
  case clocks =>
    intro instant distance hinstant hdistance
    have huniversal := @timestamp?_instant _ hinstant .universal trivial
    have hahead := @timestamp?_instant _ hinstant (.ahead distance) hdistance
    have hbehind := @timestamp?_instant _ hinstant (.behind distance) hdistance
    rw [Zone.offset, Int.sub_zero] at huniversal
    rw [Zone.offset, Int.sub_neg] at hbehind
    exact ⟨_, huniversal, hahead, hbehind⟩
  case digits =>
    intro raw t hread
    obtain ⟨hlower, hupper⟩ := timestamp?_bounds hread
    exact timestamp?_toString hlower hupper

/-- A leap day and the day behind it, the last day of a century and the first of the next one, a
    midnight, a clock that is five and three quarter hours away from universal time, and a whole
    number below zero. -/
theorem timestamps_share_one_line_around_new_year :
    (∃ t u, timestamp? "2024-02-29" = some t ∧ timestamp? "2024-03-01" = some u ∧ t < u) ∧
    (∃ t, timestamp? "1999-12-31" = some t ∧ timestamp? "2000-01-01" = some (t + 86400000)) ∧
    (∃ t, timestamp? "1999-12-31" = some t ∧ timestamp? "1999-12-31T00:00:00Z" = some t) ∧
    (∃ t, timestamp? "2000-01-01T01:30:00.5Z" = some t ∧
      timestamp? "2000-01-01T01:30:00.5+05:45" = some (t - 20700000) ∧
      timestamp? "2000-01-01T01:30:00.5-05:45" = some (t + 20700000)) ∧
    timestamp? "-86400000" = some (-86400000) := by
  have hleapDay : Date.HasFourDigits ⟨2024, 2, 29⟩ := ⟨by decide, by decide, by decide⟩
  have hmarch : Date.HasFourDigits ⟨2024, 3, 1⟩ := ⟨by decide, by decide, by decide⟩
  have hend : Date.HasFourDigits ⟨1999, 12, 31⟩ := ⟨by decide, by decide, by decide⟩
  have hstart : Date.HasFourDigits ⟨2000, 1, 1⟩ := ⟨by decide, by decide, by decide⟩
  have hclock : Clock.IsValid ⟨1, 30, 0, ['5']⟩ :=
    ⟨by decide, by decide, by decide, by simp [AllDigits]⟩
  have hdistance : Distance.IsValid ⟨5, 45⟩ := ⟨by decide, by decide⟩
  have hoffset : Distance.milliseconds ⟨5, 45⟩ = 20700000 := by decide
  have hnext : Date.next ⟨1999, 12, 31⟩ = ⟨2000, 1, 1⟩ := by decide
  have hleapText : String.ofList (Date.written ⟨2024, 2, 29⟩) = "2024-02-29" := by decide +kernel
  have hmarchText : String.ofList (Date.written ⟨2024, 3, 1⟩) = "2024-03-01" := by decide +kernel
  have hendText : String.ofList (Date.written ⟨1999, 12, 31⟩) = "1999-12-31" := by decide +kernel
  have hstartText : String.ofList (Date.written ⟨2000, 1, 1⟩) = "2000-01-01" := by decide +kernel
  have hmidnightText : "1999-12-31" ++ "T00:00:00Z" = "1999-12-31T00:00:00Z" := by decide
  have hmorningText : Instant.written ⟨⟨2000, 1, 1⟩, 'T', ⟨1, 30, 0, ['5']⟩⟩ =
      "2000-01-01T01:30:00.5".toList := by decide +kernel
  have hdistanceText : Distance.written ⟨5, 45⟩ = "05:45".toList := by decide +kernel
  have hdigitsText : toString (-86400000 : Int) = "-86400000" := by decide
  have horder := timestamps_share_one_line.1 _ _ hleapDay hmarch (.inr ⟨rfl, .inl (by decide)⟩)
  have hdays := timestamps_share_one_line.2.1 _ hend (hnext ▸ hstart)
  have hmidnight := timestamps_share_one_line.2.2.1 _ hend
  have hclocks := timestamps_share_one_line.2.2.2.1 ⟨⟨2000, 1, 1⟩, 'T', ⟨1, 30, 0, ['5']⟩⟩
    ⟨5, 45⟩ ⟨hstart, .inl rfl, hclock⟩ hdistance
  have hdigits := timestamps_share_one_line.2.2.2.2 "1969-12-31" (-86400000) (by decide +kernel)
  rw [hleapText, hmarchText] at horder
  rw [hnext, hendText, hstartText] at hdays
  rw [hendText, hmidnightText] at hmidnight
  rw [hmorningText, hdistanceText, hoffset] at hclocks
  rw [hdigitsText] at hdigits
  exact ⟨horder, hdays, hmidnight, hclocks, hdigits⟩

end Candlewick
