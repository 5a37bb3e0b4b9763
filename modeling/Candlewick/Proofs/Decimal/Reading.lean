import Candlewick.Decimal.Layout
import Candlewick.Decimal.Reader
import Candlewick.Proofs.Decimal.Shortest

open Float.Model (UnpackedFloat)

namespace Candlewick.Decimal

/-- A run of decimal digits. -/
def AllDigits (cs : List Char) : Prop :=
  ∀ c ∈ cs, c.isDigit = true

theorem allDigits_toDigits (n : Nat) : AllDigits (Nat.toDigits 10 n) := fun _ hmem =>
  Nat.isDigit_of_mem_toDigits (by decide) (by decide) hmem

theorem allDigits_zeros (count : Nat) : AllDigits (zeros count) := by
  intro c hmem
  rw [List.eq_of_mem_replicate hmem]
  rfl

theorem AllDigits.append {front back : List Char} (hfront : AllDigits front)
    (hback : AllDigits back) : AllDigits (front ++ back) := fun c hmem =>
  (List.mem_append.1 hmem).elim (hfront c) (hback c)

theorem AllDigits.take {cs : List Char} (hcs : AllDigits cs) (count : Nat) :
    AllDigits (cs.take count) := fun c hmem => hcs c (List.mem_of_mem_take hmem)

theorem AllDigits.drop {cs : List Char} (hcs : AllDigits cs) (count : Nat) :
    AllDigits (cs.drop count) := fun c hmem => hcs c (List.mem_of_mem_drop hmem)

@[simp] theorem length_zeros (count : Nat) : (zeros count).length = count :=
  List.length_replicate

@[simp] theorem natural_toDigits (n : Nat) : natural (Nat.toDigits 10 n) = n :=
  Nat.ofDigitChars_ten_toDigits

/-- Zeros behind the digits multiply by powers of ten. -/
@[simp] theorem natural_append_zeros (cs : List Char) (count : Nat) :
    natural (cs ++ zeros count) = 10 ^ count * natural cs := by
  change Nat.ofDigitChars 10 (cs ++ List.replicate count '0') 0 = _
  rw [Nat.ofDigitChars_append, Nat.ofDigitChars_replicate_zero]
  rfl

/-- Zeros in front of the digits do not count. -/
@[simp] theorem natural_zeros_append (cs : List Char) (count : Nat) :
    natural (zeros count ++ cs) = natural cs := by
  change Nat.ofDigitChars 10 (List.replicate count '0' ++ cs) 0 = _
  rw [Nat.ofDigitChars_append, Nat.ofDigitChars_replicate_zero, Nat.mul_zero]
  rfl

/-- A run of characters is taken up to its end. -/
theorem span_append {belongs : Char → Bool} {run rest : List Char}
    (hrun : ∀ c ∈ run, belongs c = true) (hrest : ∀ c ∈ rest.head?, belongs c = false) :
    (run ++ rest).span belongs = (run, rest) := by
  have hstop : rest.takeWhile belongs = [] ∧ rest.dropWhile belongs = rest := by
    cases rest with
    | nil => exact ⟨rfl, rfl⟩
    | cons c rest => simp [hrest c rfl]
  rw [List.span_eq_takeWhile_dropWhile, List.takeWhile_append_of_pos hrun,
    List.dropWhile_append_of_pos hrun, hstop.1, hstop.2, List.append_nil]

/-- A number without a point. -/
theorem digits?_whole {whole rest : List Char} (hwhole : AllDigits whole) (hne : whole ≠ [])
    (hrest : ∀ c ∈ rest.head?, c.isDigit = false ∧ c ≠ '.') :
    digits? (whole ++ rest) = (exponent? rest).map fun e => ⟨natural whole, e⟩ := by
  have hspan := span_append hwhole fun c hc => (hrest c hc).1
  simp only [digits?, hspan, hne, false_and, if_false]
  split
  · exact absurd rfl (hrest '.' rfl).2
  · simp

/-- A number with a point. -/
theorem digits?_point {whole fraction rest : List Char} (hwhole : AllDigits whole)
    (hne : whole ≠ []) (hfraction : AllDigits fraction)
    (hrest : ∀ c ∈ rest.head?, c.isDigit = false) :
    digits? (whole ++ '.' :: (fraction ++ rest)) =
      (exponent? rest).map fun e => ⟨natural (whole ++ fraction), e - fraction.length⟩ := by
  have hspan : (whole ++ '.' :: (fraction ++ rest)).span Char.isDigit =
    (whole, '.' :: (fraction ++ rest)) := span_append hwhole (by simp)
  simp only [digits?, hspan, span_append hfraction hrest, hne, false_and, if_false]

/-- A number with a point and no exponent. -/
theorem digits?_fraction {whole fraction : List Char} (hwhole : AllDigits whole)
    (hne : whole ≠ []) (hfraction : AllDigits fraction) :
    digits? (whole ++ '.' :: fraction) =
      some ⟨natural (whole ++ fraction), -(fraction.length : Int)⟩ := by
  have hread := @digits?_point whole fraction [] hwhole hne hfraction (by simp)
  simpa [exponent?] using hread

/-- The exponent of a number is read back. -/
theorem exponent?_written (leading : Int) :
    exponent? ('e' :: (if leading < 0 then '-' else '+') :: Nat.toDigits 10 leading.natAbs) =
      some leading := by
  have hdigits : (Nat.toDigits 10 leading.natAbs).all Char.isDigit = true :=
    List.all_eq_true.2 (allDigits_toDigits _)
  have hsigned : signed ((if leading < 0 then '-' else '+') :: Nat.toDigits 10 leading.natAbs) =
      (decide (leading < 0), Nat.toDigits 10 leading.natAbs) := by
    split <;> simp [signed, *]
  simp only [exponent?, hsigned, true_or, ne_eq, Nat.toDigits_ne_nil, not_false_eq_true, hdigits,
    and_self, if_true, natural_toDigits, decide_eq_true_eq, Option.some.injEq]
  split <;> omega

/-- Zeros behind the digits of a whole number, and then perhaps a point and a zero. -/
theorem exists_digits?_zeros (n count : Nat) (pointZero : Bool) :
    ∃ read, digits? (Nat.toDigits 10 n ++ zeros count ++ (if pointZero then ['.', '0'] else [])) =
      some read ∧ read.value = Digits.value ⟨n, count⟩ := by
  have hwhole := (allDigits_toDigits n).append (allDigits_zeros count)
  have hne : Nat.toDigits 10 n ++ zeros count ≠ [] :=
    List.append_ne_nil_of_left_ne_nil Nat.toDigits_ne_nil _
  cases pointZero with
  | true =>
    have hread := digits?_fraction hwhole hne (allDigits_zeros 1)
    refine ⟨_, hread, ?_⟩
    rw [natural_append_zeros, natural_append_zeros, natural_toDigits, length_zeros]
    simp only [Digits.value]
    push_cast
    rw [zpow_natCast]
    field_simp
  | false =>
    refine ⟨_, digits?_whole hwhole hne (by simp), ?_⟩
    simp [Digits.value, mul_comm]

/-- A point inside the digits. -/
theorem digits?_inside (n : Nat) {count : Nat} (hcount : 0 < count) :
    digits? ((Nat.toDigits 10 n).take count ++ '.' :: (Nat.toDigits 10 n).drop count) =
      some ⟨n, -((Nat.toDigits 10 n).length - count : Nat)⟩ := by
  have hdigits := allDigits_toDigits n
  have hne : (Nat.toDigits 10 n).take count ≠ [] := by simp [Nat.toDigits_ne_nil, hcount.ne']
  rw [digits?_fraction (hdigits.take _) hne (hdigits.drop _), List.take_append_drop,
    natural_toDigits, List.length_drop]

/-- A point in front of the digits, with zeros behind it. -/
theorem digits?_in_front (n count : Nat) :
    digits? ('0' :: '.' :: zeros count ++ Nat.toDigits 10 n) =
      some ⟨n, -(count + (Nat.toDigits 10 n).length : Nat)⟩ := by
  have hread := digits?_fraction (allDigits_zeros 1) (List.cons_ne_nil _ _)
    ((allDigits_zeros count).append (allDigits_toDigits n))
  rw [natural_zeros_append, natural_zeros_append, natural_toDigits, List.length_append,
    length_zeros] at hread
  exact hread

/-- A decimal without an exponent is read back, up to zeros at its end. -/
theorem exists_digits?_positionally (layout : Layout) (d : Digits) :
    ∃ read, digits? (layout.positionally d) = some read ∧ read.value = d.value := by
  obtain ⟨n, exponent⟩ := d
  unfold Layout.positionally
  simp only
  split
  · rename_i hexponent
    obtain ⟨exponent, rfl⟩ := Int.eq_ofNat_of_zero_le hexponent
    rw [Int.toNat_natCast]
    exact exists_digits?_zeros n exponent layout.pointZero
  · rename_i hexponent
    refine ⟨_, ?_, rfl⟩
    split
    · rename_i hwhole
      rw [digits?_inside n hwhole, Option.some.injEq, Digits.mk.injEq]
      omega
    · rename_i hwhole
      rw [digits?_in_front, Option.some.injEq, Digits.mk.injEq]
      omega

/-- A decimal with an exponent is read back. -/
theorem digits?_scientifically {d : Digits} {leading : Int}
    (hleading : leading = digitCount d.digits + d.exponent - 1) :
    digits? (scientifically d leading) = some d := by
  obtain ⟨digits, exponent⟩ := d
  have hdigits := allDigits_toDigits digits
  have hhead : (Nat.toDigits 10 digits).take 1 ≠ [] := by simp [Nat.toDigits_ne_nil]
  have htail : (Nat.toDigits 10 digits).take 1 ++ (Nat.toDigits 10 digits).drop 1 =
    Nat.toDigits 10 digits := List.take_append_drop 1 _
  have hlength := congrArg List.length htail
  have hone : ((Nat.toDigits 10 digits).take 1).length = 1 := by
    rw [List.length_take, Nat.min_eq_left (List.length_pos_iff.2 Nat.toDigits_ne_nil)]
  rw [List.length_append, hone] at hlength
  simp only [digitCount] at hleading
  unfold scientifically
  simp only
  split
  · rename_i hfraction
    rw [List.isEmpty_iff] at hfraction
    rw [List.append_nil, digits?_whole (hdigits.take 1) hhead (by simp), exponent?_written]
    rw [hfraction, List.append_nil] at htail
    rw [hfraction, List.length_nil] at hlength
    rw [htail, natural_toDigits, Option.map_some, Option.some.injEq, Digits.mk.injEq]
    omega
  · rw [List.append_assoc, List.cons_append,
      digits?_point (hdigits.take 1) hhead (hdigits.drop 1) (by simp), exponent?_written, htail,
      natural_toDigits, Option.map_some, Option.some.injEq, Digits.mk.injEq]
    omega

/-- Whatever the layout, the text of a magnitude rounds to it. -/
theorem exists_digits?_magnitude (layout : Layout) (b : Binary) :
    ∃ read, digits? (layout.magnitude b) = some read ∧ b.Covers read.value := by
  have hcovers := b.covers_shortest layout.tie
  obtain ⟨read, hread, hvalue⟩ := exists_digits?_positionally layout (shortest layout.tie b)
  unfold Layout.magnitude
  simp only
  split
  · exact ⟨read, hread, hvalue ▸ hcovers⟩
  · split
    · exact ⟨read, hread, hvalue ▸ hcovers⟩
    · exact ⟨_, digits?_scientifically rfl, hcovers⟩

/-- The text of a finite float without its sign. -/
def Layout.unsigned (layout : Layout) (x : Float) : List Char :=
  if x == 0 then (if layout.pointZero then ['0', '.', '0'] else ['0'])
  else layout.magnitude (Binary.ofFloat x)

/-- The text of a finite float is its sign, if it has one, and the text of its magnitude. -/
theorem Layout.toList_write (layout : Layout) {x : Float} (hx : x.isFinite = true) :
    (layout.write x).toList = (if isNegative x then ['-'] else []) ++ layout.unsigned x := by
  have hkind : x.isNaN = false ∧ x.isInf = false := by
    change UnpackedFloat.isFinite x.toModel.unpack = true at hx
    change UnpackedFloat.isNaN x.toModel.unpack = false ∧ UnpackedFloat.isInf x.toModel.unpack = false
    cases hunpack : x.toModel.unpack with
    | notANumber | infinity sign => rw [hunpack] at hx; cases hx
    | zero sign | finite sign => exact ⟨rfl, rfl⟩
  unfold write unsigned
  rw [hkind.1, hkind.2]
  by_cases hzero : (x == 0) = true
  · cases layout.pointZero <;> cases isNegative x <;> simp [hzero]
  · cases isNegative x <;> simp [hzero]

/-- In every layout the text of a magnitude is read as a number that lies in the interval of the
    float. -/
theorem exists_digits?_unsigned (layout : Layout) (x : Float) :
    ∃ read, digits? (layout.unsigned x) = some read ∧ (Binary.ofFloat x).Covers read.value := by
  unfold Layout.unsigned
  split
  · rename_i hzero
    have hcovers := (Binary.ofFloat x).covers_self
    rw [Binary.significand_ofFloat_eq_zero_iff.2 hzero, Nat.cast_zero, zero_mul] at hcovers
    split
    · exact ⟨⟨0, -1⟩, rfl, by simpa [Digits.value] using hcovers⟩
    · exact ⟨⟨0, 0⟩, rfl, by simpa [Digits.value] using hcovers⟩
  · exact exists_digits?_magnitude layout _

/-- Digits do not begin with a sign. -/
theorem signed_append_of_digits? {cs : List Char} {d : Digits} (hread : digits? cs = some d)
    (negative : Bool) : signed ((if negative then ['-'] else []) ++ cs) = (negative, cs) := by
  cases negative with
  | true => rfl
  | false =>
    simp only [Bool.false_eq_true, if_false, List.nil_append]
    unfold signed
    split
    · cases hread
    · cases hread
    · rfl

/-- The characters of numbers in digits. -/
def inNumber (c : Char) : Bool :=
  c.isDigit || ['+', '-', '.', 'e', 'E'].contains c

/-- What is read as an exponent consists of characters that can stand in a number. -/
theorem inNumber_of_exponent? {cs : List Char} {e : Int} (hread : exponent? cs = some e) :
    ∀ c ∈ cs, inNumber c = true := by
  cases cs with
  | nil => simp
  | cons first rest =>
    have hsigned : ∀ c ∈ rest, c = '-' ∨ c = '+' ∨ c ∈ (signed rest).2 := by
      unfold signed
      split <;> simp +contextual
    simp only [exponent?] at hread
    split at hread
    · rename_i hexponent
      obtain ⟨hfirst, -, hdigits⟩ := hexponent
      refine List.forall_mem_cons.2 ⟨?_, fun c hmem => ?_⟩
      · rcases hfirst with rfl | rfl <;> rfl
      · rcases hsigned c hmem with rfl | rfl | hmem
        · rfl
        · rfl
        · simp [inNumber, List.all_eq_true.1 hdigits c hmem]
    · cases hread

/-- Digits can stand in a number, so it is enough to look at what is behind them. -/
theorem inNumber_of_dropWhile {cs : List Char}
    (hrest : ∀ c ∈ cs.dropWhile Char.isDigit, inNumber c = true) : ∀ c ∈ cs, inNumber c = true := by
  intro c hmem
  rw [← List.takeWhile_append_dropWhile (p := Char.isDigit) (l := cs), List.mem_append] at hmem
  rcases hmem with hmem | hmem
  · simp [inNumber, List.mem_takeWhile_imp hmem]
  · exact hrest c hmem

/-- What is read as digits consists of the characters of numbers. -/
theorem inNumber_of_digits? {cs : List Char} {d : Digits} (hread : digits? cs = some d) :
    ∀ c ∈ cs, inNumber c = true := by
  have hexponent : ∀ {fraction rest : List Char}, (if cs.takeWhile Char.isDigit = [] ∧ fraction = []
      then none
      else (exponent? rest).map fun e => Digits.mk
        (natural (cs.takeWhile Char.isDigit ++ fraction)) (e - fraction.length)) = some d →
      ∀ c ∈ rest, inNumber c = true := by
    intro fraction rest hread
    split at hread
    · cases hread
    · obtain ⟨e, hexponent, -⟩ := Option.map_eq_some_iff.1 hread
      exact inNumber_of_exponent? hexponent
  refine inNumber_of_dropWhile ?_
  simp only [digits?, List.span_eq_takeWhile_dropWhile] at hread
  split at hread
  · rename_i behind hpoint
    rw [hpoint]
    exact List.forall_mem_cons.2 ⟨rfl, inNumber_of_dropWhile (hexponent hread)⟩
  · exact hexponent hread

/-- The float that a text in digits stands for: the one whose interval holds the number. -/
def ofText? (cs : List Char) : Option Float :=
  let (negative, digits) := signed cs
  ((digits? digits).bind Binary.ofDigits?).map (Binary.toFloat negative)

/-- A finite float is found from its text. -/
theorem ofText?_write (layout : Layout) {x : Float} (hx : x.isFinite = true) :
    ofText? (layout.write x).toList = some x := by
  obtain ⟨read, hread, hcovers⟩ := exists_digits?_unsigned layout x
  have hfound := Binary.ofDigits?_of_covers (Binary.isCanonical_ofFloat x)
    (Binary.exponent_ofFloat_le hx) hcovers
  unfold ofText?
  rw [layout.toList_write hx, signed_append_of_digits? hread]
  simp only [hread, Option.bind_some, hfound, Option.map_some, Binary.toFloat_ofFloat]

example : ofText? "-1.5e-7".toList = some (-1.5e-7) := by decide +kernel

/-- The text of a finite float consists of characters that can stand in a number: no blank, quote or
    mark ever comes up in it. -/
theorem inNumber_of_mem_write (layout : Layout) {x : Float} (hx : x.isFinite = true) :
    ∀ c ∈ (layout.write x).toList, inNumber c = true := by
  obtain ⟨read, hread, -⟩ := exists_digits?_unsigned layout x
  rw [layout.toList_write hx]
  refine List.forall_mem_append.2 ⟨?_, inNumber_of_digits? hread⟩
  split
  · exact List.forall_mem_singleton.2 rfl
  · exact List.forall_mem_nil _

end Candlewick.Decimal
