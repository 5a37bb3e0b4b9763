namespace Candlewick.Text

/-- The White_Space property, which is wider than `Char.isWhitespace`: twenty-five code points, six
    of them in ASCII. -/
def isBlank (c : Char) : Bool :=
  let n := c.toNat
  (9 ≤ n && n ≤ 13) || n == 0x20 || n == 0x85 || n == 0xA0 || n == 0x1680 ||
    (0x2000 ≤ n && n ≤ 0x200A) || n == 0x2028 || n == 0x2029 || n == 0x202F || n == 0x205F ||
    n == 0x3000

/-- The characters without the blanks in front. -/
def trimmedStart (cs : List Char) : List Char :=
  cs.dropWhile isBlank

/-- The characters without the blanks in front and behind. -/
def trimmed (cs : List Char) : List Char :=
  (trimmedStart (trimmedStart cs).reverse).reverse

/-- The text without the blanks in front and behind. -/
def trim (s : String) : String :=
  String.ofList (trimmed s.toList)

/-- Whether a text holds nothing but blanks. -/
def allBlank (s : String) : Bool :=
  s.toList.all isBlank

/-- Nothing is left in front of the first character that is not blank only where there is none. -/
theorem trimmedStart_eq_nil_iff (cs : List Char) : trimmedStart cs = [] ↔ cs.all isBlank := by
  unfold trimmedStart
  induction cs with
  | nil => exact iff_of_true rfl rfl
  | cons c rest ih =>
    rw [List.dropWhile_cons, List.all_cons]
    by_cases hblank : isBlank c
    · rw [if_pos hblank, hblank, Bool.true_and]
      exact ih
    · simp [hblank]

/-- A text begins with a character that is not blank once the blanks in front are gone. -/
theorem not_isBlank_of_trimmedStart_eq_cons {cs rest : List Char} {c : Char}
    (h : trimmedStart cs = c :: rest) : isBlank c = false := by
  induction cs with
  | nil => simp [trimmedStart] at h
  | cons d ds ih =>
    by_cases hblank : isBlank d
    · exact ih (by simpa [trimmedStart, List.dropWhile_cons, hblank] using h)
    · have hcons : d = c ∧ ds = rest := by
        simpa [trimmedStart, List.dropWhile_cons, hblank] using h
      rw [← hcons.1]
      simpa using hblank

/-- Nothing is left of a text exactly when all of it is blank. -/
theorem trimmed_eq_nil_iff (cs : List Char) : trimmed cs = [] ↔ cs.all isBlank := by
  rw [trimmed, List.reverse_eq_nil_iff, trimmedStart_eq_nil_iff, List.all_reverse,
    ← trimmedStart_eq_nil_iff cs]
  constructor
  · intro hall
    cases hstart : trimmedStart cs with
    | nil => rfl
    | cons c rest =>
      have hfirst := not_isBlank_of_trimmedStart_eq_cons hstart
      rw [hstart] at hall
      simp [hfirst] at hall
  · intro hnil
    simp [hnil]

end Candlewick.Text
