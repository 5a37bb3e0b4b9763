namespace Candlewick.Text

/-- The lines of a text, without what ends them: a line feed, with or without a carriage return
    directly in front of it. No line follows a final line feed. -/
def lines : List Char → List (List Char)
  | [] => []
  | '\n' :: rest => [] :: lines rest
  | '\r' :: '\n' :: rest => [] :: lines rest
  | c :: rest =>
    match lines rest with
    | [] => [[c]]
    | line :: more => (c :: line) :: more

/-- The line with the given number, counted from one; empty when there is no such line. -/
def lineAt (source : String) (number : Nat) : String :=
  String.ofList ((lines source.toList)[number - 1]?.getD [])

/-- The pieces of a text between separators. A text without a separator is one piece. -/
def pieces (separator : Char) : List Char → List (List Char)
  | [] => [[]]
  | c :: rest =>
    if c = separator then
      [] :: pieces separator rest
    else
      match pieces separator rest with
      | [] => [[c]]
      | piece :: more => (c :: piece) :: more

/-- The text in front of the first separator, and the text behind it if there is one. -/
def cutAt (isSeparator : Char → Bool) : List Char → List Char × Option (List Char)
  | [] => ([], none)
  | c :: rest =>
    if isSeparator c then
      ([], some rest)
    else
      let (front, behind) := cutAt isSeparator rest
      (c :: front, behind)

/-- The text in front of the last occurrence of a character, if it occurs. -/
def beforeLast? (last : Char) : List Char → Option (List Char)
  | [] => none
  | c :: rest =>
    match beforeLast? last rest with
    | some front => some (c :: front)
    | none => if c = last then some [] else none

theorem pieces_ne_nil (separator : Char) (cs : List Char) : pieces separator cs ≠ [] := by
  cases cs with
  | nil => simp [pieces]
  | cons c rest =>
    rw [pieces]
    split
    · simp
    · split <;> simp

/-- The pieces with the separator between them make up the text again. -/
theorem intercalate_pieces (separator : Char) (cs : List Char) :
    List.intercalate [separator] (pieces separator cs) = cs := by
  induction cs with
  | nil => rfl
  | cons c rest ih =>
    rw [pieces]
    obtain ⟨piece, more, hpieces⟩ := List.exists_cons_of_ne_nil (pieces_ne_nil separator rest)
    rw [hpieces] at ih ⊢
    split
    · rename_i hseparator
      rw [hseparator, ← ih]
      rfl
    · rw [← ih]
      cases more <;> rfl

end Candlewick.Text
