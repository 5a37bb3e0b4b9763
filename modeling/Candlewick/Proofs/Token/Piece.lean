import Candlewick.Token.Lexer

namespace Candlewick

namespace Lexeme

theorem mem_run {p : Char → Bool} {cs : List Char} {c : Char} (hmem : c ∈ (run p cs).1) :
    p c = true :=
  List.all_eq_true.1 List.all_takeWhile c hmem

/-- A run stops in front of a character that does not belong to it. -/
theorem run_stop {p : Char → Bool} {front : List Char} (hfront : ∀ c ∈ front, p c = true)
    {stop : Char} (hstop : ¬ p stop = true) (more : List Char) :
    run p (front ++ stop :: more) = (front, stop :: more) := by
  rw [run, List.takeWhile_append_of_pos hfront, List.dropWhile_append_of_pos hfront,
    List.takeWhile_cons_of_neg hstop, List.dropWhile_cons_of_neg hstop, List.append_nil]

/-- A number is written with digits, or with digits, a point and more digits. -/
theorem number_cases (cs : List Char) :
    (∀ c ∈ (number cs).1, c.isDigit = true) ∨
      ∃ whole digit fraction, (number cs).1 = whole ++ '.' :: digit :: fraction ∧
        (∀ c ∈ whole, c.isDigit = true) ∧ ∀ c ∈ digit :: fraction, c.isDigit = true := by
  have hwhole : ∀ c ∈ (run Char.isDigit cs).1, c.isDigit = true := fun _ => mem_run
  unfold number
  simp only
  split
  · rename_i digit more _
    split
    · rename_i hdigit
      have hfraction : (run Char.isDigit (digit :: more)).1 =
          digit :: (run Char.isDigit more).1 := by
        rw [run, List.takeWhile_cons_of_pos hdigit, run]
      refine .inr ⟨_, digit, (run Char.isDigit more).1, by rw [hfraction], hwhole, ?_⟩
      exact List.forall_mem_cons.2 ⟨hdigit, fun _ => mem_run⟩
    · exact .inl hwhole
  · exact .inl hwhole

/-- A number in front of a blank is read up to the blank. -/
theorem number_blank (cs more : List Char) :
    number ((number cs).1 ++ ' ' :: more) = ((number cs).1, ' ' :: more) := by
  rcases number_cases cs with hdigits | ⟨whole, digit, fraction, hwritten, hwhole, hfraction⟩
  · rw [number, run_stop hdigits (by decide)]
    rfl
  · have hdigit := (List.forall_mem_cons.1 hfraction).1
    have hrun := run_stop hfraction (by decide : ¬ Char.isDigit ' ' = true) more
    rw [hwritten, List.append_assoc, List.cons_append, number, run_stop hwhole (by decide)]
    simp only [List.cons_append, hdigit, if_true] at hrun ⊢
    rw [hrun]

theorem word_blank_nil (more : List Char) : word (' ' :: more) = ([], ' ' :: more) := by
  rw [word]
  · rfl
  · simp
  · simp

/-- What is taken from the front of a text, if it is anything, begins as the text does. -/
theorem exists_eq_cons_of_append {c : Char} {taken later rest : List Char}
    (happend : taken ++ later = c :: rest) (hne : taken ≠ []) : ∃ tail, taken = c :: tail := by
  obtain ⟨hnil, -⟩ | ⟨tail, htaken, -⟩ := List.append_eq_cons_iff.1 happend
  · exact absurd hnil hne
  · exact ⟨tail, htaken⟩

/-- A number that begins with a digit takes it. -/
theorem number_fst_eq_cons {c : Char} (rest : List Char) (hdigit : c.isDigit = true) :
    ∃ taken, (number (c :: rest)).1 = c :: taken :=
  exists_eq_cons_of_append (number_append (c :: rest)) (Lexer.number_fst_ne_nil rest hdigit)

/-- A word that begins with a letter takes it. -/
theorem word_fst_eq_cons {c : Char} (rest : List Char) (hstart : isWordStart c = true) :
    ∃ taken, (word (c :: rest)).1 = c :: taken :=
  exists_eq_cons_of_append (word_append (c :: rest)) (Lexer.word_fst_ne_nil rest hstart)

/-- A word in front of a blank is read up to the blank. -/
theorem word_blank (cs more : List Char) :
    word ((word cs).1 ++ ' ' :: more) = ((word cs).1, ' ' :: more) := by
  fun_induction word cs with
  | case1 | case2 | case4 | case6 => exact word_blank_nil more
  | case3 c rest hstart taken later hword ih =>
    obtain ⟨behind, hcons⟩ := word_fst_eq_cons rest hstart
    rw [hword] at ih hcons
    simp only at ih hcons ⊢
    rw [hcons, List.cons_append] at ih
    rw [hcons, List.cons_append, List.cons_append, word, if_pos hstart, ih]
  | case5 c rest _ _ hrest taken later hword ih =>
    have hpoint : c ≠ '.' := by
      rintro rfl
      exact absurd hrest (by decide)
    rw [hword] at ih
    simp only at ih ⊢
    rw [List.cons_append, word, if_pos hrest, ih]
    · exact fun hdot _ => hpoint hdot
    · exact fun _ _ hdot _ => hpoint hdot

/-- What is behind the closing quote has no part in a string. -/
theorem quoted_append_rest {quote : Char} {cs : List Char} {q : Quoted}
    (hquoted : quoted quote cs = .ok q) (more : List Char) :
    quoted quote (q.written ++ more) = .ok ⟨q.content, q.written, more⟩ := by
  fun_induction quoted quote cs generalizing q with
  | case2 rest =>
    cases hquoted
    rw [List.singleton_append, quoted.eq_def]
    simp
  | case6 escape rest value tail htail hescape hquote hline ih =>
    cases hquoted
    rw [List.cons_append, List.cons_append, quoted.eq_def]
    simp only [hquote, hline, if_false, if_true, hescape, ih htail]
  | case9 c rest hquote hline hslash tail htail ih =>
    cases hquoted
    rw [List.cons_append, quoted.eq_def]
    simp only [hquote, hline, hslash, if_false, ih htail]
  | _ => cases hquoted

/-- A string ends on the line that it begins on. -/
theorem lineFeed_not_mem_quoted {quote : Char} (hquote : quote ≠ '\n') {cs : List Char} {q : Quoted}
    (hquoted : quoted quote cs = .ok q) : '\n' ∉ q.written := by
  fun_induction quoted quote cs generalizing q with
  | case2 rest =>
    cases hquoted
    simpa using hquote.symm
  | case6 escape rest value tail htail hescape _ _ ih =>
    cases hquoted
    have hne : '\n' ≠ escape := by
      rintro rfl
      cases hescape
    simp [hne, ih htail]
  | case9 c rest _ hline _ tail htail ih =>
    cases hquoted
    simp [Ne.symm hline, ih htail]
  | _ => cases hquoted

/-- What is read of a string up to a bad escape is the front of it. -/
theorem quoted_append_of_badEscape {quote : Char} {cs before : List Char} {e : Char}
    (hquoted : quoted quote cs = .error (.badEscape before e)) :
    ∃ behind, cs = before ++ e :: behind := by
  fun_induction quoted quote cs generalizing before e with
  | case5 escape rest =>
    cases hquoted
    exact ⟨rest, rfl⟩
  | case7 escape rest _ _ _ hrest _ _ _ ih =>
    cases hquoted
    obtain ⟨behind, rfl⟩ := ih hrest
    exact ⟨behind, rfl⟩
  | case10 c rest _ _ _ _ _ hrest ih =>
    cases hquoted
    obtain ⟨behind, rfl⟩ := ih hrest
    exact ⟨behind, rfl⟩
  | _ => cases hquoted

theorem lineFeed_not_mem_number (cs : List Char) : '\n' ∉ (number cs).1 := by
  have hdigit : ∀ {digits : List Char}, (∀ c ∈ digits, c.isDigit = true) → '\n' ∉ digits :=
    fun hdigits hmem => absurd (hdigits _ hmem) (by decide)
  rcases number_cases cs with hdigits | ⟨whole, digit, fraction, hwritten, hwhole, hfraction⟩
  · exact hdigit hdigits
  · have hline := hdigit hfraction
    rw [hwritten]
    simpa [hdigit hwhole] using hline

theorem lineFeed_not_mem_word (cs : List Char) : '\n' ∉ (word cs).1 := by
  fun_induction word cs with
  | case3 c rest _ taken later hword ih =>
    rw [hword] at ih
    simpa using ih
  | case5 c rest _ _ hrest taken later hword ih =>
    have hne : '\n' ≠ c := by
      rintro rfl
      exact absurd hrest (by decide)
    rw [hword] at ih
    simpa [hne] using ih
  | _ => simp

/-- No symbol runs over the end of a line. -/
theorem lineFeed_not_mem_symbol? {cs written rest : List Char} {kind : TokenKind}
    (hsymbol : symbol? cs = some (kind, written, rest)) : '\n' ∉ written := by
  unfold symbol? at hsymbol
  split at hsymbol <;> cases hsymbol <;> decide

/-- A symbol in front of a blank is read as that symbol, though it may be the beginning of a longer
    one. -/
theorem symbol?_blank {cs written rest : List Char} {kind : TokenKind}
    (hsymbol : symbol? cs = some (kind, written, rest)) (more : List Char) :
    symbol? (written ++ ' ' :: more) = some (kind, written, ' ' :: more) := by
  unfold symbol? at hsymbol
  split at hsymbol <;> cases hsymbol <;> rfl

end Lexeme

namespace Lexer

/-- Characters that spell a token: in front of a blank they are read as a token of the kind. -/
def Spells (written : List Char) (kind : TokenKind) : Prop :=
  ∃ c tail, written = c :: tail ∧ ∀ more,
    piece c (tail ++ ' ' :: more) = .ok ⟨.token kind, written, ' ' :: more⟩

/-- What the pieces of a source are: a line feed, a blank, a comment up to the end of its line, or the
    text of a token, which stays on its line. -/
inductive Proper : Piece → Prop where
  | lineFeed (rest : List Char) : Proper ⟨.lineFeed, ['\n'], rest⟩
  | blank {c : Char} (hblank : Text.isBlank c = true) (hline : c ≠ '\n') (rest : List Char) :
    Proper ⟨.skipped, [c], rest⟩
  | comment {text rest : List Char} (htext : '\n' ∉ text)
    (hend : ∀ c ∈ rest.head?, c = '\n') : Proper ⟨.skipped, '/' :: '/' :: text, rest⟩
  | token {kind : TokenKind} {written rest : List Char} (hline : '\n' ∉ written)
    (hspells : Spells written kind) : Proper ⟨.token kind, written, rest⟩

/-- What is read first of a text that begins with `c`: the ways in which it has a first piece, and
    the three in which it has none. -/
inductive FirstPiece (c : Char) (rest : List Char) : Except Failure Piece → Prop where
  | lineFeed (hline : c = '\n') : FirstPiece c rest (.ok ⟨.lineFeed, [c], rest⟩)
  | blank (hline : c ≠ '\n') (hblank : Text.isBlank c = true) :
    FirstPiece c rest (.ok ⟨.skipped, [c], rest⟩)
  | comment {more : List Char} (hslash : c = '/') (hrest : rest = '/' :: more) :
    FirstPiece c rest (.ok ⟨.skipped, c :: (Lexeme.run (· != '\n') rest).1,
      (Lexeme.run (· != '\n') rest).2⟩)
  | number (hline : c ≠ '\n') (hblank : ¬ Text.isBlank c = true) (hdigit : c.isDigit = true) :
    FirstPiece c rest (.ok ⟨.token (numberKind (Lexeme.number (c :: rest)).1),
      (Lexeme.number (c :: rest)).1, (Lexeme.number (c :: rest)).2⟩)
  | text {q : Lexeme.Quoted} (hline : c ≠ '\n') (hblank : ¬ Text.isBlank c = true)
    (hdigit : ¬ c.isDigit = true) (hquote : c = '"' ∨ c = '\'')
    (hquoted : Lexeme.quoted c rest = .ok q) :
    FirstPiece c rest (.ok ⟨.token (.text (String.ofList q.content)), c :: q.written, q.rest⟩)
  | unterminated (hline : c ≠ '\n') (hblank : ¬ Text.isBlank c = true)
    (hdigit : ¬ c.isDigit = true) (hquote : c = '"' ∨ c = '\'')
    (hquoted : Lexeme.quoted c rest = .error .unterminated) :
    FirstPiece c rest (.error ⟨.unterminatedString, []⟩)
  | badEscape {before : List Char} {e : Char} (hline : c ≠ '\n')
    (hblank : ¬ Text.isBlank c = true) (hdigit : ¬ c.isDigit = true)
    (hquote : c = '"' ∨ c = '\'')
    (hquoted : Lexeme.quoted c rest = .error (.badEscape before e)) :
    FirstPiece c rest (.error ⟨.invalidEscape e, c :: before⟩)
  | word (hline : c ≠ '\n') (hblank : ¬ Text.isBlank c = true) (hdigit : ¬ c.isDigit = true)
    (hquote : ¬ (c = '"' ∨ c = '\'')) (hstart : Lexeme.isWordStart c = true) :
    FirstPiece c rest (.ok ⟨.token (wordKind (Lexeme.word (c :: rest)).1),
      (Lexeme.word (c :: rest)).1, (Lexeme.word (c :: rest)).2⟩)
  | symbol {kind : TokenKind} {written behind : List Char} (hline : c ≠ '\n')
    (hblank : ¬ Text.isBlank c = true) (hcomment : ¬ (c = '/' ∧ rest.head? = some '/'))
    (hdigit : ¬ c.isDigit = true) (hquote : ¬ (c = '"' ∨ c = '\''))
    (hstart : ¬ Lexeme.isWordStart c = true)
    (hsymbol : Lexeme.symbol? (c :: rest) = some (kind, written, behind)) :
    FirstPiece c rest (.ok ⟨.token kind, written, behind⟩)
  | unknown (hline : c ≠ '\n') (hblank : ¬ Text.isBlank c = true)
    (hdigit : ¬ c.isDigit = true) (hquote : ¬ (c = '"' ∨ c = '\''))
    (hstart : ¬ Lexeme.isWordStart c = true) (hsymbol : Lexeme.symbol? (c :: rest) = none) :
    FirstPiece c rest (.error ⟨.unexpectedCharacter c, []⟩)

theorem firstPiece {c : Char} {rest : List Char} {read : Except Failure Piece}
    (hpiece : piece c rest = read) : FirstPiece c rest read := by
  subst hpiece
  fun_cases piece c rest with
  | case1 hline => exact .lineFeed hline
  | case2 hline hblank => exact .blank hline hblank
  | case3 _ _ hcomment comment behind hrun =>
    obtain ⟨hslash, hnext⟩ := hcomment
    obtain ⟨more, hmore⟩ := List.head?_eq_some_iff.1 hnext
    have hfirst := FirstPiece.comment hslash hmore
    rw [hrun] at hfirst
    exact hfirst
  | case4 hline hblank _ hdigit written behind hnumber =>
    have hfirst : FirstPiece c rest _ := .number hline hblank hdigit
    rw [hnumber] at hfirst
    exact hfirst
  | case5 hline hblank _ hdigit hquote q hquoted =>
    exact .text hline hblank hdigit hquote hquoted
  | case6 hline hblank _ hdigit hquote hquoted =>
    exact .unterminated hline hblank hdigit hquote hquoted
  | case7 hline hblank _ hdigit hquote before e hquoted =>
    exact .badEscape hline hblank hdigit hquote hquoted
  | case8 hline hblank _ hdigit hquote hstart written behind hword =>
    have hfirst : FirstPiece c rest _ := .word hline hblank hdigit hquote hstart
    rw [hword] at hfirst
    exact hfirst
  | case9 hline hblank hcomment hdigit hquote hstart kind written behind hsymbol =>
    exact .symbol hline hblank hcomment hdigit hquote hstart hsymbol
  | case10 hline hblank _ hdigit hquote hstart hsymbol =>
    exact .unknown hline hblank hdigit hquote hstart hsymbol

theorem piece_blank (rest : List Char) : piece ' ' rest = .ok ⟨.skipped, [' '], rest⟩ := rfl

theorem piece_lineFeed (rest : List Char) : piece '\n' rest = .ok ⟨.lineFeed, ['\n'], rest⟩ := rfl

theorem piece_comment (rest : List Char) :
    piece '/' ('/' :: rest) = .ok ⟨.skipped, '/' :: (Lexeme.run (· != '\n') ('/' :: rest)).1,
      (Lexeme.run (· != '\n') ('/' :: rest)).2⟩ := rfl

/-- A comment is a piece, up to the end of its line. -/
theorem proper_comment (rest : List Char) :
    Proper ⟨.skipped, '/' :: (Lexeme.run (· != '\n') ('/' :: rest)).1,
      (Lexeme.run (· != '\n') ('/' :: rest)).2⟩ := by
  have hrun : Lexeme.run (· != '\n') ('/' :: rest) =
      ('/' :: rest.takeWhile (· != '\n'), rest.dropWhile (· != '\n')) := by
    rw [Lexeme.run, List.takeWhile_cons_of_pos (by decide), List.dropWhile_cons_of_pos (by decide)]
  rw [hrun]
  refine .comment ?_ ?_
  · intro hmem
    have hne := Lexeme.mem_run hmem
    exact absurd hne (by decide)
  · intro c hc
    have hstop := List.head?_dropWhile_not (· != '\n') rest
    rw [Option.mem_def.1 hc] at hstop
    simpa using hstop

section

variable {c : Char} (hline : c ≠ '\n') (hblank : ¬ Text.isBlank c = true)
include hline hblank

/-- A text that begins with a digit has a number as its first piece. -/
theorem piece_number (hdigit : c.isDigit = true) (rest : List Char) :
    piece c rest = .ok ⟨.token (numberKind (Lexeme.number (c :: rest)).1),
      (Lexeme.number (c :: rest)).1, (Lexeme.number (c :: rest)).2⟩ := by
  have hcomment : ¬ (c = '/' ∧ rest.head? = some '/') := by
    rintro ⟨rfl, -⟩
    exact absurd hdigit (by decide)
  exact (if_neg hline).trans <| (if_neg hblank).trans <| (if_neg hcomment).trans (if_pos hdigit)

theorem spells_number (hdigit : c.isDigit = true) (rest : List Char) :
    Spells (Lexeme.number (c :: rest)).1 (numberKind (Lexeme.number (c :: rest)).1) := by
  obtain ⟨tail, hwritten⟩ := Lexeme.number_fst_eq_cons rest hdigit
  refine ⟨c, tail, hwritten, fun more => ?_⟩
  have hagain := Lexeme.number_blank (c :: rest) more
  rw [hwritten, List.cons_append] at hagain
  rw [piece_number hline hblank hdigit, hagain, hwritten]

/-- A text that begins with a quote has a string as its first piece, or the fault of one. -/
theorem piece_quoted (hdigit : ¬ c.isDigit = true) (hquote : c = '"' ∨ c = '\'')
    (rest : List Char) :
    piece c rest = match Lexeme.quoted c rest with
      | .ok q => .ok ⟨.token (.text (String.ofList q.content)), c :: q.written, q.rest⟩
      | .error .unterminated => .error ⟨.unterminatedString, []⟩
      | .error (.badEscape before e) => .error ⟨.invalidEscape e, c :: before⟩ := by
  have hcomment : ¬ (c = '/' ∧ rest.head? = some '/') := by
    rintro ⟨rfl, -⟩
    simp at hquote
  exact (if_neg hline).trans <| (if_neg hblank).trans <| (if_neg hcomment).trans <|
    (if_neg hdigit).trans (if_pos hquote)

theorem spells_text (hdigit : ¬ c.isDigit = true) (hquote : c = '"' ∨ c = '\'')
    {rest : List Char} {q : Lexeme.Quoted} (hquoted : Lexeme.quoted c rest = .ok q) :
    Spells (c :: q.written) (.text (String.ofList q.content)) := by
  refine ⟨c, q.written, rfl, fun more => ?_⟩
  rw [piece_quoted hline hblank hdigit hquote, Lexeme.quoted_append_rest hquoted]

/-- A text that begins with a letter has a word as its first piece. -/
theorem piece_word (hdigit : ¬ c.isDigit = true) (hquote : ¬ (c = '"' ∨ c = '\''))
    (hstart : Lexeme.isWordStart c = true) (rest : List Char) :
    piece c rest = .ok ⟨.token (wordKind (Lexeme.word (c :: rest)).1),
      (Lexeme.word (c :: rest)).1, (Lexeme.word (c :: rest)).2⟩ := by
  have hcomment : ¬ (c = '/' ∧ rest.head? = some '/') := by
    rintro ⟨rfl, -⟩
    exact absurd hstart (by decide)
  exact (if_neg hline).trans <| (if_neg hblank).trans <| (if_neg hcomment).trans <|
    (if_neg hdigit).trans <| (if_neg hquote).trans (if_pos hstart)

theorem spells_word (hdigit : ¬ c.isDigit = true) (hquote : ¬ (c = '"' ∨ c = '\''))
    (hstart : Lexeme.isWordStart c = true) (rest : List Char) :
    Spells (Lexeme.word (c :: rest)).1 (wordKind (Lexeme.word (c :: rest)).1) := by
  obtain ⟨tail, hwritten⟩ := Lexeme.word_fst_eq_cons rest hstart
  refine ⟨c, tail, hwritten, fun more => ?_⟩
  have hagain := Lexeme.word_blank (c :: rest) more
  rw [hwritten, List.cons_append] at hagain
  rw [piece_word hline hblank hdigit hquote hstart, hagain, hwritten]

/-- What is neither skipped nor a number, a string or a word is a symbol or nothing. -/
theorem piece_symbol? {rest : List Char} (hcomment : ¬ (c = '/' ∧ rest.head? = some '/'))
    (hdigit : ¬ c.isDigit = true) (hquote : ¬ (c = '"' ∨ c = '\''))
    (hstart : ¬ Lexeme.isWordStart c = true) :
    piece c rest = match Lexeme.symbol? (c :: rest) with
      | some (kind, written, rest) => .ok ⟨.token kind, written, rest⟩
      | none => .error ⟨.unexpectedCharacter c, []⟩ := by
  exact (if_neg hline).trans <| (if_neg hblank).trans <| (if_neg hcomment).trans <|
    (if_neg hdigit).trans <| (if_neg hquote).trans (if_neg hstart)

/-- A slash of its own is no comment once a blank stands behind it. -/
theorem spells_symbol (hdigit : ¬ c.isDigit = true) (hquote : ¬ (c = '"' ∨ c = '\''))
    (hstart : ¬ Lexeme.isWordStart c = true) {rest written behind : List Char} {kind : TokenKind}
    (hsymbol : Lexeme.symbol? (c :: rest) = some (kind, written, behind)) :
    Spells written kind := by
  obtain ⟨happend, hne⟩ := Lexeme.symbol?_append hsymbol
  obtain ⟨tail, rfl⟩ := Lexeme.exists_eq_cons_of_append happend hne
  refine ⟨c, tail, rfl, fun more => ?_⟩
  have hagain := Lexeme.symbol?_blank hsymbol more
  have hcomment : ¬ (c = '/' ∧ (tail ++ ' ' :: more).head? = some '/') := by
    rintro ⟨rfl, hnext⟩
    cases tail with
    | nil => simp at hnext
    | cons next tail =>
      unfold Lexeme.symbol? at hsymbol
      split at hsymbol <;> cases hsymbol
  rw [List.cons_append] at hagain
  rw [piece_symbol? hline hblank hcomment hdigit hquote hstart, hagain]

end

/-- Every piece that is read is one of these. -/
theorem proper_of_piece {c : Char} {rest : List Char} {p : Piece} (hpiece : piece c rest = .ok p) :
    Proper p := by
  cases firstPiece hpiece with
  | lineFeed hline =>
    rw [hline]
    exact .lineFeed rest
  | blank hline hblank => exact .blank hblank hline rest
  | comment hslash hrest =>
    rw [hslash, hrest]
    exact proper_comment _
  | number hline hblank hdigit =>
    exact .token (Lexeme.lineFeed_not_mem_number _) (spells_number hline hblank hdigit rest)
  | @text q hline hblank hdigit hquote hquoted =>
    have hlines : '\n' ∉ c :: q.written := by
      simp [Ne.symm hline, Lexeme.lineFeed_not_mem_quoted hline hquoted]
    exact .token hlines (spells_text hline hblank hdigit hquote hquoted)
  | word hline hblank hdigit hquote hstart =>
    exact .token (Lexeme.lineFeed_not_mem_word _)
      (spells_word hline hblank hdigit hquote hstart rest)
  | symbol hline hblank hcomment hdigit hquote hstart hsymbol =>
    exact .token (Lexeme.lineFeed_not_mem_symbol? hsymbol)
      (spells_symbol hline hblank hdigit hquote hstart hsymbol)

/-- What was read before a fault is the front of what is there. -/
theorem before_append_of_failure {c : Char} {rest : List Char} {failure : Failure}
    (hpiece : piece c rest = .error failure) :
    ∃ behind, c :: rest = failure.before ++ behind := by
  cases firstPiece hpiece with
  | badEscape hline hblank hdigit hquote hquoted =>
    obtain ⟨behind, rfl⟩ := Lexeme.quoted_append_of_badEscape hquoted
    exact ⟨_, rfl⟩
  | unterminated | unknown => exact ⟨_, rfl⟩

end Lexer

end Candlewick
