import Candlewick.Proofs.Decimal.Unsigned
import Candlewick.Proofs.Grammar.Phrase
import Candlewick.Proofs.Token.Piece
import Candlewick.Proofs.Token.Written

namespace Candlewick

namespace Lexeme

/-- What a word may go on with: letters, digits and underscores, and points in front of a letter or
    an underscore. -/
inductive IsWordTail : List Char → Prop where
  | nil : IsWordTail []
  | letter {c : Char} {rest : List Char} (hletter : isWordRest c = true)
    (hrest : IsWordTail rest) : IsWordTail (c :: rest)
  | point {c : Char} {rest : List Char} (hstart : isWordStart c = true)
    (hrest : IsWordTail rest) : IsWordTail ('.' :: c :: rest)

/-- The syntax of words: a letter or an underscore, and what a word may go on with. -/
def IsWord (cs : List Char) : Prop :=
  ∃ c rest, cs = c :: rest ∧ isWordStart c = true ∧ IsWordTail rest

/-- A word goes on with what a word may go on with. -/
theorem isWordTail_word (cs : List Char) : IsWordTail (word cs).1 := by
  fun_induction word cs with
  | case1 | case2 | case4 | case6 => exact .nil
  | case3 c rest hstart taken later hword ih =>
    obtain ⟨behind, hcons⟩ := word_fst_eq_cons rest hstart
    rw [hword] at ih hcons
    simp only at ih hcons ⊢
    subst hcons
    cases ih with
    | letter _ hrest => exact .point hstart hrest
    | point => exact absurd hstart (by decide)
  | case5 c rest _ _ hletter taken later hword ih =>
    rw [hword] at ih
    exact .letter hletter ih

/-- What is read as a word has the syntax of words. -/
theorem isWord_word {c : Char} (hstart : isWordStart c = true) (rest : List Char) :
    IsWord (word (c :: rest)).1 := by
  have hword := isWordTail_word (c :: rest)
  obtain ⟨taken, hcons⟩ := word_fst_eq_cons rest hstart
  rw [hcons] at hword ⊢
  cases hword with
  | letter _ hrest => exact ⟨c, taken, rfl, hstart, hrest⟩
  | point => exact absurd hstart (by decide)

end Lexeme

/-- A name that a program can give: a word that is not reserved. -/
def IsVariable (name : String) : Prop :=
  Lexeme.IsWord name.toList ∧ Keyword.ofWord? name = none

/-- A name that a call can have: that of a function every strategy can call, or one that a program
    gives. -/
def IsCallee (name : String) : Prop :=
  (Builtin.ofName? name).isSome = true ∨ IsVariable name

/-- What a terminal carries into a tree: a number that is not negative, a name that a program can
    give, or one of the names of a function. -/
def Grammar.Terminal.IsLexical (terminal : Grammar.Terminal) : Prop :=
  match terminal.kind with
  | .number value => Decimal.IsNonnegative value
  | .identifier name => IsVariable name
  | .keyword (.function _) => (Builtin.ofName? terminal.spelling).isSome = true
  | _ => True

/-- What is read as a number is not below zero, since no sign is read with it. -/
theorem isNonnegative_number {c : Char} (hdigit : c.isDigit = true) (rest : List Char) :
    Decimal.IsNonnegative ((Decimal.unsigned? (Lexeme.number (c :: rest)).1).getD 0) := by
  obtain ⟨tail, hwritten⟩ := Lexeme.number_fst_eq_cons rest hdigit
  rw [hwritten]
  cases hread : Decimal.unsigned? (c :: tail) with
  | none => exact Decimal.IsUnsigned.isNonnegative rfl
  | some x => exact (Decimal.isUnsigned_of_unsigned? hdigit hread).isNonnegative

/-- A word that is the keyword of a function is a name of that function. -/
theorem Keyword.ofWord?_eq_function {word : String} {builtin : Builtin}
    (hword : ofWord? word = some (.function builtin)) : Builtin.ofName? word = some builtin := by
  have hplain : plainWords.lookup word ≠ some (.function builtin) := by
    intro hlookup
    obtain ⟨front, back, hsplit, -⟩ := List.lookup_eq_some_iff.1 hlookup
    have hmem : (word, Keyword.function builtin) ∈ plainWords := by simp [hsplit]
    simp [plainWords] at hmem
  unfold ofWord? at hword
  simp only [Option.orElse_eq_orElse, Option.orElse_eq_or, Option.or_eq_some_iff,
    Option.map_eq_some_iff] at hword
  rcases hword with hlookup | ⟨-, ⟨field, -, hprice⟩ | ⟨-, other, hname, hfunction⟩⟩
  · exact absurd hlookup hplain
  · cases hprice
  · cases hfunction
    exact hname

namespace Lexer

/-- A terminal carries into a tree what it may, whichever of the four ways its token is written
    in. -/
theorem Written.isLexical {token : Token}
    (hwritten : Written token.lexeme.toList token.kind) : token.terminal.IsLexical := by
  obtain ⟨kind, lexeme, place⟩ := token
  simp only at hwritten
  generalize hlexeme : lexeme.toList = written at hwritten
  cases hwritten with
  | number hdigit rest => exact isNonnegative_number hdigit rest
  | text hquoted => trivial
  | word hstart rest =>
    have hword := Lexeme.isWord_word hstart rest
    rw [← hlexeme] at hword ⊢
    unfold wordKind
    rw [String.ofList_toList]
    split
    · rename_i keyword hkeyword
      cases keyword with
      | function builtin =>
        exact Option.isSome_iff_exists.2 ⟨builtin, Keyword.ofWord?_eq_function hkeyword⟩
      | _ => trivial
    · rename_i hfree
      exact ⟨hword, hfree⟩
  | symbol hsymbol =>
    unfold Lexeme.symbol? at hsymbol
    split at hsymbol <;> cases hsymbol <;> trivial

end Lexer

/-- What the tokens of a source carry into a tree. -/
theorem isLexical_of_mem_tokenize {source : String} {tokens : List Token}
    (hsource : tokenize source = .ok tokens) {token : Token} (htoken : token ∈ tokens) :
    token.terminal.IsLexical := by
  rcases Lexer.written_of_mem_scan hsource htoken with hline | hwritten | hend
  · simp [Grammar.Terminal.IsLexical, hline]
  · exact hwritten.isLexical
  · simp [Grammar.Terminal.IsLexical, hend]

end Candlewick
