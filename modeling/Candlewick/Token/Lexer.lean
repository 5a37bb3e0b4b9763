import Candlewick.Diagnostic
import Candlewick.Token.Lexeme

namespace Candlewick

/-- Why a source cannot be cut into tokens. -/
inductive LexFault where
  | invalidEscape (c : Char)
  | unterminatedString
  | unexpectedCharacter (c : Char)
deriving DecidableEq

/-- The wording of a fault. -/
def LexFault.message : LexFault → String
  | invalidEscape c => "invalid escape sequence: \\" ++ c.toString
  | unterminatedString => "unterminated string"
  | unexpectedCharacter c => "unexpected character '" ++ c.toString ++ "'"

/-- A fault and its place. -/
structure LexError where
  fault : LexFault
  place : Place
deriving DecidableEq

/-- The error as a diagnostic. -/
def LexError.diagnostic (e : LexError) : Diagnostic :=
  ⟨.lexing, e.fault.message, e.place⟩

namespace Lexer

/-- What a source begins with. -/
inductive Head where
  | skipped
  | lineFeed
  | token (kind : TokenKind)

/-- What a source begins with, the characters it is written with, and the rest. -/
structure Piece where
  head : Head
  written : List Char
  rest : List Char

/-- A fault, and what was read before its place. -/
structure Failure where
  fault : LexFault
  before : List Char

/-- The kind of a word. -/
def wordKind (word : List Char) : TokenKind :=
  match Keyword.ofWord? (String.ofList word) with
  | some keyword => .keyword keyword
  | none => .identifier (String.ofList word)

/-- The kind of a run of digits. -/
def numberKind (written : List Char) : TokenKind :=
  .number ((Decimal.unsigned? written).getD 0)

/-- The first piece of a source that begins with `c`. -/
def piece (c : Char) (rest : List Char) : Except Failure Piece :=
  if c = '\n' then
    .ok ⟨.lineFeed, [c], rest⟩
  else if Text.isBlank c then
    .ok ⟨.skipped, [c], rest⟩
  else if c = '/' ∧ rest.head? = some '/' then
    let (comment, rest) := Lexeme.run (· != '\n') rest
    .ok ⟨.skipped, c :: comment, rest⟩
  else if c.isDigit then
    let (written, rest) := Lexeme.number (c :: rest)
    .ok ⟨.token (numberKind written), written, rest⟩
  else if c = '"' ∨ c = '\'' then
    match Lexeme.quoted c rest with
    | .ok q => .ok ⟨.token (.text (String.ofList q.content)), c :: q.written, q.rest⟩
    | .error .unterminated => .error ⟨.unterminatedString, []⟩
    | .error (.badEscape before e) => .error ⟨.invalidEscape e, c :: before⟩
  else if Lexeme.isWordStart c then
    let (written, rest) := Lexeme.word (c :: rest)
    .ok ⟨.token (wordKind written), written, rest⟩
  else
    match Lexeme.symbol? (c :: rest) with
    | some (kind, written, rest) => .ok ⟨.token kind, written, rest⟩
    | none => .error ⟨.unexpectedCharacter c, []⟩

theorem number_fst_ne_nil {c : Char} (rest : List Char) (h : c.isDigit) :
    (Lexeme.number (c :: rest)).1 ≠ [] := by
  unfold Lexeme.number
  simp only [Lexeme.run, List.takeWhile_cons, List.dropWhile_cons, h, if_true]
  split
  · split <;> simp
  · simp

theorem word_fst_ne_nil {c : Char} (rest : List Char) (h : Lexeme.isWordStart c) :
    (Lexeme.word (c :: rest)).1 ≠ [] := by
  have hrest : Lexeme.isWordRest c := by
    simp only [Lexeme.isWordStart, Lexeme.isWordRest, Char.isAlphanum, Bool.or_eq_true] at h ⊢
    rcases h with h | h
    · exact .inl (.inl h)
    · exact .inr h
  have hpoint : c ≠ '.' := by
    rintro rfl
    exact absurd h (by decide)
  unfold Lexeme.word
  split <;> simp_all

/-- A piece and the rest make up the source, and the piece is not empty. -/
theorem piece_append {c : Char} {rest : List Char} {p : Piece} (h : piece c rest = .ok p) :
    p.written ++ p.rest = c :: rest ∧ p.written ≠ [] := by
  unfold piece at h
  split at h
  · cases h; simp
  split at h
  · cases h; simp
  split at h
  · cases h; simp
  split at h
  · cases h; exact ⟨Lexeme.number_append _, number_fst_ne_nil _ (by assumption)⟩
  split at h
  · split at h
    · cases h
      rename_i q hq
      simp [(Lexeme.quoted_append hq).1]
    · cases h
    · cases h
  split at h
  · cases h; exact ⟨Lexeme.word_append _, word_fst_ne_nil _ (by assumption)⟩
  split at h
  · cases h
    rename_i hsymbol
    exact Lexeme.symbol?_append hsymbol
  · cases h

/-- A piece takes at least one character, which is why cutting a source comes to an end. -/
theorem length_rest_lt {c : Char} {rest : List Char} {p : Piece} (h : piece c rest = .ok p) :
    p.rest.length < (c :: rest).length := by
  obtain ⟨happend, hwritten⟩ := piece_append h
  have hlength := congrArg List.length happend
  have hpositive := List.length_pos_iff.2 hwritten
  simp only [List.length_append] at hlength
  omega

/-- The number of open brackets behind a token. A closing bracket without an open one is ignored
    here. -/
def openAfter (depth : Nat) : TokenKind → Nat
  | .punctuation .leftParen | .punctuation .leftBracket => depth + 1
  | .punctuation .rightParen | .punctuation .rightBracket => depth - 1
  | _ => depth

/-- The token that a piece makes, if it makes one. -/
def Piece.token? (p : Piece) (place : Place) (depth : Nat) : Option Token :=
  match p.head with
  | .skipped => none
  | .lineFeed => if depth = 0 then some ⟨.lineEnd, String.ofList p.written, place⟩ else none
  | .token kind => some ⟨kind, String.ofList p.written, place⟩

/-- The number of open brackets behind a piece. -/
def Piece.openAfter (p : Piece) (depth : Nat) : Nat :=
  match p.head with
  | .token kind => Lexer.openAfter depth kind
  | _ => depth

/-- The tokens of a source from a place on, with `depth` brackets open. Blanks and comments are
    dropped, and so are line feeds within brackets: an expression in brackets may run over several
    lines. -/
def scan (place : Place) (depth : Nat) (source : List Char) : Except LexError (List Token) :=
  match source with
  | [] => .ok [Token.sourceEnd place]
  | c :: rest =>
    match _h : piece c rest with
    | .error failure => .error ⟨failure.fault, place.after failure.before⟩
    | .ok p =>
      match scan (place.after p.written) (p.openAfter depth) p.rest with
      | .error e => .error e
      | .ok tokens => .ok ((p.token? place depth).toList ++ tokens)
termination_by source.length
decreasing_by exact length_rest_lt (by assumption)

end Lexer

/-- The tokens of a source. The last one is the end of the source. -/
def tokenize (source : String) : Except LexError (List Token) :=
  Lexer.scan Place.start 0 source.toList

end Candlewick
