import Candlewick.Decimal.Reader
import Candlewick.Text.Blank
import Candlewick.Token

namespace Candlewick.Lexeme

/-- Letters that a word can begin with. -/
def isWordStart (c : Char) : Bool :=
  c.isAlpha || c == '_'

/-- Letters that a word can go on with. -/
def isWordRest (c : Char) : Bool :=
  c.isAlphanum || c == '_'

/-- The characters in front as long as they have a property, and the rest. -/
def run (p : Char → Bool) (cs : List Char) : List Char × List Char :=
  (cs.takeWhile p, cs.dropWhile p)

/-- Digits, and a fraction if a digit follows the point. -/
def number (cs : List Char) : List Char × List Char :=
  let (whole, rest) := run Char.isDigit cs
  match rest with
  | '.' :: digit :: more =>
    if digit.isDigit then
      let (fraction, rest) := run Char.isDigit (digit :: more)
      (whole ++ '.' :: fraction, rest)
    else
      (whole, rest)
  | _ => (whole, rest)

/-- Letters, digits and underscores; a point belongs to the word if a letter follows it. -/
def word : List Char → List Char × List Char
  | [] => ([], [])
  | '.' :: [] => ([], ['.'])
  | '.' :: c :: rest =>
    if isWordStart c then
      let (taken, rest) := word (c :: rest)
      ('.' :: taken, rest)
    else
      ([], '.' :: c :: rest)
  | c :: rest =>
    if isWordRest c then
      let (taken, rest) := word rest
      (c :: taken, rest)
    else
      ([], c :: rest)

/-- The character that an escape stands for. -/
def unescaped? : Char → Option Char
  | 'n' => some '\n'
  | 't' => some '\t'
  | 'r' => some '\r'
  | '\\' => some '\\'
  | '"' => some '"'
  | '\'' => some '\''
  | _ => none

/-- A string after its opening quote: the characters it stands for, those it is written with, and
    the rest. -/
structure Quoted where
  content : List Char
  written : List Char
  rest : List Char

/-- Why a string cannot be read: it does not end on its line, or a backslash is followed by a
    character that makes no escape. `before` holds what was read up to the backslash. -/
inductive QuoteFault where
  | unterminated
  | badEscape (before : List Char) (c : Char)

/-- A string after its opening quote, up to the closing one. -/
def quoted (quote : Char) : List Char → Except QuoteFault Quoted
  | [] => .error .unterminated
  | c :: rest =>
    if c = quote then
      .ok ⟨[], [c], rest⟩
    else if c = '\n' then
      .error .unterminated
    else if c = '\\' then
      match rest with
      | [] => .error .unterminated
      | escape :: rest =>
        match unescaped? escape, quoted quote rest with
        | none, _ => .error (.badEscape [c] escape)
        | some value, .ok tail =>
          .ok ⟨value :: tail.content, c :: escape :: tail.written, tail.rest⟩
        | some _, .error (.badEscape before e) => .error (.badEscape (c :: escape :: before) e)
        | some _, .error .unterminated => .error .unterminated
    else
      match quoted quote rest with
      | .ok tail => .ok ⟨c :: tail.content, c :: tail.written, tail.rest⟩
      | .error (.badEscape before e) => .error (.badEscape (c :: before) e)
      | .error .unterminated => .error .unterminated

/-- The operator or the sign in front, the characters it is written with, and the rest. Of two
    operators the longer one is taken. -/
def symbol? : List Char → Option (TokenKind × List Char × List Char)
  | '>' :: '=' :: rest => some (.mark .greaterEqual, ['>', '='], rest)
  | '<' :: '=' :: rest => some (.mark .lessEqual, ['<', '='], rest)
  | '=' :: '=' :: rest => some (.mark .equalEqual, ['=', '='], rest)
  | '!' :: '=' :: rest => some (.mark .notEqual, ['!', '='], rest)
  | ':' :: '=' :: rest => some (.mark .assign, [':', '='], rest)
  | '+' :: rest => some (.mark .plus, ['+'], rest)
  | '-' :: rest => some (.mark .minus, ['-'], rest)
  | '*' :: rest => some (.mark .star, ['*'], rest)
  | '/' :: rest => some (.mark .slash, ['/'], rest)
  | '%' :: rest => some (.mark .percent, ['%'], rest)
  | '^' :: rest => some (.mark .caret, ['^'], rest)
  | '>' :: rest => some (.mark .greater, ['>'], rest)
  | '<' :: rest => some (.mark .less, ['<'], rest)
  | '=' :: rest => some (.mark .assign, ['='], rest)
  | '(' :: rest => some (.punctuation .leftParen, ['('], rest)
  | ')' :: rest => some (.punctuation .rightParen, [')'], rest)
  | '[' :: rest => some (.punctuation .leftBracket, ['['], rest)
  | ']' :: rest => some (.punctuation .rightBracket, [']'], rest)
  | ',' :: rest => some (.punctuation .comma, [','], rest)
  | _ => none

/-- The characters of a run and the rest make up the text. -/
theorem run_append (p : Char → Bool) (cs : List Char) : (run p cs).1 ++ (run p cs).2 = cs :=
  List.takeWhile_append_dropWhile

theorem number_append (cs : List Char) : (number cs).1 ++ (number cs).2 = cs := by
  have hrun := run_append Char.isDigit cs
  unfold number
  generalize run Char.isDigit cs = split at hrun ⊢
  obtain ⟨whole, rest⟩ := split
  subst hrun
  simp only
  split
  · split
    · simp [run_append]
    · rfl
  · rfl

theorem word_append (cs : List Char) : (word cs).1 ++ (word cs).2 = cs := by
  fun_induction word cs <;> simp_all

/-- A string as it is written, up to its closing quote, and the rest make up the text. Because of
    that quote it is never empty. -/
theorem quoted_append {quote : Char} {cs : List Char} {q : Quoted} (h : quoted quote cs = .ok q) :
    q.written ++ q.rest = cs ∧ q.written ≠ [] := by
  fun_induction quoted quote cs generalizing q <;> grind

/-- The characters of a symbol, at least one, and the rest make up the text. -/
theorem symbol?_append {cs written rest : List Char} {kind : TokenKind}
    (h : symbol? cs = some (kind, written, rest)) : written ++ rest = cs ∧ written ≠ [] := by
  unfold symbol? at h
  split at h <;> simp at h <;> obtain ⟨_, rfl, rfl⟩ := h <;> simp

end Candlewick.Lexeme
