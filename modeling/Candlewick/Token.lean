import Candlewick.Builtin
import Candlewick.Candle
import Candlewick.Decimal.Layout

namespace Candlewick

/-- A place in a source text. The offset counts bytes from zero, lines and columns count from one,
    and columns count characters. -/
structure Place where
  offset : Nat
  line : Nat
  column : Nat
deriving DecidableEq

namespace Place

/-- The place before any character. -/
def start : Place := ⟨0, 1, 1⟩

/-- The place no source has, for tokens that come from none. -/
def nowhere : Place := ⟨0, 0, 0⟩

/-- The place behind one more character. -/
def next (place : Place) (c : Char) : Place :=
  if c = '\n' then
    ⟨place.offset + c.utf8Size, place.line + 1, 1⟩
  else
    ⟨place.offset + c.utf8Size, place.line, place.column + 1⟩

/-- The place behind a run of characters. -/
def after (place : Place) (cs : List Char) : Place :=
  cs.foldl next place

@[simp] theorem after_nil (place : Place) : place.after [] = place := rfl

/-- The place behind two texts is that behind the second, from the place behind the first. -/
@[simp] theorem after_append (place : Place) (front back : List Char) :
    place.after (front ++ back) = (place.after front).after back := by
  simp [after]

end Place

/-- The reserved words. -/
inductive Keyword where
  | andWord
  | orWord
  | notWord
  | ifWord
  | thenWord
  | elseWord
  | trueWord
  | falseWord
  | strategyWord
  | buyWord
  | sellWord
  | price (field : PriceField)
  | function (builtin : Builtin)
deriving DecidableEq

namespace Keyword

/-- The reserved words that stand for themselves. -/
def plainWords : List (String × Keyword) :=
  [("and", andWord), ("or", orWord), ("not", notWord), ("if", ifWord), ("then", thenWord),
    ("else", elseWord), ("true", trueWord), ("false", falseWord), ("strategy", strategyWord),
    ("buy", buyWord), ("sell", sellWord)]

/-- The reserved word that a word is, if it is one. -/
def ofWord? (word : String) : Option Keyword :=
  plainWords.lookup word <|> (PriceField.ofName? word).map price <|>
    (Builtin.ofName? word).map function

/-- The full spelling of a reserved word. -/
def name : Keyword → String
  | andWord => "and"
  | orWord => "or"
  | notWord => "not"
  | ifWord => "if"
  | thenWord => "then"
  | elseWord => "else"
  | trueWord => "true"
  | falseWord => "false"
  | strategyWord => "strategy"
  | buyWord => "buy"
  | sellWord => "sell"
  | price field => field.name
  | function builtin => builtin.qualifiedName

end Keyword

/-- The operators that are not words. -/
inductive Mark where
  | plus
  | minus
  | star
  | slash
  | percent
  | caret
  | greater
  | greaterEqual
  | less
  | lessEqual
  | equalEqual
  | notEqual
  | assign
deriving DecidableEq

/-- Brackets and the comma. -/
inductive Punctuation where
  | leftParen
  | rightParen
  | leftBracket
  | rightBracket
  | comma
deriving DecidableEq

/-- The character of a punctuation sign. -/
def Punctuation.text : Punctuation → String
  | leftParen => "("
  | rightParen => ")"
  | leftBracket => "["
  | rightBracket => "]"
  | comma => ","

/-- What a token is. -/
inductive TokenKind where
  | number (value : Float)
  | text (content : String)
  | identifier (name : String)
  | keyword (word : Keyword)
  | mark (mark : Mark)
  | punctuation (sign : Punctuation)
  | lineEnd
  | sourceEnd
deriving DecidableEq

/-- A token with its text and its place. -/
structure Token where
  kind : TokenKind
  lexeme : String
  place : Place
deriving DecidableEq

/-- A kind in words. -/
def TokenKind.display : TokenKind → String
  | number value => "number " ++ Decimal.text value
  | text content => "string \"" ++ content ++ "\""
  | identifier name => "identifier '" ++ name ++ "'"
  | keyword _ => "keyword"
  | mark _ => "operator"
  | punctuation _ => "punctuation"
  | lineEnd => "end of line"
  | sourceEnd => "end of input"

namespace Token

/-- The token at the end of a source. -/
def sourceEnd (place : Place) : Token :=
  ⟨.sourceEnd, "", place⟩

/-- A token as messages name it: by its text, if it has one that shows. -/
def describe (token : Token) : String :=
  match token.kind with
  | .lineEnd | .sourceEnd => token.kind.display
  | _ => "'" ++ token.lexeme ++ "'"

end Token

end Candlewick
