import Candlewick.Node
import Candlewick.Token.Lexer

namespace Candlewick

/-- The bounds on a source. `nesting` bounds brackets, conditionals, assignments and operators in
    front of operands within each other, `depth` the levels of a tree. -/
structure Limits where
  nesting : Nat
  depth : Nat
deriving DecidableEq

/-- The bounds for every source: they keep both reading and evaluation from nesting without end. -/
def Limits.standard : Limits := ⟨64, 256⟩

/-- What the grammar asks for at a place. -/
inductive Wanted where
  | word (keyword : Keyword)
  | sign (sign : Punctuation)
  | argumentsOf (callee : String)
  | strategyName
  | lineEnd
  | expression
deriving DecidableEq

/-- What is asked for, in words. -/
def Wanted.display : Wanted → String
  | word keyword => "'" ++ keyword.name ++ "'"
  | sign bracket => "'" ++ bracket.text ++ "'"
  | argumentsOf callee => "'(' after '" ++ callee ++ "'"
  | strategyName => "strategy name string"
  | lineEnd => "end of line"
  | expression => "expression"

/-- Why a source is not a program. -/
inductive ParseFault where
  | unreadable (fault : LexFault)
  | expected (wanted : Wanted) (found : Token)
  | nestedTooDeeply
  | misplacedRule
  | noStatements
  | unexpectedEnd
deriving DecidableEq

/-- The wording of a fault. -/
def ParseFault.message : ParseFault → String
  | unreadable fault => fault.message
  | expected wanted found => "expected " ++ wanted.display ++ ", found " ++ found.describe
  | nestedTooDeeply => "expression nested too deeply"
  | misplacedRule => "buy/sell rules are only allowed as statements"
  | noStatements => "program contains no statements"
  | unexpectedEnd => "unexpected end of input"

/-- A fault and its place. -/
structure ParseError where
  fault : ParseFault
  place : Place
deriving DecidableEq

/-- The error as a diagnostic. -/
def ParseError.diagnostic (e : ParseError) : Diagnostic :=
  ⟨.parsing, e.fault.message, e.place⟩

/-- A source that cannot be cut into tokens is no program either. -/
def LexError.toParseError (e : LexError) : ParseError :=
  ⟨.unreadable e.fault, e.place⟩

/-- A note that a source could be read in two ways: at this place ends a conditional that could have
    had the `else` of the conditional within it. -/
structure Warning where
  place : Place
deriving DecidableEq

/-- The wording of a warning. -/
def Warning.message (_ : Warning) : String :=
  "ambiguous dangling 'else'; bound to the nearest 'if'"

/-- A warning with its place. -/
def Warning.display (w : Warning) : String :=
  s!"line {w.place.line}, column {w.place.column}: {w.message}"

namespace Grammar

/-- What is known in the middle of a reading: the tokens ahead, how deep the reading is nested, the
    warnings that will be handed out with the program, and every warning that was announced. An
    announcement cannot be taken back, a warning can. -/
structure State where
  tokens : List Token
  nesting : Nat := 0
  warnings : List Warning := []
  announced : List Warning := []

/-- A reader of a part of the grammar. An error keeps the state in which it arose. -/
abbrev Reader (α : Type) := EStateM ParseError State α

/-- The next token. Behind all tokens there is nothing but the end. -/
def State.ahead (s : State) : Token :=
  s.tokens.headD (Token.sourceEnd Place.nowhere)

/-- The next token, which stays where it is. -/
def peek : Reader Token := fun s => .ok s.ahead s

/-- The kind of the next token. -/
def peekKind : Reader TokenKind := fun s => .ok s.ahead.kind s

/-- The kind of the token after the next one, if there is one. -/
def peekSecond? : Reader (Option TokenKind) := fun s => .ok (s.tokens[1]?.map (·.kind)) s

/-- The number of tokens ahead. -/
def remaining : Reader Nat := fun s => .ok s.tokens.length s

/-- Takes the next token. -/
def skip : Reader Unit := fun s => .ok () { s with tokens := s.tokens.tail }

/-- Takes the ends of lines that come next. -/
def skipLineEnds : Reader Unit := fun s =>
  .ok () { s with tokens := s.tokens.dropWhile (·.kind == .lineEnd) }

/-- Refuses the source at the next token. -/
def refuse {α : Type} (fault : ParseFault) : Reader α := fun s => .error ⟨fault, s.ahead.place⟩ s

/-- Refuses the next token because something else is asked for. -/
def unexpected {α : Type} (wanted : Wanted) : Reader α := fun s =>
  .error ⟨.expected wanted s.ahead, s.ahead.place⟩ s

/-- What a loop of the grammar is refused with when it has used up its rounds. Each loop is given
    more rounds than there are tokens ahead, and none uses them up. -/
def outOfRounds : ParseFault := .unexpectedEnd

@[simp] theorem outOfRounds_ne_expected (wanted : Wanted) (found : Token) :
    outOfRounds ≠ .expected wanted found :=
  nofun

/-- Takes the next token if it is of the given kind, and tells whether it was. -/
def accept (kind : TokenKind) : Reader Bool := do
  if (← peekKind) = kind then
    skip
    return true
  else
    return false

/-- Takes a reserved word. -/
def expectWord (keyword : Keyword) : Reader Unit := do
  unless ← accept (.keyword keyword) do
    unexpected (.word keyword)

/-- Takes a bracket or a comma. -/
def expectSign (sign : Punctuation) : Reader Unit := do
  unless ← accept (.punctuation sign) do
    unexpected (.sign sign)

/-- Gives a warning and announces it. -/
def warn (warning : Warning) : Reader Unit := fun s =>
  .ok () { s with
    warnings := s.warnings ++ [warning]
    announced := s.announced ++ [warning] }

/-- Reads one level deeper, and comes back to the level on success and on error alike. -/
def nested {α : Type} (limits : Limits) (reader : Reader α) : Reader α := fun s =>
  if limits.nesting ≤ s.nesting then
    refuse .nestedTooDeeply s
  else
    match reader { s with nesting := s.nesting + 1 } with
    | .ok a s => .ok a { s with nesting := s.nesting - 1 }
    | .error e s => .error e { s with nesting := s.nesting - 1 }

/-- The depth of the tree that joins two others; refused if it is too deep. The depth of the left
    tree is computed only if it is not known yet. -/
def joinedDepth (limits : Limits) (known : Option Nat) (left right : Node) : Reader Nat :=
  let depth := max (known.getD left.depth) right.depth + 1
  if limits.depth < depth then refuse .nestedTooDeeply else pure depth

end Grammar

end Candlewick
