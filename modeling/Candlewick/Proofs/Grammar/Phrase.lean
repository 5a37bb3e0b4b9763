import Candlewick.Grammar.Statement

namespace Candlewick

namespace Grammar

/-- What the grammar sees of a token: its kind and, of the name of a function, the spelling, for a
    tree names a function as it was written. -/
structure Terminal where
  kind : TokenKind
  spelling : String
deriving DecidableEq

/-- The terminal of a kind that has only one spelling as far as trees go. -/
def Terminal.plain (kind : TokenKind) : Terminal := ⟨kind, ""⟩

/-- The terminal of a reserved word. -/
def Terminal.word (keyword : Keyword) : Terminal := .plain (.keyword keyword)

/-- The terminal of a bracket or a comma. -/
def Terminal.sign (sign : Punctuation) : Terminal := .plain (.punctuation sign)

@[simp] theorem Terminal.kind_plain (kind : TokenKind) : (Terminal.plain kind).kind = kind := rfl

@[simp] theorem Terminal.kind_word (keyword : Keyword) :
    (Terminal.word keyword).kind = .keyword keyword := rfl

@[simp] theorem Terminal.kind_sign (sign : Punctuation) :
    (Terminal.sign sign).kind = .punctuation sign := rfl

end Grammar

/-- The terminal that a token is for the grammar. -/
def Token.terminal (token : Token) : Grammar.Terminal :=
  ⟨token.kind, match token.kind with
    | .keyword (.function _) => token.lexeme
    | _ => ""⟩

@[simp] theorem Token.kind_terminal (token : Token) : token.terminal.kind = token.kind := rfl

namespace Grammar

/-- The terminal of an operator between two operands. -/
def binaryTerminal : BinaryOperator → Terminal
  | .or => .word .orWord
  | .and => .word .andWord
  | .eq => .plain (.mark .equalEqual)
  | .ne => .plain (.mark .notEqual)
  | .gt => .plain (.mark .greater)
  | .ge => .plain (.mark .greaterEqual)
  | .lt => .plain (.mark .less)
  | .le => .plain (.mark .lessEqual)
  | .add => .plain (.mark .plus)
  | .sub => .plain (.mark .minus)
  | .mul => .plain (.mark .star)
  | .div => .plain (.mark .slash)
  | .mod => .plain (.mark .percent)
  | .pow => .plain (.mark .caret)

/-- The terminal of an operator in front of an operand. -/
def unaryTerminal : UnaryOperator → Terminal
  | .neg => .plain (.mark .minus)
  | .not => .word .notWord

/-- The terminals of the ends of some lines. -/
def lineEnds (count : Nat) : List Terminal :=
  List.replicate count (.plain .lineEnd)

/-- The name in front of the arguments of a call: a word of one's own or the name of a function that
    every strategy can call. -/
inductive Callee where
  | word (name : String)
  | function (builtin : Builtin) (spelling : String)

/-- The name as trees keep it. -/
def Callee.name : Callee → String
  | word name => name
  | function _ spelling => spelling

/-- The terminal of a name in front of arguments. -/
def Callee.terminal : Callee → Terminal
  | word name => .plain (.identifier name)
  | function builtin spelling => ⟨.keyword (.function builtin), spelling⟩

/-- A derivation of an expression. `group` is an expression in brackets of its own. -/
inductive Phrase where
  | number (value : Float)
  | text (content : String)
  | truth (value : Bool)
  | price (field : PriceField)
  | name (word : String)
  | call (callee : Callee) (arguments : List Phrase)
  | group (inner : Phrase)
  | past (object offset : Phrase)
  | unary (operator : UnaryOperator) (operand : Phrase)
  | binary (operator : BinaryOperator) (left right : Phrase)
  | assign (target : String) (value : Phrase)
  | ifThen (condition consequent : Phrase)
  | ifThenElse (condition consequent alternative : Phrase)

namespace Phrase

mutual

/-- The terminals that a phrase is written with. -/
def terminals : Phrase → List Terminal
  | number value => [.plain (.number value)]
  | text content => [.plain (.text content)]
  | truth true => [.word .trueWord]
  | truth false => [.word .falseWord]
  | price field => [.word (.price field)]
  | name word => [.plain (.identifier word)]
  | call callee arguments =>
    callee.terminal :: .sign .leftParen :: (listed arguments ++ [.sign .rightParen])
  | group inner => .sign .leftParen :: (inner.terminals ++ [.sign .rightParen])
  | past object offset =>
    object.terminals ++ .sign .leftBracket :: (offset.terminals ++ [.sign .rightBracket])
  | unary operator operand => unaryTerminal operator :: operand.terminals
  | binary operator left right => left.terminals ++ binaryTerminal operator :: right.terminals
  | assign target value => .plain (.identifier target) :: .plain (.mark .assign) :: value.terminals
  | ifThen condition consequent =>
    .word .ifWord :: (condition.terminals ++ .word .thenWord :: consequent.terminals)
  | ifThenElse condition consequent alternative =>
    .word .ifWord :: (condition.terminals ++ .word .thenWord ::
      (consequent.terminals ++ .word .elseWord :: alternative.terminals))

/-- The terminals of phrases with commas between them. -/
def listed : List Phrase → List Terminal
  | [] => []
  | [phrase] => phrase.terminals
  | phrase :: next :: rest => phrase.terminals ++ .sign .comma :: listed (next :: rest)

end

mutual

/-- The tree that a phrase stands for. -/
def node : Phrase → Node
  | number value => .number value
  | text content => .text content
  | truth value => .truth value
  | price field => .price field
  | name word => .name word
  | call callee arguments => .call callee.name (nodes arguments)
  | group inner => inner.node
  | past object offset => .past object.node offset.node
  | unary operator operand => .unary operator operand.node
  | binary operator left right => .binary operator left.node right.node
  | assign target value => .assign target value.node
  | ifThen condition consequent => .ifThen condition.node consequent.node
  | ifThenElse condition consequent alternative =>
    .ifThenElse condition.node consequent.node alternative.node

/-- The trees that several phrases stand for. -/
def nodes : List Phrase → List Node
  | [] => []
  | phrase :: rest => phrase.node :: nodes rest

end

/-- The trees of several phrases are the trees of each. -/
theorem nodes_eq_map (phrases : List Phrase) : nodes phrases = phrases.map node := by
  induction phrases with
  | nil => rfl
  | cons phrase rest ih => rw [nodes, ih, List.map_cons]

/-- Whether a phrase ends with a conditional that has no `else` and could still take one. -/
def isOpen : Phrase → Bool
  | ifThen _ _ => true
  | ifThenElse _ _ alternative => alternative.isOpen
  | assign _ value => value.isOpen
  | _ => false

end Phrase

end Grammar

end Candlewick
