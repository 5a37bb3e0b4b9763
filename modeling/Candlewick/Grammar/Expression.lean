import Candlewick.Grammar.Reading

namespace Candlewick.Grammar

/-- The readers of one nesting level deeper. Every reader here is given them, so that a single
    recursion, on the levels that are left, ties the grammar together. -/
structure Deeper where
  expression : Reader Node
  power : Reader Node
  unary : Reader Node

/-- The operators of a chain, by the token that writes them. -/
abbrev Operators := TokenKind → Option BinaryOperator

/-- The chains of operators, from the loosest to the tightest. -/
def chainOperators : List Operators :=
  [ fun | .keyword .orWord => some .or | _ => none,
    fun | .keyword .andWord => some .and | _ => none,
    fun
      | .mark .equalEqual => some .eq
      | .mark .notEqual => some .ne
      | _ => none,
    fun
      | .mark .greater => some .gt
      | .mark .greaterEqual => some .ge
      | .mark .less => some .lt
      | .mark .lessEqual => some .le
      | _ => none,
    fun
      | .mark .plus => some .add
      | .mark .minus => some .sub
      | _ => none,
    fun
      | .mark .star => some .mul
      | .mark .slash => some .div
      | .mark .percent => some .mod
      | _ => none ]

/-- The arguments of a call after the opening bracket, at least one. Each takes one of the rounds
    in `fuel`; the alarm tells that none is left. -/
def argumentsFrom (alarm : ParseFault) (expression : Reader Node) : Nat → Reader (List Node)
  | 0 => refuse alarm
  | fuel + 1 => do
    let argument ← expression
    if ← accept (.punctuation .comma) then
      return argument :: (← argumentsFrom alarm expression fuel)
    else
      expectSign .rightParen
      return [argument]

/-- The arguments of a call in their brackets. -/
def arguments (deeper : Deeper) : Reader (List Node) := do
  expectSign .leftParen
  if ← accept (.punctuation .rightParen) then
    return []
  else
    argumentsFrom outOfRounds deeper.expression ((← remaining) + 1)

/-- An expression that no operator can divide. -/
def primary (deeper : Deeper) : Reader Node := do
  let token ← peek
  match token.kind with
  | .number value =>
    skip
    return .number value
  | .text content =>
    skip
    return .text content
  | .keyword .trueWord =>
    skip
    return .truth true
  | .keyword .falseWord =>
    skip
    return .truth false
  | .keyword (.price field) =>
    skip
    return .price field
  | .keyword (.function _) =>
    skip
    if (← peekKind) = .punctuation .leftParen then
      return .call token.lexeme (← arguments deeper)
    else
      unexpected (.argumentsOf token.lexeme)
  | .identifier name =>
    skip
    if (← peekKind) = .punctuation .leftParen then
      return .call name (← arguments deeper)
    else
      return .name name
  | .punctuation .leftParen =>
    skip
    let inner ← deeper.expression
    expectSign .rightParen
    return inner
  | .sourceEnd => refuse .unexpectedEnd
  | _ => unexpected .expression

/-- The indices that follow an expression. Each takes one of the rounds in `fuel`, and so does the
    end; the alarm tells that none is left. -/
def postfixFrom (alarm : ParseFault) (limits : Limits) (deeper : Deeper) :
    Nat → Option Nat → Node → Reader Node
  | 0, _, _ => refuse alarm
  | fuel + 1, known, object => do
    if ← accept (.punctuation .leftBracket) then
      let offset ← deeper.expression
      expectSign .rightBracket
      let depth ← joinedDepth limits known object offset
      postfixFrom alarm limits deeper fuel (some depth) (.past object offset)
    else
      return object

/-- A primary expression with any number of indices. -/
def indexed (limits : Limits) (deeper : Deeper) : Reader Node := do
  let object ← primary deeper
  postfixFrom outOfRounds limits deeper ((← remaining) + 1) none object

/-- Operators in front of an operand. -/
def unary (limits : Limits) (deeper : Deeper) : Reader Node := do
  match ← peekKind with
  | .mark .minus =>
    skip
    return .unary .neg (← deeper.unary)
  | .keyword .notWord =>
    skip
    return .unary .not (← deeper.unary)
  | _ => indexed limits deeper

/-- Powers, grouped to the right. -/
def power (limits : Limits) (deeper : Deeper) : Reader Node := do
  let base ← unary limits deeper
  if ← accept (.mark .caret) then
    return .binary .pow base (← deeper.power)
  else
    return base

/-- The rest of a chain, joined to what stands to its left. Each operator takes one of the rounds in
    `fuel`, and so does the end; the alarm tells that none is left. -/
def chainFrom (alarm : ParseFault) (limits : Limits) (operators : Operators)
    (operand : Reader Node) : Nat → Option Nat → Node → Reader Node
  | 0, _, _ => refuse alarm
  | fuel + 1, known, left => do
    match operators (← peekKind) with
    | none => return left
    | some operator =>
      skip
      let right ← operand
      let depth ← joinedDepth limits known left right
      chainFrom alarm limits operators operand fuel (some depth) (.binary operator left right)

/-- Operands with operators of one rank between them, grouped to the left. -/
def chain (limits : Limits) (operators : Operators) (operand : Reader Node) : Reader Node := do
  let first ← operand
  chainFrom outOfRounds limits operators operand ((← remaining) + 1) none first

/-- The chains of the given ranks; the operands of the last one are powers. -/
def chains (limits : Limits) (deeper : Deeper) : List Operators → Reader Node
  | [] => power limits deeper
  | operators :: tighter => chain limits operators (chains limits deeper tighter)

/-- What follows `then`: a trading action, or an expression. `nestedIf` tells whether the expression
    begins with an `if` of its own. -/
inductive Consequent where
  | buy
  | sell
  | expression (consequent : Node) (nestedIf : Bool)

/-- A conditional up to the end of what follows `then`. -/
def conditionalHead (expression : Reader Node) : Reader (Node × Consequent) := do
  expectWord .ifWord
  let condition ← expression
  expectWord .thenWord
  if ← accept (.keyword .buyWord) then
    return (condition, .buy)
  else if ← accept (.keyword .sellWord) then
    return (condition, .sell)
  else
    let nestedIf := decide ((← peekKind) = .keyword .ifWord)
    let consequent ← expression
    return (condition, .expression consequent nestedIf)

/-- Whether a tree is a conditional with an `else`. -/
def hasAlternative : Node → Bool
  | .ifThenElse _ _ _ => true
  | _ => false

/-- The end of a conditional: an `else` and its expression, or nothing. It is nothing also where the
    conditional within has taken the `else`; that could have been meant otherwise. -/
def conditionalEnd (expression : Reader Node) (condition consequent : Node) (nestedIf : Bool) :
    Reader Node := do
  let next ← peek
  if ← accept (.keyword .elseWord) then
    return .ifThenElse condition consequent (← expression)
  else
    if nestedIf && hasAlternative consequent then
      warn ⟨next.place⟩
    return .ifThen condition consequent

/-- A conditional within an expression. A trading rule has no value and is refused at its `if`. -/
def conditional (expression : Reader Node) : Reader Node := do
  let start ← peek
  match ← conditionalHead expression with
  | (condition, .expression consequent nestedIf) =>
    conditionalEnd expression condition consequent nestedIf
  | _ => throw ⟨.misplacedRule, start.place⟩

/-- An expression at its nesting level. The grammar, from the loosest binding to the tightest:
    ```
    expression  := conditional | assignment | chains
    conditional := if expression then expression [else expression]
    assignment  := name (":=" | "=") expression
    chains      := or, and, equality, comparison, sum, product; each grouped to the left
    power       := unary ["^" power]
    unary       := ("-" | not) unary | postfix
    postfix     := primary ("[" expression "]")*
    primary     := number | string | true | false | price | name ["(" arguments ")"]
                 | "(" expression ")"
    ```
-/
def expressionHere (limits : Limits) (deeper : Deeper) : Reader Node := do
  match ← peekKind, ← peekSecond? with
  | .keyword .ifWord, _ => conditional deeper.expression
  | .identifier name, some (.mark .assign) =>
    skip
    skip
    return .assign name (← deeper.expression)
  | _, _ => chains limits deeper chainOperators

/-- The readers with a number of nesting levels left. Without any left they refuse; the bound on the
    nesting does so before. -/
def levels (limits : Limits) : Nat → Deeper
  | 0 => ⟨refuse .nestedTooDeeply, refuse .nestedTooDeeply, refuse .nestedTooDeeply⟩
  | left + 1 =>
    let deeper := levels limits left
    { expression := nested limits (expressionHere limits deeper)
      power := nested limits (power limits deeper)
      unary := nested limits (unary limits deeper) }

/-- An expression. -/
def expression (limits : Limits) : Reader Node :=
  (levels limits (limits.nesting + 1)).expression

end Candlewick.Grammar
