import Candlewick.Grammar.Expression

namespace Candlewick.Grammar

/-- The trading rules of a strategy. The first conditional that is no trading rule is left for the
    statement after the strategy: it is read to find that out, and the reading is taken back. Each
    rule takes one of the rounds in `fuel`, and so does the end; the alarm tells that none is left. -/
def rules (alarm : ParseFault) (expression : Reader Node) : Nat → Reader (List Node)
  | 0 => refuse alarm
  | fuel + 1 => do
    let saved ← get
    skipLineEnds
    if (← peekKind) = .keyword .ifWord then
      match ← conditionalHead expression with
      | (condition, .buy) => return .buy condition :: (← rules alarm expression fuel)
      | (condition, .sell) => return .sell condition :: (← rules alarm expression fuel)
      | (_, .expression _ _) =>
        modify fun s => { s with tokens := saved.tokens, warnings := saved.warnings }
        return []
    else
      modify fun s => { s with tokens := saved.tokens }
      return []

/-- A strategy: its name in brackets, and its rules. -/
def strategy (expression : Reader Node) : Reader Node := do
  expectWord .strategyWord
  expectSign .leftParen
  match ← peekKind with
  | .text name =>
    skip
    expectSign .rightParen
    return .strategy name (← rules outOfRounds expression ((← remaining) + 1))
  | _ => unexpected .strategyName

/-- A statement of any depth: an expression, a trading rule (`if condition then buy` or `sell`) or a
    strategy, which is a name and the trading rules that follow. -/
def statementHere (expression : Reader Node) : Reader Node := do
  match ← peekKind with
  | .keyword .strategyWord => strategy expression
  | .keyword .ifWord =>
    match ← conditionalHead expression with
    | (condition, .buy) => return .buy condition
    | (condition, .sell) => return .sell condition
    | (condition, .expression consequent nestedIf) =>
      conditionalEnd expression condition consequent nestedIf
  | _ => expression

/-- A statement. One that is too deep is refused where it begins. -/
def statement (limits : Limits) : Reader Node := do
  let start ← peek
  let node ← statementHere (expression limits)
  if limits.depth < node.depth then
    throw ⟨.nestedTooDeeply, start.place⟩
  else
    return node

/-- The statements up to the end of the source, with the ends of lines between them. Each takes one
    of the rounds in `fuel`, and so does the end; the alarm tells that none is left. -/
def statements (alarm : ParseFault) (limits : Limits) : Nat → Reader (List Node)
  | 0 => refuse alarm
  | fuel + 1 => do
    if (← peekKind) = .sourceEnd then
      return []
    else
      let node ← statement limits
      match ← peekKind with
      | .lineEnd => skipLineEnds
      | .sourceEnd => pure ()
      | _ => unexpected .lineEnd
      return node :: (← statements alarm limits fuel)

/-- A program. -/
def program (limits : Limits) : Reader Program := do
  skipLineEnds
  match ← statements outOfRounds limits ((← remaining) + 1) with
  | [] => refuse .noStatements
  | nodes => return .ofStatements nodes

/-- A token list that ends with the end of the source; if it does not, the end is put where the last
    token begins. -/
def closed (tokens : List Token) : List Token :=
  match tokens.getLast? with
  | none => [Token.sourceEnd Place.nowhere]
  | some last => if last.kind = .sourceEnd then tokens else tokens ++ [Token.sourceEnd last.place]

end Candlewick.Grammar
