import Candlewick.Proofs.Grammar.Outline

namespace Candlewick.Grammar

namespace Phrase

mutual

/-- The consequents of the conditionals without an `else` within a phrase, in the order in which
    these conditionals end. If such a consequent ends with an `else` of its own, that one may have
    been meant for the outer conditional. -/
def consequents : Phrase → List Phrase
  | number _ | text _ | truth _ | price _ | name _ => []
  | call _ arguments => consequentsOf arguments
  | group inner => inner.consequents
  | past object offset => object.consequents ++ offset.consequents
  | unary _ operand => operand.consequents
  | binary _ left right => left.consequents ++ right.consequents
  | assign _ value => value.consequents
  | ifThen condition consequent =>
    condition.consequents ++ (consequent.consequents ++ [consequent])
  | ifThenElse condition consequent alternative =>
    condition.consequents ++ (consequent.consequents ++ alternative.consequents)

/-- The consequents within several phrases. -/
def consequentsOf : List Phrase → List Phrase
  | [] => []
  | phrase :: rest => phrase.consequents ++ consequentsOf rest

end

/-- Whether a phrase is a conditional with an `else`. -/
def hasElse : Phrase → Bool
  | ifThenElse _ _ _ => true
  | _ => false

/-- The number of conditionals without an `else` whose consequent is a conditional with one. -/
def warned (phrase : Phrase) : Nat :=
  phrase.consequents.countP hasElse

/-- The number of these conditionals within several phrases. -/
def warnedOf (phrases : List Phrase) : Nat :=
  (consequentsOf phrases).countP hasElse

@[simp] theorem warnedOf_nil : warnedOf [] = 0 := rfl

/-- Among several phrases, the conditionals of each are counted. -/
@[simp] theorem warnedOf_cons (phrase : Phrase) (rest : List Phrase) :
    warnedOf (phrase :: rest) = phrase.warned + warnedOf rest :=
  List.countP_append

/-- Those of a call lie in its arguments. -/
@[simp] theorem warned_call (callee : Callee) (arguments : List Phrase) :
    (call callee arguments).warned = warnedOf arguments := rfl

/-- Brackets neither add nor hide any. -/
@[simp] theorem warned_group (inner : Phrase) : (group inner).warned = inner.warned := rfl

/-- Those of an index lie in the object and in the offset. -/
@[simp] theorem warned_past (object offset : Phrase) :
    (past object offset).warned = object.warned + offset.warned :=
  List.countP_append

@[simp] theorem warned_unary (operator : UnaryOperator) (operand : Phrase) :
    (unary operator operand).warned = operand.warned := rfl

/-- Those of an operation lie in its operands. -/
@[simp] theorem warned_binary (operator : BinaryOperator) (left right : Phrase) :
    (binary operator left right).warned = left.warned + right.warned :=
  List.countP_append

@[simp] theorem warned_assign (target : String) (value : Phrase) :
    (assign target value).warned = value.warned := rfl

/-- A conditional without an `else` is counted itself if its consequent has one. -/
@[simp] theorem warned_ifThen (condition consequent : Phrase) :
    (ifThen condition consequent).warned =
      condition.warned + (consequent.warned + if consequent.hasElse then 1 else 0) := by
  simp [warned, consequents, List.countP_append, List.countP_singleton]

/-- A conditional with an `else` is never counted itself. -/
@[simp] theorem warned_ifThenElse (condition consequent alternative : Phrase) :
    (ifThenElse condition consequent alternative).warned =
      condition.warned + (consequent.warned + alternative.warned) := by
  simp [warned, consequents, List.countP_append]

/-- How many of these conditionals lie within a conditional up to the end of what follows its
    `then`. -/
def headWarned : Phrase → Nat
  | ifThen condition consequent => condition.warned + consequent.warned
  | ifThenElse condition consequent _ => condition.warned + consequent.warned
  | _ => 0

/-- What lies in the beginning of a conditional lies in the conditional. -/
theorem headWarned_le_warned (phrase : Phrase) : phrase.headWarned ≤ phrase.warned := by
  cases phrase with
  | ifThen condition consequent =>
    rw [headWarned, warned_ifThen]
    omega
  | ifThenElse condition consequent alternative =>
    rw [headWarned, warned_ifThenElse]
    omega
  | _ => exact Nat.zero_le _

end Phrase

namespace Statement

/-- The consequents within the expressions of a statement. -/
def consequents (statement : Statement) : List Phrase :=
  Phrase.consequentsOf statement.parts

/-- The number of conditionals of a statement without an `else` whose consequent is a conditional
    with one. -/
def warned (statement : Statement) : Nat :=
  statement.consequents.countP Phrase.hasElse

/-- The conditionals of a strategy lie in the conditions of its rules. -/
@[simp] theorem warned_strategy (title : String) (rules : List (Nat × Rule)) :
    (strategy title rules).warned =
      Phrase.warnedOf (rules.map fun entry => entry.2.condition) := rfl

/-- Those of a trading rule lie in its condition, as what follows its `then` is no expression. -/
@[simp] theorem warned_rule (alone : Rule) : (rule alone).warned = alone.condition.warned :=
  Phrase.warnedOf_cons alone.condition []

@[simp] theorem warned_expression (phrase : Phrase) : (expression phrase).warned = phrase.warned :=
  Phrase.warnedOf_cons phrase []

end Statement

namespace Block

/-- The statements of a block. -/
def statements : Block → List Statement
  | last statement _ => [statement]
  | more statement _ rest => statement :: rest.statements

/-- The number of these conditionals in the statements of a block. -/
def warned (block : Block) : Nat :=
  (block.statements.flatMap Statement.consequents).countP Phrase.hasElse

@[simp] theorem warned_last (statement : Statement) (behind : Nat) :
    (last statement behind).warned = statement.warned := by
  simp [warned, statements, Statement.warned]

/-- The conditionals of a longer block are counted statement by statement. -/
@[simp] theorem warned_more (statement : Statement) (further : Nat) (rest : Block) :
    (more statement further rest).warned = statement.warned + rest.warned := by
  simp [warned, statements, Statement.warned]

end Block

end Candlewick.Grammar
