import Candlewick.Proofs.Grammar.Outline
import Candlewick.Proofs.Node.Height

namespace Candlewick.Grammar

namespace Phrase

mutual

/-- The number of levels that a phrase nests below its own: brackets, conditionals, assignments,
    operators in front of operands and exponents within each other. -/
@[simp] def nesting : Phrase → Nat
  | number _ | text _ | truth _ | price _ | name _ => 0
  | call _ arguments => nestings arguments
  | group inner => inner.nesting + 1
  | past object offset => max object.nesting (offset.nesting + 1)
  | unary _ operand => operand.nesting + 1
  | binary .pow base exponent => max base.nesting (exponent.nesting + 1)
  | binary _ left right => max left.nesting right.nesting
  | assign _ value => value.nesting + 1
  | ifThen condition consequent => max condition.nesting consequent.nesting + 1
  | ifThenElse condition consequent alternative =>
    max (max condition.nesting consequent.nesting) alternative.nesting + 1

/-- The number of levels that the arguments of a call nest below the call. -/
@[simp] def nestings : List Phrase → Nat
  | [] => 0
  | phrase :: rest => max (phrase.nesting + 1) (nestings rest)

end

/-- Operators nest no deeper than their operands, except for the power. -/
theorem nesting_binary {operator : BinaryOperator} (hpow : operator ≠ .pow) (left right : Phrase) :
    (binary operator left right).nesting = max left.nesting right.nesting := by
  cases operator with
  | pow => exact absurd rfl hpow
  | _ => rfl

end Phrase

/-- The bounds leave room for a phrase at a nesting level. -/
structure Fits (limits : Limits) (level : Nat) (phrase : Phrase) : Prop where
  nesting : level + phrase.nesting ≤ limits.nesting
  height : phrase.node.height ≤ limits.depth

namespace Fits

variable {limits : Limits} {level : Nat}

/-- The arguments of a call are one level deeper than the call. -/
theorem arguments {callee : Callee} {arguments : List Phrase}
    (hfits : Fits limits level (.call callee arguments)) :
    ∀ argument ∈ arguments, Fits limits (level + 1) argument := by
  obtain ⟨hnesting, hheight⟩ := hfits
  simp only [Phrase.nesting, Phrase.node, Node.height] at hnesting hheight
  induction arguments with
  | nil => simp
  | cons argument rest ih =>
    simp only [Phrase.nestings, Phrase.nodes, Node.heights] at hnesting hheight
    refine List.forall_mem_cons.2 ⟨⟨by omega, by omega⟩, ih (by omega) (by omega)⟩

/-- An expression in brackets is one level deeper than the brackets. -/
theorem inner {inner : Phrase} (hfits : Fits limits level (.group inner)) :
    Fits limits (level + 1) inner := by
  obtain ⟨hnesting, hheight⟩ := hfits
  simp only [Phrase.nesting, Phrase.node] at hnesting hheight
  exact ⟨by omega, hheight⟩

/-- The offset of an index is one level deeper, the object is not. -/
theorem past {object offset : Phrase} (hfits : Fits limits level (.past object offset)) :
    Fits limits level object ∧ Fits limits (level + 1) offset := by
  obtain ⟨hnesting, hheight⟩ := hfits
  simp only [Phrase.nesting, Phrase.node, Node.height] at hnesting hheight
  exact ⟨⟨by omega, by omega⟩, ⟨by omega, by omega⟩⟩

/-- The operand behind an operator is one level deeper than the operator. -/
theorem operand {operator : UnaryOperator} {operand : Phrase}
    (hfits : Fits limits level (.unary operator operand)) : Fits limits (level + 1) operand := by
  obtain ⟨hnesting, hheight⟩ := hfits
  simp only [Phrase.nesting, Phrase.node, Node.height] at hnesting hheight
  exact ⟨by omega, by omega⟩

/-- The exponent of a power is one level deeper, the base is not. -/
theorem power {base exponent : Phrase} (hfits : Fits limits level (.binary .pow base exponent)) :
    Fits limits level base ∧ Fits limits (level + 1) exponent := by
  obtain ⟨hnesting, hheight⟩ := hfits
  simp only [Phrase.nesting, Phrase.node, Node.height] at hnesting hheight
  exact ⟨⟨by omega, by omega⟩, ⟨by omega, by omega⟩⟩

/-- The operands of every other operator are at its level. -/
theorem joined {operator : BinaryOperator} {left right : Phrase} (hpow : operator ≠ .pow)
    (hfits : Fits limits level (.binary operator left right)) :
    Fits limits level left ∧ Fits limits level right := by
  obtain ⟨hnesting, hheight⟩ := hfits
  rw [Phrase.nesting_binary hpow] at hnesting
  simp only [Phrase.node, Node.height] at hheight
  exact ⟨⟨by omega, by omega⟩, ⟨by omega, by omega⟩⟩

/-- The value of an assignment is one level deeper than the assignment. -/
theorem value {target : String} {value : Phrase}
    (hfits : Fits limits level (.assign target value)) :
    Fits limits (level + 1) value := by
  obtain ⟨hnesting, hheight⟩ := hfits
  simp only [Phrase.nesting, Phrase.node, Node.height] at hnesting hheight
  exact ⟨by omega, by omega⟩

/-- The parts of a conditional are one level deeper than the conditional. -/
theorem ifThen {condition consequent : Phrase}
    (hfits : Fits limits level (.ifThen condition consequent)) :
    Fits limits (level + 1) condition ∧ Fits limits (level + 1) consequent := by
  obtain ⟨hnesting, hheight⟩ := hfits
  simp only [Phrase.nesting, Phrase.node, Node.height] at hnesting hheight
  exact ⟨⟨by omega, by omega⟩, ⟨by omega, by omega⟩⟩

/-- The three parts of a conditional with an `else` are one level deeper than the conditional. -/
theorem ifThenElse {condition consequent alternative : Phrase}
    (hfits : Fits limits level (.ifThenElse condition consequent alternative)) :
    Fits limits (level + 1) condition ∧ Fits limits (level + 1) consequent ∧
      Fits limits (level + 1) alternative := by
  obtain ⟨hnesting, hheight⟩ := hfits
  simp only [Phrase.nesting, Phrase.node, Node.height] at hnesting hheight
  exact ⟨⟨by omega, by omega⟩, ⟨by omega, by omega⟩, ⟨by omega, by omega⟩⟩

end Fits

/-- Whether a phrase is a conditional. -/
def Phrase.isConditional : Phrase → Bool
  | ifThen _ _ | ifThenElse _ _ _ => true
  | _ => false

/-- The number of levels that a statement nests. A conditional at the front of a statement is read
    at the level of the statement, every other expression one level below. -/
def Statement.nesting : Statement → Nat
  | strategy _ rules =>
    rules.foldr (fun entry below => max (entry.2.condition.nesting + 1) below) 0
  | rule alone => alone.condition.nesting + 1
  | expression phrase => if phrase.isConditional then phrase.nesting else phrase.nesting + 1

/-- A strategy nests one level more than the deepest of its conditions. -/
theorem Statement.nesting_strategy_le {title : String} {rules : List (Nat × Rule)} {bound : Nat} :
    (Statement.strategy title rules).nesting ≤ bound ↔
      ∀ entry ∈ rules, entry.2.condition.nesting + 1 ≤ bound := by
  simp only [Statement.nesting]
  induction rules with
  | nil => simp
  | cons entry more ih => rw [List.foldr_cons, List.forall_mem_cons, Nat.max_le, ih]

/-- The bounds leave room for a statement. -/
structure Statement.Fits (limits : Limits) (statement : Statement) : Prop where
  nesting : statement.nesting ≤ limits.nesting
  height : statement.node.height ≤ limits.depth

/-- The bounds leave room for all statements of a block. -/
def Block.Fits (limits : Limits) : Block → Prop
  | last statement _ => statement.Fits limits
  | more statement _ rest => statement.Fits limits ∧ rest.Fits limits

/-- A block that there is room for begins with a statement that there is room for. -/
theorem Block.Fits.head {limits : Limits} {block : Block} (hfits : block.Fits limits) :
    block.head.Fits limits := by
  cases block with
  | last => exact hfits
  | more => exact hfits.1

namespace Statement.Fits

variable {limits : Limits}

/-- The condition of a trading rule is one level deeper than the rule. -/
theorem rule {alone : Rule} (hfits : (Statement.rule alone).Fits limits) :
    Grammar.Fits limits 1 alone.condition := by
  obtain ⟨hnesting, hheight⟩ := hfits
  have hnode : alone.node.height = alone.condition.node.height + 1 := by
    rcases alone with ⟨condition, _ | _⟩ <;> rfl
  simp only [Statement.nesting, Statement.node, hnode] at hnesting hheight
  exact ⟨by omega, by omega⟩

/-- The conditions of a strategy are one level deeper than the strategy. -/
theorem strategy {title : String} {rules : List (Nat × Rule)}
    (hfits : (Statement.strategy title rules).Fits limits) :
    ∀ entry ∈ rules, Grammar.Fits limits 1 entry.2.condition := by
  obtain ⟨hnesting, hheight⟩ := hfits
  rw [Statement.nesting_strategy_le] at hnesting
  simp only [Statement.node, Node.height] at hheight
  induction rules with
  | nil => simp
  | cons entry more ih =>
    obtain ⟨hentry, hmore⟩ := List.forall_mem_cons.1 hnesting
    simp only [List.map_cons, Node.heights] at hheight
    have halone : (Statement.rule entry.2).Fits limits := by
      refine ⟨hentry, ?_⟩
      simp only [Statement.node]
      omega
    exact List.forall_mem_cons.2 ⟨halone.rule, ih hmore (by omega)⟩

/-- A conditional at the front of a statement is at the level of the statement. -/
theorem conditional {phrase : Phrase} (hfits : (Statement.expression phrase).Fits limits)
    (hconditional : phrase.isConditional = true) : Grammar.Fits limits 0 phrase := by
  obtain ⟨hnesting, hheight⟩ := hfits
  rw [Statement.nesting, if_pos hconditional] at hnesting
  exact ⟨by omega, hheight⟩

/-- Every other expression is one level deeper than its statement. -/
theorem expression {phrase : Phrase} (hfits : (Statement.expression phrase).Fits limits)
    (hconditional : phrase.isConditional = false) : Grammar.Fits limits 1 phrase := by
  obtain ⟨hnesting, hheight⟩ := hfits
  rw [Statement.nesting, if_neg (by simp [hconditional])] at hnesting
  exact ⟨by omega, hheight⟩

end Statement.Fits

end Candlewick.Grammar
