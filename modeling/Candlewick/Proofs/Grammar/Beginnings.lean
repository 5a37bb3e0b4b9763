import Candlewick.Proofs.Grammar.Unambiguity.Program

namespace Candlewick.Grammar

/-- A reserved word to complete a phrase with. -/
def closingWord (keyword : Keyword) : Token :=
  ⟨.keyword keyword, keyword.name, .nowhere⟩

/-- A bracket to complete a phrase with. -/
def closingSign (sign : Punctuation) : Token :=
  ⟨.punctuation sign, sign.text, .nowhere⟩

/-- An operand to complete a phrase with. -/
def closingName : Token :=
  ⟨.identifier "x", "x", .nowhere⟩

/-- A name to complete a strategy with. -/
def closingText : Token :=
  ⟨.text "x", "'x'", .nowhere⟩

@[simp] theorem terminal_closingWord_then :
    (closingWord .thenWord).terminal = .word .thenWord := rfl

@[simp] theorem terminal_closingWord_buy :
    (closingWord .buyWord).terminal = .word Action.buy.keyword := rfl

@[simp] theorem terminal_closingSign (sign : Punctuation) :
    (closingSign sign).terminal = .sign sign := rfl

@[simp] theorem terminal_closingName : closingName.terminal = .plain (.identifier "x") := rfl

/-- Some tokens complete the terminals to a phrase of the category. -/
def Begins (category : Category) (front : List Terminal) : Prop :=
  ∃ (phrase : Phrase) (back : List Token), Derives category phrase ∧ phrase.ElseNearest ∧
    phrase.terminals = front ++ back.map Token.terminal

/-- Some tokens complete the terminals to the arguments of a call, with the bracket behind them. -/
def BeginsArguments (front : List Terminal) : Prop :=
  ∃ (arguments : List Phrase) (back : List Token), arguments ≠ [] ∧
    (∀ argument ∈ arguments, argument.IsExpression) ∧
    Phrase.listed arguments ++ [.sign .rightParen] = front ++ back.map Token.terminal

namespace Begins

variable {category : Category} {front : List Terminal}

/-- Nothing is the beginning of every phrase. -/
theorem nil (category : Category) : Begins category [] :=
  ⟨.name "x", [closingName], derives_name category "x", trivial, rfl⟩

/-- A whole phrase is its own beginning. -/
theorem whole {phrase : Phrase} (hderives : Derives category phrase)
    (helse : phrase.ElseNearest) : Begins category phrase.terminals :=
  ⟨phrase, [], hderives, helse, (List.append_nil _).symm⟩

/-- The beginning of a tighter phrase is one of a looser phrase. -/
theorem loosen {inner : Category} (hfront : Begins inner front)
    (hrank : category.rank ≤ inner.rank) : Begins category front := by
  obtain ⟨phrase, back, hderives, helse, hterminals⟩ := hfront
  exact ⟨phrase, back, hderives.loosen hrank, helse, hterminals⟩

/-- A bracket may be open. -/
theorem group (hfront : Begins .expression front) :
    Begins .primary (.sign .leftParen :: front) := by
  obtain ⟨phrase, back, hderives, helse, hterminals⟩ := hfront
  refine ⟨.group phrase, back ++ [closingSign .rightParen], .group hderives, helse, ?_⟩
  simp [Phrase.terminals, hterminals]

/-- Right behind the name of a function its brackets can be opened and closed. -/
theorem callee (callee : Callee) : Begins .primary [callee.terminal] :=
  ⟨.call callee [], [closingSign .leftParen, closingSign .rightParen],
    .call fun _ hmem => absurd hmem List.not_mem_nil, trivial, rfl⟩

/-- The arguments of a call may be unfinished. -/
theorem call (callee : Callee) (hfront : BeginsArguments front) :
    Begins .primary (callee.terminal :: .sign .leftParen :: front) := by
  obtain ⟨arguments, back, -, harguments, hterminals⟩ := hfront
  refine ⟨.call callee arguments, back, .call fun argument hmem => (harguments argument hmem).derives,
    Phrase.eachElseNearest_iff.2 fun argument hmem => (harguments argument hmem).elseNearest, ?_⟩
  rw [Phrase.terminals, hterminals]
  rfl

/-- The offset of an index may be unfinished. -/
theorem past {object : Phrase} (hobject : Derives .indexed object) (helse : object.ElseNearest)
    (hfront : Begins .expression front) :
    Begins .indexed (object.terminals ++ .sign .leftBracket :: front) := by
  obtain ⟨offset, back, hderives, hoffset, hterminals⟩ := hfront
  refine ⟨.past object offset, back ++ [closingSign .rightBracket], .past hobject hderives,
    ⟨helse, hoffset⟩, ?_⟩
  simp [Phrase.terminals, hterminals]

/-- The operand of an operator may be unfinished. -/
theorem unary (operator : UnaryOperator) (hfront : Begins .unary front) :
    Begins .unary (unaryTerminal operator :: front) := by
  obtain ⟨operand, back, hderives, helse, hterminals⟩ := hfront
  refine ⟨.unary operator operand, back, .unary hderives, helse, ?_⟩
  rw [Phrase.terminals, hterminals]
  rfl

/-- The exponent of a power may be unfinished. -/
theorem power {base : Phrase} (hbase : Derives .unary base) (helse : base.ElseNearest)
    (hfront : Begins .power front) :
    Begins .power (base.terminals ++ .plain (.mark .caret) :: front) := by
  obtain ⟨exponent, back, hderives, hexponent, hterminals⟩ := hfront
  refine ⟨.binary .pow base exponent, back, .power hbase hderives, ⟨helse, hexponent⟩, ?_⟩
  simp [Phrase.terminals, hterminals, binaryTerminal]

/-- The right operand of an operator may be unfinished. -/
theorem joined {operator : BinaryOperator} {left : Phrase}
    (hoperator : operatorCategory operator = category) (hpower : category ≠ .power)
    (hleft : Derives category left) (helse : left.ElseNearest)
    (hfront : Begins category.tighter front) :
    Begins category (left.terminals ++ binaryTerminal operator :: front) := by
  obtain ⟨right, back, hderives, hright, hterminals⟩ := hfront
  refine ⟨.binary operator left right, back, .joined hoperator hpower hleft hderives,
    ⟨helse, hright⟩, ?_⟩
  simp [Phrase.terminals, hterminals]

/-- The value of an assignment may be unfinished. -/
theorem assign (target : String) (hfront : Begins .expression front) :
    Begins .expression (.plain (.identifier target) :: .plain (.mark .assign) :: front) := by
  obtain ⟨value, back, hderives, helse, hterminals⟩ := hfront
  refine ⟨.assign target value, back, .assign hderives, helse, ?_⟩
  rw [Phrase.terminals, hterminals]
  rfl

/-- A condition can be completed to a conditional. -/
theorem condition (hfront : Begins .expression front) :
    Begins .expression (.word .ifWord :: front) := by
  obtain ⟨condition, back, hderives, helse, hterminals⟩ := hfront
  refine ⟨.ifThen condition (.name "x"), back ++ [closingWord .thenWord, closingName],
    .ifThen hderives (derives_name .expression "x"), ⟨helse, trivial⟩, ?_⟩
  simp [Phrase.terminals, hterminals]

/-- The consequent of a conditional may be unfinished. -/
theorem consequent {condition : Phrase} (hcondition : condition.IsExpression)
    (hfront : Begins .expression front) :
    Begins .expression (.word .ifWord :: (condition.terminals ++ .word .thenWord :: front)) := by
  obtain ⟨consequent, back, hderives, helse, hterminals⟩ := hfront
  refine ⟨.ifThen condition consequent, back, .ifThen hcondition.derives hderives,
    ⟨hcondition.elseNearest, helse⟩, ?_⟩
  simp [Phrase.terminals, hterminals]

/-- The `else` belongs to this conditional, for its consequent is closed. -/
theorem alternative {condition consequent : Phrase} (hcondition : condition.IsExpression)
    (hconsequent : consequent.IsExpression) (hclosed : consequent.isOpen = false)
    (hfront : Begins .expression front) :
    Begins .expression (.word .ifWord :: (condition.terminals ++ .word .thenWord ::
      (consequent.terminals ++ .word .elseWord :: front))) := by
  obtain ⟨alternative, back, hderives, helse, hterminals⟩ := hfront
  refine ⟨.ifThenElse condition consequent alternative, back,
    .ifThenElse hcondition.derives hconsequent.derives hderives,
    ⟨hclosed, hcondition.elseNearest, hconsequent.elseNearest, helse⟩, ?_⟩
  simp [Phrase.terminals, hterminals]

end Begins

namespace BeginsArguments

variable {front : List Terminal}

/-- The first argument may be unfinished. -/
theorem first (hfront : Begins .expression front) : BeginsArguments front := by
  obtain ⟨argument, back, hderives, helse, hterminals⟩ := hfront
  refine ⟨[argument], back ++ [closingSign .rightParen], List.cons_ne_nil _ _, ?_, ?_⟩
  · exact List.forall_mem_singleton.2 ⟨hderives, helse⟩
  · simp [Phrase.listed, hterminals]

/-- Any argument behind a finished one may be unfinished. -/
theorem next {argument : Phrase} (hargument : argument.IsExpression)
    (hfront : BeginsArguments front) :
    BeginsArguments (argument.terminals ++ .sign .comma :: front) := by
  obtain ⟨arguments, back, hne, harguments, hterminals⟩ := hfront
  obtain ⟨other, more, rfl⟩ := List.exists_cons_of_ne_nil hne
  refine ⟨argument :: other :: more, back, List.cons_ne_nil _ _,
    List.forall_mem_cons.2 ⟨hargument, harguments⟩, ?_⟩
  simp [Phrase.listed, hterminals]

end BeginsArguments

/-- The head of a conditional stops in its condition, or in what follows `then`. -/
inductive BeginsHead : List Terminal → Prop where
  | condition {part : List Terminal} (hpart : Begins .expression part) :
    BeginsHead (.word .ifWord :: part)
  | consequent {condition : Phrase} {part : List Terminal} (hcondition : condition.IsExpression)
    (hpart : Begins .expression part) :
    BeginsHead (.word .ifWord :: (condition.terminals ++ .word .thenWord :: part))

/-- A conditional that stops in its head can be completed to an expression. -/
theorem BeginsHead.begins {front : List Terminal} (hhead : BeginsHead front) :
    Begins .expression front := by
  cases hhead with
  | condition hpart => exact hpart.condition
  | consequent hcondition hpart => exact hpart.consequent hcondition

/-- The rules of a strategy stop within a rule, or in a conditional behind them that is none. -/
inductive BeginsRules : List Terminal → Prop where
  | within {rules : List (Nat × Rule)} {front : List Terminal} (back : List Token)
    (hconditions : ∀ entry ∈ rules, entry.2.condition.IsExpression)
    (hback : Rule.listed rules = front ++ back.map Token.terminal) : BeginsRules front
  | conditional {rules : List (Nat × Rule)} {condition : Phrase} {part : List Terminal} (count : Nat)
    (hconditions : ∀ entry ∈ rules, entry.2.condition.IsExpression)
    (hcondition : condition.IsExpression) (hpart : Begins .expression part) (hne : part ≠ []) :
    BeginsRules (Rule.listed rules ++ (lineEnds count ++
      .word .ifWord :: (condition.terminals ++ .word .thenWord :: part)))

theorem BeginsRules.nil : BeginsRules [] :=
  @within [] [] [] nofun rfl

/-- The last statement is a strategy, and no line ends behind it. -/
def Block.EndsInStrategy : Block → Prop
  | last statement behind => statement.isStrategy = true ∧ behind = 0
  | more _ _ rest => rest.EndsInStrategy

/-- Terminals that stop within a block, or in a conditional that runs on in the line of the strategy
    that the block ends in. -/
inductive Block.Reaches (block : Block) : List Terminal → Prop where
  | within {front : List Terminal} (back : List Token)
    (hback : block.terminals = front ++ back.map Token.terminal) : block.Reaches front
  | runOn {condition : Phrase} {part : List Terminal} (hstrategy : block.EndsInStrategy)
    (hcondition : condition.IsExpression) (hpart : Begins .expression part) (hne : part ≠ []) :
    block.Reaches (block.terminals ++
      .word .ifWord :: (condition.terminals ++ .word .thenWord :: part))

/-- The terminals stop within statements of which the first is no rule. -/
def BeginsStatement (front : List Terminal) : Prop :=
  ∃ block : Block, block.Derived ∧ block.head.isRule = false ∧ block.Reaches front

/-- The terminals stop within statements; the first one is a rule only if a rule is what is ahead. -/
def BeginsBlock (ahead front : List Terminal) : Prop :=
  ∃ block : Block, block.Derived ∧ (block.head.isRule = true → ¬ NoRuleNext ahead) ∧
    block.Reaches front

/-- The terminals stop within a program. -/
def BeginsProgram (front : List Terminal) : Prop :=
  ∃ (count : Nat) (block : Block) (part : List Terminal), block.Derived ∧ block.Reaches part ∧
    front = lineEnds count ++ part

/-- If the first statement is no rule, it is of no account what was ahead. -/
theorem BeginsStatement.block {front : List Terminal} (hfront : BeginsStatement front)
    (ahead : List Terminal) : BeginsBlock ahead front := by
  obtain ⟨block, hderived, hrule, hreaches⟩ := hfront
  exact ⟨block, hderived, fun hhead => absurd hhead (by simp [hrule]), hreaches⟩

/-- Ends of lines may stand in front of an unfinished block. -/
theorem BeginsBlock.program {ahead front : List Terminal} (hfront : BeginsBlock ahead front)
    (count : Nat) : BeginsProgram (lineEnds count ++ front) := by
  obtain ⟨block, hderived, -, hreaches⟩ := hfront
  exact ⟨count, block, front, hderived, hreaches, rfl⟩

theorem derived_singleton {phrase : Phrase} (hphrase : phrase.IsExpression) :
    (Statement.expression phrase).Derived :=
  List.forall_mem_singleton.2 hphrase

/-- An unfinished expression is an unfinished statement. -/
theorem Begins.statement {front : List Terminal} (hfront : Begins .expression front) :
    BeginsStatement front := by
  obtain ⟨phrase, back, hderives, helse, hterminals⟩ := hfront
  refine ⟨.last (.expression phrase) 0, derived_singleton ⟨hderives, helse⟩, rfl, .within back ?_⟩
  rw [← hterminals]
  exact List.append_nil _

/-- A conditional that stops in its head may stand among the rules, as one of them or as what turns
    out to be none. -/
theorem BeginsHead.rules {front : List Terminal} (hhead : BeginsHead front) (count : Nat) :
    BeginsRules (lineEnds count ++ front) := by
  -- A condition is completed to a purchase, which needs a condition and one word more.
  have hpurchase : ∀ {condition : Phrase}, condition.IsExpression →
      ∀ entry ∈ [(count, Rule.mk condition .buy)], entry.2.condition.IsExpression :=
    fun hcondition => List.forall_mem_singleton.2 hcondition
  cases hhead with
  | condition hpart =>
    obtain ⟨condition, back, hderives, helse, hterminals⟩ := hpart
    refine .within (back ++ [closingWord .thenWord, closingWord .buyWord])
      (hpurchase ⟨hderives, helse⟩) ?_
    simp [Rule.listed, Rule.terminals, hterminals]
  | @consequent condition part hcondition hpart =>
    by_cases hempty : part = []
    · refine .within [closingWord .buyWord] (hpurchase hcondition) ?_
      simp [Rule.listed, Rule.terminals, hempty]
    · simpa [Rule.listed] using
        @BeginsRules.conditional [] condition part count (by simp) hcondition hpart hempty

namespace BeginsRules

variable {front : List Terminal}

/-- Unfinished rules may have a finished one in front of them. -/
theorem behind {rule : Rule} (count : Nat) (hcondition : rule.condition.IsExpression)
    (hfront : BeginsRules front) : BeginsRules (lineEnds count ++ (rule.terminals ++ front)) := by
  cases hfront with
  | @within rules _ back hconditions hback =>
    refine @BeginsRules.within ((count, rule) :: rules) _ back
      (List.forall_mem_cons.2 ⟨hcondition, hconditions⟩) ?_
    have hlisted := Rule.listed_cons (count, rule) rules []
    rw [List.append_nil, List.append_nil] at hlisted
    rw [hlisted, hback]
    simp
  | @conditional rules condition part behind hconditions hother hpart hne =>
    rw [← Rule.listed_cons (count, rule)]
    exact .conditional behind (List.forall_mem_cons.2 ⟨hcondition, hconditions⟩) hother hpart hne

/-- Behind the head of a strategy. A conditional that is no rule is a statement of its own if a line
    ends in front of it. -/
theorem strategy (title : String) (hfront : BeginsRules front) :
    BeginsStatement (.word .strategyWord :: .sign .leftParen :: .plain (.text title) ::
      .sign .rightParen :: front) := by
  cases hfront with
  | @within rules _ back hconditions hback =>
    refine ⟨.last (.strategy title rules) 0, List.forall_mem_map.2 hconditions, rfl,
      .within back ?_⟩
    simp [Block.terminals, Statement.terminals, lineEnds, hback]
  | @conditional rules condition part count hconditions hcondition hpart hne =>
    have hstrategy : (Statement.strategy title rules).Derived := List.forall_mem_map.2 hconditions
    cases count with
    | zero =>
      refine ⟨.last (.strategy title rules) 0, hstrategy, rfl, ?_⟩
      have hreaches : (Block.last (.strategy title rules) 0).Reaches _ :=
        .runOn ⟨rfl, rfl⟩ hcondition hpart hne
      simpa [Block.terminals, Statement.terminals, lineEnds] using hreaches
    | succ further =>
      obtain ⟨consequent, back, hderives, helse, hterminals⟩ := hpart
      have hconditional : (Phrase.ifThen condition consequent).IsExpression :=
        ⟨.ifThen hcondition.derives hderives, hcondition.elseNearest, helse⟩
      refine ⟨.more (.strategy title rules) further
        (.last (.expression (.ifThen condition consequent)) 0),
        ⟨hstrategy, fun _ => rfl, derived_singleton hconditional⟩, rfl, .within back ?_⟩
      simp [Block.terminals, Statement.terminals, Phrase.terminals, lineEnds, hterminals]

end BeginsRules

/-- The head of a strategy can be completed. -/
theorem beginsStatement_of_header {front : List Terminal} (title : String) (back : List Token)
    (hback : (Statement.strategy title []).terminals = front ++ back.map Token.terminal) :
    BeginsStatement front := by
  refine ⟨.last (.strategy title []) 0, fun _ hmem => absurd hmem List.not_mem_nil, rfl,
    .within back ?_⟩
  rw [← hback]
  exact List.append_nil _

/-- A statement in front of others, with the ends of lines between them. -/
theorem Block.Reaches.more {block : Block} {front : List Terminal} (hfront : block.Reaches front)
    (statement : Statement) (further : Nat) : (Block.more statement further block).Reaches
      (statement.terminals ++ (lineEnds (further + 1) ++ front)) := by
  cases hfront with
  | within back hback =>
    refine .within back ?_
    simp [Block.terminals, hback]
  | runOn hstrategy hcondition hpart hne =>
    have hreaches : (Block.more statement further block).Reaches _ :=
      .runOn hstrategy hcondition hpart hne
    simpa [Block.terminals] using hreaches

end Candlewick.Grammar
