import Candlewick.Proofs.Grammar.Follow

namespace Candlewick.Grammar

/-- What a trading rule calls for. -/
inductive Action where
  | buy
  | sell
deriving DecidableEq

/-- The word of an action. -/
def Action.keyword : Action → Keyword
  | buy => .buyWord
  | sell => .sellWord

/-- The tree of a rule with its condition. -/
def Action.node : Action → Node → Node
  | buy => .buy
  | sell => .sell

/-- What the readers make of an action behind `then`. -/
def Action.consequent : Action → Consequent
  | buy => .buy
  | sell => .sell

/-- An expression of the grammar, with every `else` at the nearest `if`. -/
structure Phrase.IsExpression (phrase : Phrase) : Prop where
  derives : Derives .expression phrase
  elseNearest : phrase.ElseNearest

/-- A trading rule. -/
structure Rule where
  condition : Phrase
  action : Action

namespace Rule

def terminals (rule : Rule) : List Terminal :=
  .word .ifWord :: (rule.condition.terminals ++ [.word .thenWord, .word rule.action.keyword])

def node (rule : Rule) : Node :=
  rule.action.node rule.condition.node

/-- The terminals of rules, each with the number of line ends before it. -/
def listed (rules : List (Nat × Rule)) : List Terminal :=
  rules.flatMap fun entry => lineEnds entry.1 ++ entry.2.terminals

end Rule

/-- A statement. A rule of a strategy may stand behind any number of line ends. -/
inductive Statement where
  | strategy (title : String) (rules : List (Nat × Rule))
  | rule (rule : Rule)
  | expression (phrase : Phrase)

namespace Statement

def terminals : Statement → List Terminal
  | strategy title rules =>
    .word .strategyWord :: .sign .leftParen :: .plain (.text title) :: .sign .rightParen ::
      Rule.listed rules
  | rule alone => alone.terminals
  | expression phrase => phrase.terminals

def node : Statement → Node
  | strategy title rules => .strategy title (rules.map fun entry => entry.2.node)
  | rule alone => alone.node
  | expression phrase => phrase.node

/-- The expressions in a statement. -/
def parts : Statement → List Phrase
  | strategy _ rules => rules.map fun entry => entry.2.condition
  | rule alone => [alone.condition]
  | expression phrase => [phrase]

def Derived (statement : Statement) : Prop :=
  ∀ phrase ∈ statement.parts, phrase.IsExpression

def isStrategy : Statement → Bool
  | strategy _ _ => true
  | _ => false

def isRule : Statement → Bool
  | rule _ => true
  | _ => false

end Statement

/-- Statements with the ends of the lines behind them: any number behind the last one, one and
    `further` ones behind each of the others. -/
inductive Block where
  | last (statement : Statement) (behind : Nat)
  | more (statement : Statement) (further : Nat) (rest : Block)

namespace Block

def terminals : Block → List Terminal
  | last statement behind => statement.terminals ++ lineEnds behind
  | more statement further rest => statement.terminals ++ (lineEnds (further + 1) ++ rest.terminals)

def nodes : Block → List Node
  | last statement _ => [statement.node]
  | more statement _ rest => statement.node :: rest.nodes

/-- The first statement. -/
def head : Block → Statement
  | last statement _ => statement
  | more statement _ _ => statement

/-- Statements of the grammar. A strategy takes the longest run of rules that follows it, so none is
    left as a statement directly behind it. -/
def Derived : Block → Prop
  | last statement _ => statement.Derived
  | more statement _ rest =>
    statement.Derived ∧ (statement.isStrategy = true → rest.head.isRule = false) ∧ rest.Derived

/-- The first statement of a derived block is derived. -/
theorem Derived.head {block : Block} (hderived : block.Derived) : block.head.Derived := by
  cases block with
  | last => exact hderived
  | more => exact hderived.1

end Block

/-- A program: statements, and the ends of empty lines before them. -/
structure Outline where
  before : Nat
  block : Block

namespace Outline

def terminals (outline : Outline) : List Terminal :=
  lineEnds outline.before ++ outline.block.terminals

/-- The program that an outline stands for. -/
def program (outline : Outline) : Program :=
  .ofStatements outline.block.nodes

end Outline

/-- The terminals of a rule one by one, with some others behind them. -/
theorem Rule.terminals_append (rule : Rule) (rest : List Terminal) :
    rule.terminals ++ rest = .word .ifWord :: (rule.condition.terminals ++
      .word .thenWord :: .word rule.action.keyword :: rest) := by
  simp [Rule.terminals]

/-- The terminals of the first rule come first, behind the ends of lines in front of it. -/
theorem Rule.listed_cons (entry : Nat × Rule) (rules : List (Nat × Rule)) (rest : List Terminal) :
    Rule.listed (entry :: rules) ++ rest =
      lineEnds entry.1 ++ (entry.2.terminals ++ (Rule.listed rules ++ rest)) := by
  simp [Rule.listed]

theorem Statement.Derived.phrase {phrase : Phrase} (hderived : (expression phrase).Derived) :
    phrase.IsExpression :=
  hderived phrase (List.mem_singleton.2 rfl)

theorem Statement.Derived.condition {alone : Rule} (hderived : (rule alone).Derived) :
    alone.condition.IsExpression :=
  hderived alone.condition (List.mem_singleton.2 rfl)

theorem Statement.Derived.conditions {title : String} {rules : List (Nat × Rule)}
    (hderived : (strategy title rules).Derived) :
    ∀ entry ∈ rules, entry.2.condition.IsExpression :=
  fun entry hmem => hderived entry.2.condition (List.mem_map.2 ⟨entry, hmem, rfl⟩)

/-- A statement begins with a token of a line. -/
theorem Statement.Derived.first_kind {statement : Statement} (hderived : statement.Derived)
    (rest : List Terminal) :
    (first (statement.terminals ++ rest)).kind ≠ .lineEnd ∧
      (first (statement.terminals ++ rest)).kind ≠ .sourceEnd := by
  cases statement with
  | strategy | rule => exact ⟨by simp [Statement.terminals, Rule.terminals],
      by simp [Statement.terminals, Rule.terminals]⟩
  | expression phrase =>
    exact ⟨hderived.phrase.derives.first_kind_ne (by decide) rest,
      hderived.phrase.derives.first_kind_ne (by decide) rest⟩

/-- No statement is written with nothing. -/
theorem Statement.Derived.terminals_ne_nil {statement : Statement} (hderived : statement.Derived) :
    statement.terminals ≠ [] := by
  intro hempty
  have hend := (hderived.first_kind []).2
  rw [hempty] at hend
  exact hend rfl

/-- A statement ends at the end of a line or of the source. -/
def EndsLine (rest : List Terminal) : Prop :=
  (first rest).kind = .lineEnd ∨ (first rest).kind = .sourceEnd

/-- Where a line ends, every expression does. -/
theorem EndsLine.ends {rest : List Terminal} (hline : EndsLine rest) : Ends .expression rest := by
  rcases hline with hkind | hkind <;> simp [Ends, hkind, reach, Category.rank]

theorem EndsLine.not_else {rest : List Terminal} (hline : EndsLine rest) :
    (first rest).kind ≠ .keyword .elseWord := by
  rcases hline with hkind | hkind <;> simp [hkind]

/-- A line ends in front of ends of lines, and at the end of the source. -/
theorem endsLine_lineEnds {rest : List Terminal} (count : Nat)
    (hend : (first rest).kind = .sourceEnd) : EndsLine (lineEnds count ++ rest) := by
  cases count with
  | zero => exact .inr hend
  | succ count => exact .inl rfl

/-- A block begins with its first statement, which ends its line where the source ends behind the
    block. -/
theorem Block.exists_terminals_eq_head (block : Block) (rest : List Terminal) :
    ∃ behind, ((first rest).kind = .sourceEnd → EndsLine behind) ∧
      block.terminals ++ rest = block.head.terminals ++ behind := by
  cases block with
  | last statement behind =>
    refine ⟨lineEnds behind ++ rest, endsLine_lineEnds behind, ?_⟩
    rw [Block.terminals, List.append_assoc]
    rfl
  | more statement further block =>
    refine ⟨lineEnds (further + 1) ++ (block.terminals ++ rest), fun _ => .inl rfl, ?_⟩
    rw [Block.terminals, List.append_assoc, List.append_assoc]
    rfl

/-- A block begins with a token of a line. -/
theorem Block.Derived.first_kind {block : Block} (hderived : block.Derived)
    (rest : List Terminal) :
    (first (block.terminals ++ rest)).kind ≠ .lineEnd ∧
      (first (block.terminals ++ rest)).kind ≠ .sourceEnd := by
  obtain ⟨behind, -, hhead⟩ := block.exists_terminals_eq_head rest
  rw [hhead]
  exact hderived.head.first_kind behind

theorem lineEnds_ne_sourceEnd {count : Nat} {terminal : Terminal}
    (hmem : terminal ∈ lineEnds count) : terminal.kind ≠ .sourceEnd := by
  rw [List.eq_of_mem_replicate hmem]
  simp

theorem Rule.ne_sourceEnd {rule : Rule} (hcondition : rule.condition.IsExpression)
    {terminal : Terminal} (hmem : terminal ∈ rule.terminals) : terminal.kind ≠ .sourceEnd := by
  simp only [Rule.terminals, List.mem_cons, List.mem_append, List.not_mem_nil, or_false] at hmem
  rcases hmem with rfl | hmem | rfl | rfl
  · simp
  · exact (hcondition.derives.ne_end hmem).2
  · simp
  · cases rule.action <;> simp [Action.keyword]

/-- The end of the source is no part of a statement. -/
theorem Statement.Derived.ne_sourceEnd {statement : Statement} (hderived : statement.Derived)
    {terminal : Terminal} (hmem : terminal ∈ statement.terminals) :
    terminal.kind ≠ .sourceEnd := by
  cases statement with
  | strategy title rules =>
    simp only [Statement.terminals, List.mem_cons] at hmem
    rcases hmem with rfl | rfl | rfl | rfl | hmem
    · simp
    · simp
    · simp
    · simp
    · obtain ⟨entry, hentry, hmem⟩ := List.mem_flatMap.1 hmem
      rcases List.mem_append.1 hmem with hmem | hmem
      · exact lineEnds_ne_sourceEnd hmem
      · exact Rule.ne_sourceEnd (hderived.conditions entry hentry) hmem
  | rule alone => exact Rule.ne_sourceEnd hderived.condition hmem
  | expression phrase => exact (hderived.phrase.derives.ne_end hmem).2

/-- The end of the source is no part of a block, so it can only stand behind one. -/
theorem Block.Derived.ne_sourceEnd {block : Block} (hderived : block.Derived)
    {terminal : Terminal} (hmem : terminal ∈ block.terminals) : terminal.kind ≠ .sourceEnd := by
  induction block with
  | last statement behind =>
    rcases List.mem_append.1 hmem with hmem | hmem
    · exact Statement.Derived.ne_sourceEnd hderived hmem
    · exact lineEnds_ne_sourceEnd hmem
  | more statement further block ih =>
    rcases List.mem_append.1 hmem with hmem | hmem
    · exact hderived.1.ne_sourceEnd hmem
    · rcases List.mem_append.1 hmem with hmem | hmem
      · exact lineEnds_ne_sourceEnd hmem
      · exact ih hderived.2.2 hmem

/-- The end of the source is no part of a program. -/
theorem Outline.ne_sourceEnd {outline : Outline} (hderived : outline.block.Derived)
    {terminal : Terminal} (hmem : terminal ∈ outline.terminals) : terminal.kind ≠ .sourceEnd := by
  rcases List.mem_append.1 hmem with hmem | hmem
  · exact lineEnds_ne_sourceEnd hmem
  · exact hderived.ne_sourceEnd hmem

end Candlewick.Grammar
