import Candlewick.Proofs.Grammar.Rendering
import Candlewick.Proofs.Token.Lexical

namespace Candlewick

namespace Node

/-- What the root of a tree carries is what the tokens of a source carry. -/
def LexicalRoot : Node → Prop
  | number value => Decimal.IsNonnegative value
  | name word => IsVariable word
  | assign target _ => IsVariable target
  | call callee _ => IsCallee callee
  | _ => True

/-- Every part of a tree carries what the tokens of a source carry. -/
def IsLexical (node : Node) : Prop :=
  ∀ part, Within part node → part.LexicalRoot

/-- A trading rule: a purchase or a sale, with an expression for its condition. -/
inductive IsTrade : Node → Prop where
  | buy {condition : Node} (hvalue : condition.IsValue) : IsTrade (.buy condition)
  | sell {condition : Node} (hvalue : condition.IsValue) : IsTrade (.sell condition)

/-- A statement: a strategy of trading rules, a trading rule or an expression. -/
inductive IsStatement : Node → Prop where
  | strategy {title : String} {rules : List Node} (hrules : ∀ rule ∈ rules, rule.IsTrade) :
    IsStatement (.strategy title rules)
  | trade {node : Node} (htrade : node.IsTrade) : IsStatement node
  | value {node : Node} (hvalue : node.IsValue) : IsStatement node

/-- A tree carries what tokens carry if its root and the trees below do. -/
theorem isLexical_of_children {node : Node} (hroot : node.LexicalRoot)
    (hchildren : ∀ child ∈ node.children, child.IsLexical) : node.IsLexical :=
  forall_within_iff.2 ⟨hroot, hchildren⟩

theorem isLexical_value_of_children {node : Node} (hrule : node.isRule = false)
    (hroot : node.LexicalRoot)
    (hchildren : ∀ child ∈ node.children, child.IsValue ∧ child.IsLexical) :
    node.IsValue ∧ node.IsLexical :=
  ⟨isValue_of_children hrule fun child hchild => (hchildren child hchild).1,
    isLexical_of_children hroot fun child hchild => (hchildren child hchild).2⟩

end Node

/-- The shape of a program. It has statements, and is an expression if it has just one. No strategy
    stands below a statement, no trading rule but in a strategy or as a statement, and its parts
    carry what the tokens of a source carry. -/
structure Program.WellFormed (program : Program) : Prop where
  nonempty : program.statements ≠ []
  single : (∃ node, program = .expression node) ↔ program.statements.length = 1
  statements : ∀ statement ∈ program.statements, statement.IsStatement
  lexical : ∀ statement ∈ program.statements, statement.IsLexical

namespace Grammar

/-- The name of a call is one that a call can have. -/
theorem Callee.isCallee_name {callee : Callee} (hterminal : callee.terminal.IsLexical) :
    IsCallee callee.name := by
  cases callee with
  | word name => exact .inr hterminal
  | function builtin spelling => exact .inl hterminal

/-- The tree of a phrase is an expression, and carries what the terminals of the phrase carry. -/
theorem Derives.isLexical {category : Category} {phrase : Phrase}
    (hderives : Derives category phrase)
    (hterminals : ∀ terminal ∈ phrase.terminals, terminal.IsLexical) :
    phrase.node.IsValue ∧ phrase.node.IsLexical := by
  induction hderives with
  | number | name =>
    exact Node.isLexical_value_of_children rfl (hterminals _ (List.mem_singleton.2 rfl))
      fun _ hchild => absurd hchild List.not_mem_nil
  | text | truth | price =>
    exact Node.isLexical_value_of_children rfl trivial
      fun _ hchild => absurd hchild List.not_mem_nil
  | @call callee arguments _ ih =>
    simp only [Phrase.terminals, List.forall_mem_cons, List.forall_mem_append] at hterminals
    obtain ⟨hcallee, -, harguments, -⟩ := hterminals
    refine Node.isLexical_value_of_children rfl (Callee.isCallee_name hcallee) ?_
    intro child hchild
    rw [Phrase.node, Node.children, Phrase.nodes_eq_map] at hchild
    obtain ⟨argument, hargument, rfl⟩ := List.mem_map.1 hchild
    exact ih argument hargument fun terminal hmem =>
      harguments terminal (mem_listed_of_mem hargument hmem)
  | group _ ih =>
    simp only [Phrase.terminals, List.forall_mem_cons, List.forall_mem_append] at hterminals
    exact ih hterminals.2.1
  | past _ _ ihobject ihoffset =>
    simp only [Phrase.terminals, List.forall_mem_cons, List.forall_mem_append] at hterminals
    obtain ⟨hobject, -, hoffset, -⟩ := hterminals
    exact Node.isLexical_value_of_children rfl trivial
      (List.forall_mem_cons.2 ⟨ihobject hobject, List.forall_mem_singleton.2 (ihoffset hoffset)⟩)
  | unary _ ih =>
    simp only [Phrase.terminals, List.forall_mem_cons] at hterminals
    exact Node.isLexical_value_of_children rfl trivial
      (List.forall_mem_singleton.2 (ih hterminals.2))
  | power _ _ ihleft ihright | joined _ _ _ _ ihleft ihright =>
    simp only [Phrase.terminals, List.forall_mem_cons, List.forall_mem_append] at hterminals
    obtain ⟨hleft, -, hright⟩ := hterminals
    exact Node.isLexical_value_of_children rfl trivial
      (List.forall_mem_cons.2 ⟨ihleft hleft, List.forall_mem_singleton.2 (ihright hright)⟩)
  | assign _ ih =>
    simp only [Phrase.terminals, List.forall_mem_cons] at hterminals
    exact Node.isLexical_value_of_children rfl hterminals.1
      (List.forall_mem_singleton.2 (ih hterminals.2.2))
  | ifThen _ _ ihcondition ihconsequent =>
    simp only [Phrase.terminals, List.forall_mem_cons, List.forall_mem_append] at hterminals
    obtain ⟨-, hcondition, -, hconsequent⟩ := hterminals
    exact Node.isLexical_value_of_children rfl trivial (List.forall_mem_cons.2
      ⟨ihcondition hcondition, List.forall_mem_singleton.2 (ihconsequent hconsequent)⟩)
  | ifThenElse _ _ _ ihcondition ihconsequent ihalternative =>
    simp only [Phrase.terminals, List.forall_mem_cons, List.forall_mem_append] at hterminals
    obtain ⟨-, hcondition, -, hconsequent, -, halternative⟩ := hterminals
    exact Node.isLexical_value_of_children rfl trivial (List.forall_mem_cons.2
      ⟨ihcondition hcondition, List.forall_mem_cons.2
        ⟨ihconsequent hconsequent, List.forall_mem_singleton.2 (ihalternative halternative)⟩⟩)
  | tighter _ _ ih => exact ih hterminals

/-- The tree of a trading rule is a purchase or a sale with an expression for its condition. -/
theorem Rule.isTrade {rule : Rule} (hcondition : rule.condition.IsExpression)
    (hterminals : ∀ terminal ∈ rule.terminals, terminal.IsLexical) :
    rule.node.IsTrade ∧ rule.node.IsLexical := by
  simp only [Rule.terminals, List.forall_mem_cons, List.forall_mem_append] at hterminals
  obtain ⟨hvalue, hlexical⟩ := hcondition.derives.isLexical hterminals.2.1
  obtain ⟨condition, action⟩ := rule
  cases action with
  | buy =>
    exact ⟨.buy hvalue, Node.isLexical_of_children trivial (List.forall_mem_singleton.2 hlexical)⟩
  | sell =>
    exact ⟨.sell hvalue, Node.isLexical_of_children trivial (List.forall_mem_singleton.2 hlexical)⟩

/-- The tree of a statement has the shape of one. -/
theorem Statement.Derived.isStatement {statement : Statement} (hderived : statement.Derived)
    (hterminals : ∀ terminal ∈ statement.terminals, terminal.IsLexical) :
    statement.node.IsStatement ∧ statement.node.IsLexical := by
  cases statement with
  | strategy title rules =>
    have hrules : ∀ rule ∈ rules.map fun entry => entry.2.node, rule.IsTrade ∧ rule.IsLexical := by
      intro node hnode
      obtain ⟨entry, hentry, rfl⟩ := List.mem_map.1 hnode
      refine Rule.isTrade (hderived.conditions entry hentry) fun terminal hmem => ?_
      simp only [Statement.terminals, List.forall_mem_cons] at hterminals
      exact hterminals.2.2.2.2 terminal
        (List.mem_flatMap.2 ⟨entry, hentry, List.mem_append_right _ hmem⟩)
    exact ⟨.strategy fun rule hrule => (hrules rule hrule).1,
      Node.isLexical_of_children trivial fun rule hrule => (hrules rule hrule).2⟩
  | rule alone =>
    obtain ⟨htrade, hlexical⟩ := Rule.isTrade hderived.condition hterminals
    exact ⟨.trade htrade, hlexical⟩
  | expression phrase =>
    obtain ⟨hvalue, hlexical⟩ := hderived.phrase.derives.isLexical hterminals
    exact ⟨.value hvalue, hlexical⟩

theorem Block.nodes_ne_nil (block : Block) : block.nodes ≠ [] := by
  cases block <;> exact List.cons_ne_nil _ _

/-- The trees of a block are those of statements. -/
theorem Block.Derived.isStatement {block : Block} (hderived : block.Derived)
    (hterminals : ∀ terminal ∈ block.terminals, terminal.IsLexical) :
    ∀ node ∈ block.nodes, node.IsStatement ∧ node.IsLexical := by
  induction block with
  | last statement behind =>
    exact List.forall_mem_singleton.2
      (Statement.Derived.isStatement hderived (List.forall_mem_append.1 hterminals).1)
  | more statement further rest ih =>
    simp only [Block.terminals, List.forall_mem_append] at hterminals
    obtain ⟨hstatement, -, hrest⟩ := hterminals
    exact List.forall_mem_cons.2
      ⟨hderived.1.isStatement hstatement, ih hderived.2.2 hrest⟩

end Grammar

/-- A program is an expression if it has one statement, and a block otherwise. -/
theorem Program.exists_eq_expression_iff {nodes : List Node} :
    (∃ node, ofStatements nodes = .expression node) ↔
      (ofStatements nodes).statements.length = 1 := by
  rw [statements_ofStatements, List.length_eq_one_iff]
  constructor
  · rintro ⟨node, hprogram⟩
    have hnodes := congrArg statements hprogram
    rw [statements_ofStatements] at hnodes
    exact ⟨node, hnodes⟩
  · rintro ⟨node, rfl⟩
    exact ⟨node, rfl⟩

open Grammar

/-- Every program that is read has the shape of one. -/
theorem wellFormed_of_parse {source : String} {parsed : Parsed}
    (hparse : (parse source).result = .ok parsed) : parsed.program.WellFormed := by
  unfold parse at hparse
  cases hsource : tokenize source with
  | error e =>
    rw [hsource] at hparse
    cases hparse
  | ok tokens =>
    rw [hsource] at hparse
    obtain ⟨outline, hderives, hprogram⟩ :=
      exists_outline_of_parse (onlyLastEnds_of_tokenize hsource) hparse
    have hterminals : ∀ terminal ∈ outline.terminals, terminal.IsLexical := by
      rw [hderives.terminals]
      intro terminal hmem
      obtain ⟨token, htoken, rfl⟩ := List.mem_map.1 hmem
      exact isLexical_of_mem_tokenize hsource (List.takeWhile_subset _ htoken)
    have hstatements := hderives.derived.isStatement (List.forall_mem_append.1 hterminals).2
    rw [← hprogram]
    refine ⟨?_, Program.exists_eq_expression_iff, ?_, ?_⟩
    all_goals rw [Outline.program, Program.statements_ofStatements]
    · exact Block.nodes_ne_nil outline.block
    · exact fun node hnode => (hstatements node hnode).1
    · exact fun node hnode => (hstatements node hnode).2

/-- A strategy, and an assignment on the next line. -/
theorem wellFormed_of_parse_strategy :
    ∃ parsed, (parse "strategy('s') if sma(close, n) > a.b then buy\nx := f(y)").result =
      .ok parsed ∧ parsed.program.WellFormed := by
  have hparse : (parse "strategy('s') if sma(close, n) > a.b then buy\nx := f(y)").result =
      .ok ⟨.sequence [.strategy "s" [.buy (.binary .gt
        (.call "sma" [.price .closing, .name "n"]) (.name "a.b"))],
          .assign "x" (.call "f" [.name "y"])], []⟩ := by cbv
  exact ⟨_, hparse, wellFormed_of_parse hparse⟩

end Candlewick
