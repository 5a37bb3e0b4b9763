import Candlewick.Proofs.Grammar.Layout

namespace Candlewick

namespace Grammar

namespace Block

/-- The last statement. -/
def foot : Block → Statement
  | last statement _ => statement
  | more _ _ rest => rest.foot

/-- Statements with those of another block behind them. Between the two are the line ends that stood
    behind the first block, one more and `before` others. -/
def followedBy : Block → Nat → Block → Block
  | last statement behind, before, other => .more statement (behind + before) other
  | more statement further rest, before, other =>
    .more statement further (rest.followedBy before other)

variable {one other : Block} (before : Nat)

/-- Two blocks are written one behind the other, with the end of a line between them. -/
theorem terminals_followedBy :
    (one.followedBy before other).terminals =
      one.terminals ++ .plain .lineEnd :: (lineEnds before ++ other.terminals) := by
  induction one with
  | last statement behind =>
    have hends : lineEnds (behind + before + 1) = lineEnds behind ++ lineEnds (before + 1) := by
      rw [lineEnds, lineEnds, lineEnds, List.replicate_append_replicate, Nat.add_assoc]
    rw [followedBy, terminals, terminals, hends, List.append_assoc, List.append_assoc]
    rfl
  | more statement further rest ih =>
    rw [followedBy, terminals, ih, terminals, List.append_assoc, List.append_assoc]

/-- The trees of two blocks follow each other. -/
theorem nodes_followedBy : (one.followedBy before other).nodes = one.nodes ++ other.nodes := by
  induction one with
  | last statement behind => rfl
  | more statement further rest ih => rw [followedBy, nodes, ih, nodes, List.cons_append]

/-- The warnings about two blocks add up. -/
theorem warned_followedBy : (one.followedBy before other).warned = one.warned + other.warned := by
  induction one with
  | last statement behind => rw [followedBy, warned_more, warned_last]
  | more statement further rest ih =>
    rw [followedBy, warned_more, ih, warned_more, Nat.add_assoc]

/-- There is room for two blocks if there is room for both. -/
theorem Fits.followedBy {limits : Limits} (hone : one.Fits limits) (hother : other.Fits limits) :
    (one.followedBy before other).Fits limits := by
  induction one with
  | last statement behind => exact ⟨hone, hother⟩
  | more statement further rest ih => exact ⟨hone.1, ih hone.2⟩

theorem head_followedBy : (one.followedBy before other).head = one.head := by
  cases one <;> rfl

/-- Two blocks derived by the grammar make up one, unless a rule would come to stand directly behind
    a strategy. -/
theorem Derived.followedBy (hone : one.Derived) (hother : other.Derived)
    (hapart : one.foot.isStrategy = true → other.head.isRule = false) :
    (one.followedBy before other).Derived := by
  induction one with
  | last statement behind => exact ⟨hone, hapart, hother⟩
  | more statement further rest ih =>
    obtain ⟨hstatement, hadjacent, hrest⟩ := hone
    refine ⟨hstatement, fun hstrategy => ?_, ih hrest hapart⟩
    rw [head_followedBy]
    exact hadjacent hstrategy

theorem head?_nodes (block : Block) : block.nodes.head? = some block.head.node := by
  cases block <;> rfl

theorem getLast?_nodes (block : Block) : block.nodes.getLast? = some block.foot.node := by
  induction block with
  | last statement behind => rfl
  | more statement further rest ih => rw [nodes, List.getLast?_cons, ih, foot, Option.getD_some]

end Block

theorem Statement.exists_node_of_isStrategy {statement : Statement}
    (hstrategy : statement.isStrategy = true) :
    ∃ title rules, statement.node = .strategy title rules := by
  cases statement with
  | strategy title rules => exact ⟨title, _, rfl⟩
  | rule | expression => cases hstrategy

theorem Statement.exists_node_of_isRule {statement : Statement} (hrule : statement.isRule = true) :
    ∃ condition, statement.node = .buy condition ∨ statement.node = .sell condition := by
  cases statement with
  | rule alone =>
    rcases alone with ⟨condition, _ | _⟩
    · exact ⟨condition.node, .inl rfl⟩
    · exact ⟨condition.node, .inr rfl⟩
  | strategy | expression => cases hrule

@[simp] theorem Outline.statements_program (outline : Outline) :
    outline.program.statements = outline.block.nodes :=
  Program.statements_ofStatements _

/-- Some statements end with a strategy and others begin with a trading rule, which would be taken
    for one of its rules. -/
def Clash (front back : List Node) : Prop :=
  ∃ title rules condition, front.getLast? = some (.strategy title rules) ∧
    (back.head? = some (.buy condition) ∨ back.head? = some (.sell condition))

/-- The derivations of two token lists, and the end of a line between the lists. -/
theorem Outline.Derives.followedBy {front back : List Token} {one other : Outline}
    {lineEnd : Token} (hone : one.Derives front) (hother : other.Derives back)
    (hfront : ∀ token ∈ front, token.kind ≠ .sourceEnd) (hline : lineEnd.kind = .lineEnd)
    (hapart : ¬ Clash one.block.nodes other.block.nodes) :
    Outline.Derives ⟨one.before, one.block.followedBy other.before other.block⟩
      (front ++ lineEnd :: back) := by
  constructor
  · apply hone.derived.followedBy _ hother.derived
    intro hstrategy
    by_contra hrule
    obtain ⟨title, rules, hfoot⟩ := Statement.exists_node_of_isStrategy hstrategy
    obtain ⟨condition, hhead⟩ := Statement.exists_node_of_isRule (eq_true_of_ne_false hrule)
    refine hapart ⟨title, rules, condition, ?_, ?_⟩
    · rw [Block.getLast?_nodes, hfoot]
    · rw [Block.head?_nodes]
      exact hhead.imp (congrArg some) (congrArg some)
  · have hterminal : lineEnd.terminal = .plain .lineEnd := by
      rw [Token.terminal, hline]
      rfl
    have hcontent : content (front ++ lineEnd :: back) =
        content front ++ .plain .lineEnd :: content back := by
      have hall := takeWhile_of_forall hfront []
      rw [List.append_nil, List.takeWhile_nil, List.append_nil] at hall
      rw [content, takeWhile_of_forall hfront, List.takeWhile_cons_of_pos (by simp [hline]),
        List.map_append, List.map_cons, hterminal, content, hall, content]
    rw [hcontent, ← hone.terminals, ← hother.terminals]
    simp only [Outline.terminals, Block.terminals_followedBy, List.append_assoc]

/-- Token lists that are read can be read one behind the other, with the end of a line between
    them. -/
theorem exists_parse_followedBy {limits : Limits} {front back : List Token} {lineEnd : Token}
    {one other : Parsed} (hfront : ∀ token ∈ front, token.kind ≠ .sourceEnd)
    (hback : OnlyLastEnds back) (hline : lineEnd.kind = .lineEnd)
    (hone : (parseTokensWithin limits front).result = .ok one)
    (hother : (parseTokensWithin limits back).result = .ok other)
    (hapart : ¬ Clash one.program.statements other.program.statements) :
    ∃ whole, (parseTokensWithin limits (front ++ lineEnd :: back)).result = .ok whole ∧
      whole.program.statements = one.program.statements ++ other.program.statements ∧
      whole.warnings.length = one.warnings.length + other.warnings.length := by
  have hends : OnlyLastEnds front := fun token hmem => hfront token (List.dropLast_subset _ hmem)
  have hwhole : OnlyLastEnds (front ++ lineEnd :: back) := by
    rw [List.append_cons]
    refine OnlyLastEnds.append (fun token hmem => ?_) hback
    rcases List.mem_append.1 hmem with hmem | hmem
    · exact hfront token hmem
    · rw [List.mem_singleton.1 hmem, hline]
      simp
  obtain ⟨outline, hderives, hfits, hprogram, hwarnings⟩ :=
    exists_fitting_outline_of_parse hends hone
  obtain ⟨outline', hderives', hfits', hprogram', hwarnings'⟩ :=
    exists_fitting_outline_of_parse hback hother
  rw [← hprogram, ← hprogram', Outline.statements_program, Outline.statements_program] at hapart
  have hboth := hderives.followedBy hderives' hfront hline hapart
  obtain ⟨whole, hparse, hstatements, hcount⟩ :=
    hboth.exists_parse hwhole (hfits.followedBy outline'.before hfits')
  refine ⟨whole, hparse, ?_, ?_⟩
  · rw [hstatements, ← hprogram, ← hprogram', Outline.statements_program,
      Outline.statements_program, Outline.statements_program, Block.nodes_followedBy]
  · rw [hcount, hwarnings, hwarnings', Block.warned_followedBy]

end Grammar

open Grammar

/-- Programs on lines of their own are read one by one. Where the tokens of two sources are
    programs, the tokens of the first one, the end of a line and those of the second one are a
    program, which has the statements and the warnings of the one and then those of the other;
    unless the first one ends with a strategy, which would take a trading rule at the beginning of
    the second one. -/
theorem parseTokens_line_by_line {source source' : String} {front back : List Token}
    {lineEnd : Token} {one other : Parsed} (hfront : tokenize source = .ok front)
    (hback : tokenize source' = .ok back) (hline : lineEnd.kind = .lineEnd)
    (hone : (parseTokens front.dropLast).result = .ok one)
    (hother : (parseTokens back.dropLast).result = .ok other)
    (hapart : ¬ Clash one.program.statements other.program.statements) :
    ∃ whole, (parseTokens (front.dropLast ++ lineEnd :: back.dropLast)).result = .ok whole ∧
      whole.program.statements = one.program.statements ++ other.program.statements ∧
      whole.warnings.map Warning.message =
        one.warnings.map Warning.message ++ other.warnings.map Warning.message := by
  have hprefix : back.dropLast <+: back := List.dropLast_prefix back
  obtain ⟨whole, hparse, hstatements, hcount⟩ :=
    exists_parse_followedBy (onlyLastEnds_of_tokenize hfront)
      ((onlyLastEnds_of_tokenize hback).of_isPrefix hprefix) hline hone hother hapart
  refine ⟨whole, hparse, hstatements, ?_⟩
  rw [← List.map_append]
  apply map_message_eq
  rw [hcount, List.length_append]

/-- A strategy with a rule, and a conditional behind it that is no rule and comes with a warning. -/
theorem parseTokens_line_by_line_strategy :
    let front : List Token :=
      [⟨.keyword .strategyWord, "strategy", ⟨0, 1, 1⟩⟩, ⟨.punctuation .leftParen, "(", ⟨8, 1, 9⟩⟩,
        ⟨.text "s", "'s'", ⟨9, 1, 10⟩⟩, ⟨.punctuation .rightParen, ")", ⟨12, 1, 13⟩⟩,
        ⟨.lineEnd, "\n", ⟨13, 1, 14⟩⟩, ⟨.keyword .ifWord, "if", ⟨14, 2, 1⟩⟩,
        ⟨.identifier "a", "a", ⟨17, 2, 4⟩⟩, ⟨.keyword .thenWord, "then", ⟨19, 2, 6⟩⟩,
        ⟨.keyword .buyWord, "buy", ⟨24, 2, 11⟩⟩, .sourceEnd ⟨27, 2, 14⟩]
    let back : List Token :=
      [⟨.keyword .ifWord, "if", ⟨0, 1, 1⟩⟩, ⟨.identifier "b", "b", ⟨3, 1, 4⟩⟩,
        ⟨.keyword .thenWord, "then", ⟨5, 1, 6⟩⟩, ⟨.keyword .ifWord, "if", ⟨10, 1, 11⟩⟩,
        ⟨.identifier "c", "c", ⟨13, 1, 14⟩⟩, ⟨.keyword .thenWord, "then", ⟨15, 1, 16⟩⟩,
        ⟨.identifier "d", "d", ⟨20, 1, 21⟩⟩, ⟨.keyword .elseWord, "else", ⟨22, 1, 23⟩⟩,
        ⟨.identifier "e", "e", ⟨27, 1, 28⟩⟩, .sourceEnd ⟨28, 1, 29⟩]
    tokenize "strategy('s')\nif a then buy" = .ok front ∧
      tokenize "if b then if c then d else e" = .ok back ∧
      ∃ whole,
        (parseTokens (front.dropLast ++ ⟨.lineEnd, "\n", ⟨27, 2, 14⟩⟩ :: back.dropLast)).result =
          .ok whole ∧
        whole.program.statements =
          [.strategy "s" [.buy (.name "a")],
            .ifThen (.name "b") (.ifThenElse (.name "c") (.name "d") (.name "e"))] ∧
        whole.warnings.map Warning.message =
          ["ambiguous dangling 'else'; bound to the nearest 'if'"] := by
  intro front back
  have hfront : tokenize "strategy('s')\nif a then buy" = .ok front := by cbv
  have hback : tokenize "if b then if c then d else e" = .ok back := by cbv
  have hone : (parseTokens front.dropLast).result =
      .ok ⟨.expression (.strategy "s" [.buy (.name "a")]), []⟩ := by cbv
  have hname := derives_name .expression
  let inner : Phrase := .ifThenElse (.name "c") (.name "d") (.name "e")
  have hwhole : (Phrase.ifThen (.name "b") inner).IsExpression :=
    ⟨.ifThen (hname "b") (.ifThenElse (hname "c") (hname "d") (hname "e")),
      by simp [inner, Phrase.ElseNearest, Phrase.isOpen]⟩
  have hderives : Outline.Derives ⟨0, .last (.expression (.ifThen (.name "b") inner)) 0⟩
      back.dropLast :=
    ⟨fun part hmem => (List.mem_singleton.1 hmem).symm ▸ hwhole, rfl⟩
  obtain ⟨other, hother, hprogram, hcount⟩ := hderives.exists_parse
    ((onlyLastEnds_of_tokenize hback).of_isPrefix (List.dropLast_prefix back))
    (Statement.Fits.mk (by decide) (by decide) : Statement.Fits .standard _)
  have hapart : ¬ Clash [.strategy "s" [.buy (.name "a")]] other.program.statements := by
    rw [hprogram]
    rintro ⟨title, rules, condition, -, hhead | hhead⟩ <;> cases hhead
  obtain ⟨whole, hwhole, hstatements, hmessages⟩ :=
    parseTokens_line_by_line hfront hback
      (rfl : (Token.mk .lineEnd "\n" ⟨27, 2, 14⟩).kind = .lineEnd) hone hother hapart
  refine ⟨hfront, hback, whole, hwhole, ?_, ?_⟩
  · rw [hstatements, hprogram]
    rfl
  · have hwarned : other.warnings.length = [Warning.mk Place.start].length := hcount
    rw [hmessages]
    exact map_message_eq hwarned

end Candlewick
