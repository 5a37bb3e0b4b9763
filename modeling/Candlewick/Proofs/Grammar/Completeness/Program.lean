import Candlewick.Proofs.Grammar.Completeness.Expression
import Candlewick.Proofs.Grammar.Links

namespace Candlewick.Grammar

variable {limits : Limits} {fits : Prop} {s : State} {rest : List Terminal}

/-- Every expression is read. -/
theorem Phrase.IsExpression.complete {phrase : Phrase} (hphrase : phrase.IsExpression) :
    Complete limits .expression phrase :=
  hphrase.derives.complete hphrase.elseNearest

theorem expression_eq_deeperAt (limits : Limits) :
    expression limits = (deeperAt limits 0).expression :=
  rfl

/-- A rule is read as far as its action. -/
theorem leads_rule {rule : Rule} {arrived : Node × Consequent → State → Prop}
    (hcondition : rule.condition.IsExpression) (hfits : fits → Fits limits 1 rule.condition)
    (hnesting : s.nesting = 0) (hterminals : s.terminals = rule.terminals ++ rest)
    (harrived : ∀ later, Behind s rest later → rule.condition.nesting + 1 ≤ limits.nesting →
      arrived (rule.condition.node, rule.action.consequent) later) :
    Leads (TooDeep fits) (conditionalHead (expression limits)) s arrived := by
  rw [rule.terminals_append] at hterminals
  rw [expression_eq_deeperAt]
  apply leads_conditionalHead hcondition.complete (Nat.zero_le _) hfits hnesting hterminals
  intro later hlater hconditionNesting
  rw [Nat.zero_add, Nat.add_comm] at hconditionNesting
  have hrule := harrived _ hlater.skipped hconditionNesting
  rcases rule with ⟨condition, _ | _⟩
  all_goals
    simp only [first_cons, Terminal.kind_word, Action.keyword, TokenKind.keyword.injEq,
      reduceCtorEq, if_true, if_false]
    exact hrule

/-- A conditional begins with `if`. -/
theorem first_kind_of_isConditional {phrase : Phrase} (hconditional : phrase.isConditional = true)
    (rest : List Terminal) : (first (phrase.terminals ++ rest)).kind = .keyword .ifWord := by
  cases phrase with
  | ifThen | ifThenElse => rfl
  | _ => cases hconditional

/-- The head of a conditional phrase is read, whatever its end. -/
theorem leads_conditional {phrase : Phrase} {arrived : Node → State → Prop}
    (hphrase : phrase.IsExpression) (hconditional : phrase.isConditional = true)
    (hahead : Ahead limits .expression fits s phrase rest)
    (harrived : ∀ later, Behind s rest later → s.nesting + phrase.nesting ≤ limits.nesting →
      arrived phrase.node later) :
    Leads (TooDeep fits) (conditionalHead (deeperAt limits s.nesting).expression) s
      (LeadsToEnd (TooDeep fits) (deeperAt limits s.nesting).expression s.nesting arrived) := by
  obtain ⟨condition, consequent, rfl, hcondition, hconsequent⟩ |
    ⟨condition, consequent, alternative, rfl, hcondition, hconsequent, halternative⟩ |
    ⟨target, value, rfl, -⟩ | hor := hphrase.derives.expression_cases
  · obtain ⟨hconditionElse, hconsequentElse⟩ := hphrase.elseNearest
    exact leads_ifThen (hcondition.complete hconditionElse) (hconsequent.complete hconsequentElse)
      hconsequent hahead harrived
  · obtain ⟨hclosed, hconditionElse, hconsequentElse, halternativeElse⟩ := hphrase.elseNearest
    exact leads_ifThenElse (hcondition.complete hconditionElse)
      (hconsequent.complete hconsequentElse) (halternative.complete halternativeElse) hconsequent
      hclosed hahead harrived
  · cases hconditional
  · exact absurd (first_kind_of_isConditional hconditional rest) (hor.not_if rest)

/-- What may come behind the rules of a strategy: anything but a conditional, or a conditional that
    is an expression. -/
inductive AfterRules (limits : Limits) (fits : Prop) (rest : List Terminal) : Prop where
  | other {count : Nat} {behind : List Terminal} (hterminals : rest = lineEnds count ++ behind)
    (hline : (first behind).kind ≠ .lineEnd) (hif : (first behind).kind ≠ .keyword .ifWord)
  | conditional {count : Nat} {phrase : Phrase} {behind : List Terminal}
    (hterminals : rest = lineEnds count ++ (phrase.terminals ++ behind))
    (hphrase : phrase.IsExpression) (hconditional : phrase.isConditional = true)
    (hends : Ends .expression behind) (helse : (first behind).kind ≠ .keyword .elseWord)
    (hfits : fits → Fits limits 0 phrase)

/-- Where line ends and something else are ahead, skipping the line ends leads to it. -/
theorem terminals_behindLineEnds_eq {count : Nat} {behind : List Terminal}
    (hterminals : s.terminals = lineEnds count ++ behind) (hline : (first behind).kind ≠ .lineEnd) :
    s.behindLineEnds.terminals = behind := by
  obtain ⟨count', hterminals', hfirst'⟩ := s.terminals_behindLineEnds
  exact (lineEnds_append_inj hfirst' hline (hterminals'.symm.trans hterminals)).2

/-- The rules of a strategy are read as long as there are any. The induction is on the rules; each
    takes a round, and one round more finds that none is left. -/
theorem leads_rules {alarm : ParseFault} {rules : List (Nat × Rule)} {fuel : Nat}
    {arrived : List Node → State → Prop}
    (hconditions : ∀ entry ∈ rules, entry.2.condition.IsExpression)
    (hfits : fits → ∀ entry ∈ rules, Fits limits 1 entry.2.condition)
    (hafter : AfterRules limits fits rest) (hnesting : s.nesting = 0)
    (hterminals : s.terminals = Rule.listed rules ++ rest) (hfuel : s.terminals.length < fuel)
    (harrived : ∀ later, Behind s rest later →
      (∀ entry ∈ rules, entry.2.condition.nesting + 1 ≤ limits.nesting) →
      arrived (rules.map fun entry => entry.2.node) later) :
    Leads (TooDeep fits) (Grammar.rules alarm (expression limits) fuel) s arrived := by
  induction rules generalizing s fuel arrived with
  | nil =>
    have hs : s.terminals = rest := hterminals
    obtain ⟨fuel, rfl⟩ : ∃ left, fuel = left + 1 := ⟨fuel - 1, by omega⟩
    simp only [Grammar.rules, leads_bind, leads_get, leads_skipLineEnds, leads_peekKind,
      leads_ite, leads_pure, leads_modify]
    cases hafter with
    | other hrest hline hif =>
      rw [terminals_behindLineEnds_eq (hs.trans hrest) hline, if_neg hif]
      exact harrived _ ⟨hs, rfl⟩ (by simp)
    | @conditional count phrase behind hrest hphrase hconditional hends helse hphraseFits =>
      have hif := first_kind_of_isConditional hconditional behind
      have hbehind : s.behindLineEnds.terminals = phrase.terminals ++ behind := by
        apply terminals_behindLineEnds_eq (hs.trans hrest)
        rw [hif]
        simp
      have hahead : Ahead limits .expression fits s.behindLineEnds phrase behind := by
        refine ⟨?_, hbehind, hends, fun _ => helse, ?_⟩
        · rw [State.nesting_behindLineEnds, hnesting]
          exact Nat.zero_le _
        · rw [State.nesting_behindLineEnds, hnesting]
          exact hphraseFits
      have hhead : Leads (TooDeep fits)
          (conditionalHead (deeperAt limits s.behindLineEnds.nesting).expression) s.behindLineEnds
          (LeadsToEnd (TooDeep fits) (deeperAt limits s.behindLineEnds.nesting).expression
            s.behindLineEnds.nesting fun _ _ => True) :=
        leads_conditional hphrase hconditional hahead fun _ _ _ => trivial
      rw [State.nesting_behindLineEnds, hnesting, ← expression_eq_deeperAt] at hhead
      rw [hbehind, if_pos hif]
      -- What the head has read is given back: the conditional is the next statement.
      apply hhead.mono fun _ h => h
      rintro _ later ⟨hlevel, condition, consequent, nestedIf, rfl, -⟩
      exact harrived _ ⟨hs, hlevel.trans hnesting.symm⟩ (by simp)
  | cons entry more ih =>
    obtain ⟨hcondition, hmoreConditions⟩ := List.forall_mem_cons.1 hconditions
    rw [Rule.listed_cons] at hterminals
    have hrule : (first (entry.2.terminals ++ (Rule.listed more ++ rest))).kind =
        .keyword .ifWord := by
      rw [entry.2.terminals_append]
      rfl
    have hbehind : s.behindLineEnds.terminals =
        entry.2.terminals ++ (Rule.listed more ++ rest) := by
      apply terminals_behindLineEnds_eq hterminals
      rw [hrule]
      simp
    obtain ⟨fuel, rfl⟩ : ∃ left, fuel = left + 1 := by
      rw [hterminals, entry.2.terminals_append] at hfuel
      simp at hfuel
      exact ⟨fuel - 1, by omega⟩
    simp only [Grammar.rules, leads_bind, leads_get, leads_skipLineEnds, leads_peekKind, leads_ite,
      leads_pure, leads_modify]
    rw [hbehind, if_pos hrule]
    have hlevel : s.behindLineEnds.nesting = 0 := hnesting
    apply leads_rule hcondition (fun h => (List.forall_mem_cons.1 (hfits h)).1) hlevel hbehind
    intro later hlater hconditionNesting
    have hmore : Leads (TooDeep fits) (Grammar.rules alarm (expression limits) fuel) later
        fun nodes last => arrived (entry.2.node :: nodes) last := by
      apply ih hmoreConditions (fun h => (List.forall_mem_cons.1 (hfits h)).2)
        (hlater.nesting.trans hnesting) hlater.terminals
      · rw [hterminals, entry.2.terminals_append] at hfuel
        rw [hlater.terminals]
        simp at hfuel ⊢
        omega
      · intro last hlast hmoreNesting
        refine harrived last ⟨hlast.terminals, hlast.nesting.trans hlater.nesting⟩ ?_
        exact List.forall_mem_cons.2 ⟨hconditionNesting, hmoreNesting⟩
    rcases entry with ⟨count, condition, _ | _⟩
    all_goals
      simp only [Action.consequent, leads_bind, leads_pure]
      exact hmore

/-- A strategy is read with all of its rules, if no further one comes behind them. -/
theorem leads_strategy {title : String} {rules : List (Nat × Rule)}
    {arrived : Node → State → Prop} (hderived : (Statement.strategy title rules).Derived)
    (hfits : fits → (Statement.strategy title rules).Fits limits)
    (hafter : AfterRules limits fits rest) (hnesting : s.nesting = 0)
    (hterminals : s.terminals = (Statement.strategy title rules).terminals ++ rest)
    (harrived : ∀ later, Behind s rest later →
      (Statement.strategy title rules).nesting ≤ limits.nesting →
      arrived (Statement.strategy title rules).node later) :
    Leads (TooDeep fits) (strategy (expression limits)) s arrived := by
  have hs : s.terminals = .word .strategyWord :: .sign .leftParen :: .plain (.text title) ::
      .sign .rightParen :: (Rule.listed rules ++ rest) :=
    hterminals
  have hopen := behind_skipped hs
  have htitle := hopen.skipped
  have hclose := htitle.skipped
  have hrules := hclose.skipped
  simp only [strategy, leads_bind, leads_expectWord, leads_expectSign, leads_peekKind,
    leads_skip, leads_remaining, leads_pure, hs, hopen.terminals, htitle.terminals,
    hclose.terminals, first_cons, Terminal.kind_word, Terminal.kind_sign, Terminal.kind_plain,
    if_true]
  apply leads_rules hderived.conditions (fun h => (hfits h).strategy) hafter
    (hrules.nesting.trans hnesting) hrules.terminals (Nat.lt_succ_self _)
  intro later hlater hrulesNesting
  apply harrived later (hrules.trans hlater)
  rw [Statement.nesting_strategy_le]
  exact hrulesNesting

/-- An expression that is no conditional does not begin with an `if`. -/
theorem first_kind_of_not_conditional {phrase : Phrase} (hphrase : phrase.IsExpression)
    (hconditional : phrase.isConditional = false) (rest : List Terminal) :
    (first (phrase.terminals ++ rest)).kind ≠ .keyword .ifWord := by
  obtain ⟨condition, consequent, rfl, -⟩ | ⟨condition, consequent, alternative, rfl, -⟩ |
    ⟨target, value, rfl, -⟩ | hor := hphrase.derives.expression_cases
  · cases hconditional
  · cases hconditional
  · simp [Phrase.terminals]
  · exact hor.not_if rest

/-- A statement that begins with neither `strategy` nor `if` is an expression one level below. -/
theorem leads_statementHere {statement : Statement} {arrived : Node → State → Prop}
    (hderived : statement.Derived) (hfits : fits → statement.Fits limits)
    (hafter : statement.isStrategy = true → AfterRules limits fits rest) (hline : EndsLine rest)
    (hnesting : s.nesting = 0) (hterminals : s.terminals = statement.terminals ++ rest)
    (harrived : ∀ later, Behind s rest later → statement.nesting ≤ limits.nesting →
      arrived statement.node later) :
    Leads (TooDeep fits) (statementHere (expression limits)) s arrived := by
  simp only [statementHere, leads_bind, leads_peekKind]
  cases statement with
  | strategy title rules =>
    have hfirst : (first s.terminals).kind = .keyword .strategyWord := by
      rw [hterminals]
      rfl
    simp only [hfirst]
    exact leads_strategy hderived hfits (hafter rfl) hnesting hterminals harrived
  | rule rule =>
    have hfirst : (first s.terminals).kind = .keyword .ifWord := by
      rw [hterminals]
      rfl
    simp only [hfirst, leads_bind]
    apply leads_rule hderived.condition (fun h => (hfits h).rule) hnesting hterminals
    intro later hlater hconditionNesting
    have hrule := harrived later hlater hconditionNesting
    rcases rule with ⟨condition, _ | _⟩ <;> exact hrule
  | expression phrase =>
    have hphrase := hderived.phrase
    cases hconditional : phrase.isConditional with
    | true =>
      have hfirst : (first s.terminals).kind = .keyword .ifWord := by
        rw [hterminals]
        exact first_kind_of_isConditional hconditional rest
      have hahead : Ahead limits .expression fits s phrase rest := by
        refine ⟨?_, hterminals, hline.ends, fun _ => hline.not_else, ?_⟩
        · rw [hnesting]
          exact Nat.zero_le _
        · rw [hnesting]
          exact fun h => (hfits h).conditional hconditional
      simp only [hfirst, leads_bind]
      rw [expression_eq_deeperAt, ← hnesting]
      apply (leads_conditional hphrase hconditional hahead fun later hlater hphraseNesting =>
        harrived later hlater ?_).mono fun _ h => h
      · rintro _ later ⟨-, condition, consequent, nestedIf, rfl, hend⟩
        exact hend
      · rw [Statement.nesting, if_pos hconditional]
        omega
    | false =>
      have hif : (first s.terminals).kind ≠ .keyword .ifWord := by
        rw [hterminals]
        exact first_kind_of_not_conditional hphrase hconditional rest
      have hstrategy : (first s.terminals).kind ≠ .keyword .strategyWord := by
        rw [hterminals]
        exact hphrase.derives.first_kind_ne (by decide) rest
      simp only
      rw [expression_eq_deeperAt, deeperAt_expression (Nat.zero_le _)]
      apply hphrase.complete.below hnesting hterminals hline.ends (fun _ => hline.not_else)
        fun h => (hfits h).expression hconditional
      intro later hlater hphraseNesting
      apply harrived later hlater
      rw [Statement.nesting, if_neg (by simp [hconditional])]
      omega

/-- A statement is read unless it is too deep. -/
theorem leads_statement {statement : Statement} {arrived : Node → State → Prop}
    (hderived : statement.Derived) (hfits : fits → statement.Fits limits)
    (hafter : statement.isStrategy = true → AfterRules limits fits rest) (hline : EndsLine rest)
    (hnesting : s.nesting = 0) (hterminals : s.terminals = statement.terminals ++ rest)
    (harrived : ∀ later, Behind s rest later → statement.Fits limits →
      arrived statement.node later) :
    Leads (TooDeep fits) (Grammar.statement limits) s arrived := by
  simp only [Grammar.statement, leads_bind, leads_peek, leads_ite, leads_throw, leads_pure]
  apply leads_statementHere hderived hfits hafter hline hnesting hterminals
  intro later hlater hstatementNesting
  rw [Node.depth_eq_height]
  by_cases hdeep : limits.depth < statement.node.height
  · rw [if_pos hdeep]
    refine ⟨rfl, fun h => ?_⟩
    have hheight := (hfits h).height
    omega
  · rw [if_neg hdeep]
    exact harrived later hlater ⟨hstatementNesting, by omega⟩

/-- Behind the line ends after a statement stand the statements that follow. What follows a strategy
    is no rule. -/
theorem Block.Derived.afterRules {block : Block} (hderived : block.Derived)
    (hfits : fits → block.Fits limits) (hrule : block.head.isRule = false) (count : Nat)
    (hend : (first rest).kind = .sourceEnd) :
    AfterRules limits fits (lineEnds count ++ (block.terminals ++ rest)) := by
  obtain ⟨behind, hends, hterminals⟩ := block.exists_terminals_eq_head rest
  have hline := hends hend
  have hhead := hderived.head
  have hfirst := (hhead.first_kind behind).1
  have hheadFits : fits → block.head.Fits limits := fun h => (hfits h).head
  rw [hterminals]
  cases hblock : block.head with
  | strategy title rules =>
    exact .other rfl (by simp [Statement.terminals]) (by simp [Statement.terminals])
  | rule rule =>
    rw [hblock] at hrule
    cases hrule
  | expression phrase =>
    rw [hblock] at hhead hheadFits hfirst
    have hphrase := hhead.phrase
    cases hconditional : phrase.isConditional with
    | true =>
      exact .conditional rfl hphrase hconditional hline.ends hline.not_else
        fun h => (hheadFits h).conditional hconditional
    | false => exact .other rfl hfirst (first_kind_of_not_conditional hphrase hconditional behind)

/-- A statement at the front of what is ahead is read, and then the line ends behind it. -/
theorem leads_statements_succ {alarm : ParseFault} {statement : Statement} {fuel count : Nat}
    {arrived : List Node → State → Prop} (hderived : statement.Derived)
    (hfits : fits → statement.Fits limits)
    (hafter : statement.isStrategy = true → AfterRules limits fits (lineEnds count ++ rest))
    (hline : EndsLine (lineEnds count ++ rest)) (hrest : (first rest).kind ≠ .lineEnd)
    (hnesting : s.nesting = 0)
    (hterminals : s.terminals = statement.terminals ++ (lineEnds count ++ rest))
    (harrived : ∀ later, Behind s rest later → statement.Fits limits →
      Leads (TooDeep fits) (statements alarm limits fuel) later
        fun nodes last => arrived (statement.node :: nodes) last) :
    Leads (TooDeep fits) (statements alarm limits (fuel + 1)) s arrived := by
  have hfirst : (first s.terminals).kind ≠ .sourceEnd := by
    rw [hterminals]
    exact (hderived.first_kind _).2
  simp only [statements, leads_bind, leads_peekKind, leads_ite, if_neg hfirst]
  apply leads_statement hderived hfits hafter hline hnesting hterminals
  intro later hlater hstatementFits
  rw [hlater.terminals]
  cases count with
  | zero =>
    rcases hline with hend | hend
    · exact absurd hend hrest
    · simp only [hend, leads_bind, leads_pure]
      exact harrived later hlater hstatementFits
  | succ count =>
    have hkind : (first (lineEnds (count + 1) ++ rest)).kind = .lineEnd := rfl
    simp only [hkind, leads_bind, leads_skipLineEnds, leads_pure]
    exact harrived _ ⟨terminals_behindLineEnds_eq hlater.terminals hrest, hlater.nesting⟩
      hstatementFits

/-- The statements of a block are read one by one, up to the end of the source. -/
theorem leads_statements {alarm : ParseFault} {block : Block} {fuel : Nat}
    {arrived : List Node → State → Prop}
    (hderived : block.Derived) (hfits : fits → block.Fits limits)
    (hend : (first rest).kind = .sourceEnd) (hnesting : s.nesting = 0)
    (hterminals : s.terminals = block.terminals ++ rest) (hfuel : s.terminals.length < fuel)
    (harrived : ∀ later, Behind s rest later → block.Fits limits → arrived block.nodes later) :
    Leads (TooDeep fits) (statements alarm limits fuel) s arrived := by
  have hline : (first rest).kind ≠ .lineEnd := by simp [hend]
  induction block generalizing s fuel arrived with
  | last statement behind =>
    have hpositive := List.length_pos_iff.2 hderived.terminals_ne_nil
    rw [Block.terminals, List.append_assoc] at hterminals
    rw [hterminals, List.length_append] at hfuel
    obtain ⟨fuel, rfl⟩ : ∃ left, fuel = left + 1 := ⟨fuel - 1, by omega⟩
    refine leads_statements_succ hderived hfits (fun _ => ?_) (endsLine_lineEnds behind hend) hline
      hnesting hterminals ?_
    · exact .other rfl hline (by simp [hend])
    · intro later hlater hstatementFits
      obtain ⟨fuel, rfl⟩ : ∃ left, fuel = left + 1 := ⟨fuel - 1, by omega⟩
      apply leads_statements_of_end
      · rw [hlater.terminals]
        exact hend
      · exact harrived later hlater hstatementFits
  | more statement further block ih =>
    obtain ⟨hstatement, hrule, hblock⟩ := hderived
    have hpositive := List.length_pos_iff.2 hstatement.terminals_ne_nil
    rw [Block.terminals, List.append_assoc, List.append_assoc] at hterminals
    rw [hterminals, List.length_append, List.length_append] at hfuel
    obtain ⟨fuel, rfl⟩ : ∃ left, fuel = left + 1 := ⟨fuel - 1, by omega⟩
    refine leads_statements_succ hstatement (fun h => (hfits h).1) (fun hstrategy => ?_) (.inl rfl)
      (hblock.first_kind _).1 hnesting hterminals ?_
    · exact hblock.afterRules (fun h => (hfits h).2) (hrule hstrategy) _ hend
    · intro later hlater hstatementFits
      apply ih hblock (fun h => (hfits h).2) (hlater.nesting.trans hnesting) hlater.terminals
      · rw [hlater.terminals]
        omega
      · intro last hlast hblockFits
        exact harrived last (hlater.trans hlast) ⟨hstatementFits, hblockFits⟩

/-- A program is read, or refused for a depth that the bounds leave no room for. -/
theorem leads_program {outline : Outline} {arrived : Program → State → Prop}
    (hderived : outline.block.Derived) (hfits : fits → outline.block.Fits limits)
    (hend : (first rest).kind = .sourceEnd) (hnesting : s.nesting = 0)
    (hterminals : s.terminals = outline.terminals ++ rest)
    (harrived : ∀ later, Behind s rest later → outline.block.Fits limits →
      arrived outline.program later) :
    Leads (TooDeep fits) (program limits) s arrived := by
  have hbehind : s.behindLineEnds.terminals = outline.block.terminals ++ rest := by
    rw [Outline.terminals, List.append_assoc] at hterminals
    exact terminals_behindLineEnds_eq hterminals (hderived.first_kind _).1
  simp only [program, leads_bind, leads_skipLineEnds, leads_remaining]
  have hlevel : s.behindLineEnds.nesting = 0 := hnesting
  apply leads_statements hderived hfits hend hlevel hbehind (Nat.lt_succ_self _)
  intro later hlater hblockFits
  have hprogram := harrived later ⟨hlater.terminals, hlater.nesting⟩ hblockFits
  split
  · rename_i hempty
    cases hblock : outline.block <;> rw [hblock] at hempty <;> cases hempty
  · exact hprogram

end Candlewick.Grammar
