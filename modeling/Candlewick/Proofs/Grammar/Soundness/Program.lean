import Candlewick.Proofs.Grammar.Soundness.Expression
import Candlewick.Proofs.Grammar.Unambiguity.Program

namespace Candlewick.Grammar

/-- Rules stand at the front of what is ahead in a state and have been read in a later one, as many
    as there are. What the reader has seen beyond them is not warned about. -/
structure FoundRules (s later : State) (rules : List (Nat × Rule)) : Prop where
  conditions : ∀ entry ∈ rules, entry.2.condition.IsExpression
  terminals : s.terminals = Rule.listed rules ++ later.terminals
  noMore : NoRuleNext later.terminals
  warnings : later.warnings.length =
    s.warnings.length + Phrase.warnedOf (rules.map fun entry => entry.2.condition)

/-- What is read as rules are rules, and no further one comes behind them. What has been read beyond
    them is taken back. -/
theorem rules_sound (alarm : ParseFault) {expression : Reader Node}
    (hexpression : Sound .expression expression) (fuel : Nat) (s : State) :
    Leads (fun _ => True) (rules alarm expression fuel) s fun nodes later =>
      ∃ found, FoundRules s later found ∧ found.map (fun entry => entry.2.node) = nodes := by
  induction fuel generalizing s with
  | zero => trivial
  | succ fuel ih =>
    simp only [rules, leads_bind, leads_get, leads_skipLineEnds, leads_peekKind, leads_ite,
      leads_pure, leads_modify]
    obtain ⟨count, hterminals, hfirst⟩ := s.terminals_behindLineEnds
    by_cases hif : (first s.behindLineEnds.terminals).kind = .keyword .ifWord
    · rw [if_pos hif]
      apply (conditionalHead_sound hexpression _).mono fun _ h => h
      intro head later hhead
      cases hhead with
      | @rule rule hcondition hrule hwarnings =>
        rw [hrule] at hterminals
        have hrest : Leads (fun _ => True) (rules alarm expression fuel) later fun nodes last =>
            ∃ found, FoundRules s last found ∧
              found.map (fun entry => entry.2.node) = rule.node :: nodes := by
          apply (ih later).mono fun _ h => h
          rintro nodes last ⟨found, hfound, rfl⟩
          refine ⟨(count, rule) :: found, ⟨?_, ?_, hfound.noMore, ?_⟩, rfl⟩
          · exact List.forall_mem_cons.2 ⟨hcondition, hfound.conditions⟩
          · rw [hterminals, hfound.terminals, Rule.listed_cons]
          · rw [hfound.warnings, hwarnings, State.warnings_behindLineEnds, List.map_cons,
              Phrase.warnedOf_cons, Nat.add_assoc]
        rcases rule with ⟨condition, _ | _⟩
        all_goals
          simp only [Action.consequent, leads_bind, leads_pure]
          exact hrest
      | expression hcondition hconsequent =>
        refine ⟨[], ⟨by simp, rfl, ?_, rfl⟩, rfl⟩
        change NoRuleNext s.terminals
        rw [hterminals, hcondition.terminals, hconsequent.terminals]
        exact noRuleNext_of_conditional count hcondition.condition hconsequent.derives
    · rw [if_neg hif]
      refine ⟨[], ⟨by simp, rfl, ?_, rfl⟩, rfl⟩
      change NoRuleNext s.terminals
      rw [hterminals]
      exact noRuleNext_of_first_ne count hfirst hif

/-- A statement stands at the front of what is ahead in a state and has been read in a later one.
    Behind a strategy no rule comes next. -/
structure FoundStatement (s later : State) (statement : Statement) : Prop where
  derived : statement.Derived
  terminals : s.terminals = statement.terminals ++ later.terminals
  noMore : statement.isStrategy = true → NoRuleNext later.terminals
  warnings : later.warnings.length = s.warnings.length + statement.warned

/-- An expression that has been found is a statement. -/
theorem Found.statement {s later : State} {phrase : Phrase}
    (hfound : Found .expression s later phrase) : FoundStatement s later (.expression phrase) := by
  refine ⟨?_, hfound.terminals, fun hstrategy => absurd hstrategy Bool.false_ne_true, ?_⟩
  · intro part hmem
    rw [List.mem_singleton.1 hmem]
    exact ⟨hfound.derives, hfound.elseNearest⟩
  · rw [hfound.warnings, Statement.warned_expression]

/-- So is a rule. -/
theorem FoundStatement.ofRule {s later : State} {rule : Rule}
    (hcondition : rule.condition.IsExpression)
    (hterminals : s.terminals = rule.terminals ++ later.terminals)
    (hwarnings : later.warnings.length = s.warnings.length + rule.condition.warned) :
    FoundStatement s later (.rule rule) := by
  refine ⟨?_, hterminals, fun hstrategy => absurd hstrategy Bool.false_ne_true, ?_⟩
  · intro part hmem
    rw [List.mem_singleton.1 hmem]
    exact hcondition
  · rw [hwarnings, Statement.warned_rule]

theorem strategy_sound {expression : Reader Node} (hexpression : Sound .expression expression)
    (s : State) :
    Leads (fun _ => True) (strategy expression) s fun node later =>
      ∃ statement, FoundStatement s later statement ∧ statement.node = node := by
  simp only [strategy, leads_bind, leads_expectWord, leads_expectSign, leads_peekKind]
  by_cases hstrategy : (first s.terminals).kind = .keyword .strategyWord
  · rw [if_pos hstrategy]
    have hstrategy := State.terminals_eq_word hstrategy (by simp)
    by_cases hopen : (first s.skipped.terminals).kind = .punctuation .leftParen
    · rw [if_pos hopen]
      have hopen := State.terminals_eq_sign hopen
      split
      · rename_i title htitle
        have htitle := State.terminals_eq_plain htitle (by simp) (by simp)
        simp only [leads_bind, leads_skip, leads_expectSign, leads_remaining, leads_pure]
        split
        · rename_i hclose
          have hclose := State.terminals_eq_sign hclose
          apply (rules_sound _ hexpression _ _).mono fun _ h => h
          rintro nodes later ⟨found, hfound, rfl⟩
          refine ⟨.strategy title found, ⟨?_, ?_, fun _ => hfound.noMore, hfound.warnings⟩, rfl⟩
          · intro phrase hmem
            obtain ⟨entry, hentry, rfl⟩ := List.mem_map.1 hmem
            exact hfound.conditions entry hentry
          · rw [hstrategy, hopen, htitle, hclose, hfound.terminals]
            rfl
        · trivial
      · trivial
    · rw [if_neg hopen]
      trivial
  · rw [if_neg hstrategy]
    trivial

/-- What is read as a statement is one, up to the end of its line. -/
theorem statementHere_sound {expression : Reader Node} (hexpression : Sound .expression expression)
    (s : State) :
    Leads (fun _ => True) (statementHere expression) s fun node later =>
      ∃ statement, FoundStatement s later statement ∧ statement.node = node := by
  simp only [statementHere, leads_bind, leads_peekKind]
  split
  · exact strategy_sound hexpression s
  · simp only [leads_bind]
    apply (conditionalHead_sound hexpression s).mono fun _ h => h
    intro head later hhead
    cases hhead with
    | @rule rule hcondition hterminals hwarnings =>
      have hfound : FoundStatement s later (.rule rule) := .ofRule hcondition hterminals hwarnings
      rcases rule with ⟨condition, _ | _⟩ <;> exact ⟨_, hfound, rfl⟩
    | expression hcondition hconsequent hnested =>
      apply (conditionalEnd_sound hexpression hcondition hconsequent hnested).mono fun _ h => h
      rintro node last ⟨phrase, hfound, rfl, -⟩
      exact ⟨_, hfound.statement, rfl⟩
  · apply (hexpression s).mono fun _ h => h
    rintro node later ⟨phrase, hfound, rfl⟩
    exact ⟨_, hfound.statement, rfl⟩

theorem statement_sound (limits : Limits) (s : State) :
    Leads (fun _ => True) (statement limits) s fun node later =>
      ∃ statement, FoundStatement s later statement ∧ statement.node = node := by
  simp only [statement, leads_bind, leads_peek, leads_ite, leads_throw, leads_pure]
  apply (statementHere_sound (expression_sound limits) s).mono fun _ h => h
  intro node later hfound
  split
  · trivial
  · exact hfound

/-- A block stands at the front of what is ahead in a state; in a later one the source has ended. -/
structure FoundBlock (s later : State) (block : Block) : Prop where
  derived : block.Derived
  terminals : s.terminals = block.terminals ++ later.terminals
  finished : (first later.terminals).kind = .sourceEnd
  warnings : later.warnings.length = s.warnings.length + block.warned

/-- A statement in front of a block that has been found. -/
theorem FoundBlock.more {s middle later : State} {statement : Statement} {further : Nat}
    {block : Block} (hstatement : FoundStatement s middle statement)
    (hbetween : middle.terminals =
      lineEnds (further + 1) ++ middle.behindLineEnds.terminals)
    (hblock : FoundBlock middle.behindLineEnds later block) :
    FoundBlock s later (.more statement further block) := by
  rw [hblock.terminals] at hbetween
  refine ⟨⟨hstatement.derived, fun hstrategy => ?_, hblock.derived⟩, ?_, hblock.finished, ?_⟩
  · cases hhead : block.head with
    | strategy | expression => rfl
    | rule rule =>
      have hderived := hblock.derived.head
      obtain ⟨rest, -, hrest⟩ := block.exists_terminals_eq_head later.terminals
      rw [hhead] at hderived hrest
      rw [hrest] at hbetween
      exact absurd hbetween (hstatement.noMore hstrategy _ rule _ hderived.condition)
  · rw [hstatement.terminals, hbetween]
    simp [Block.terminals]
  · rw [hblock.warnings, State.warnings_behindLineEnds, hstatement.warnings, Block.warned_more,
      Nat.add_assoc]

/-- What holds of the readings of statements holds of those of blocks if it is kept from the back to
    the front: `read` of a statement, and `readBlock` of a block up to the end of the source. -/
theorem statements_blockwise (alarm : ParseFault) {limits : Limits}
    (read : State → State → Statement → Prop) (readBlock : State → State → Block → Prop)
    (hread : ∀ s, Leads (fun _ => True) (statement limits) s fun node later =>
      ∃ statement, FoundStatement s later statement ∧ statement.node = node ∧
        read s later statement)
    (hlast : ∀ s later statement behind, FoundStatement s later statement →
      read s later statement → (first later.behindLineEnds.terminals).kind = .sourceEnd →
      readBlock s later.behindLineEnds (.last statement behind))
    (hmore : ∀ s middle later statement further block, FoundStatement s middle statement →
      read s middle statement → readBlock middle.behindLineEnds later block →
      readBlock s later (.more statement further block))
    (fuel : Nat) (s : State) :
    Leads (fun _ => True) (statements alarm limits fuel) s fun nodes later =>
      (nodes = [] ∧ later = s ∧ (first s.terminals).kind = .sourceEnd) ∨
        ∃ block, FoundBlock s later block ∧ block.nodes = nodes ∧ readBlock s later block := by
  induction fuel generalizing s with
  | zero => trivial
  | succ fuel ih =>
    simp only [statements, leads_bind, leads_peekKind, leads_ite]
    split
    · rename_i hend
      exact .inl ⟨rfl, rfl, hend⟩
    · apply (hread s).mono fun _ h => h
      rintro node later ⟨statement, hfound, rfl, hstatement⟩
      split
      · rename_i hline
        simp only [leads_bind, leads_skipLineEnds, leads_pure]
        obtain ⟨count, hterminals, hfirst⟩ := later.terminals_behindLineEnds
        apply (ih later.behindLineEnds).mono fun _ h => h
        rintro nodes last (⟨rfl, rfl, hend⟩ | ⟨block, hblock, rfl, hrest⟩)
        · refine .inr ⟨.last statement count, ⟨hfound.derived, ?_, hend, ?_⟩, rfl,
            hlast _ _ _ _ hfound hstatement hend⟩
          · rw [hfound.terminals, hterminals, Block.terminals, List.append_assoc]
          · rw [State.warnings_behindLineEnds, hfound.warnings, Block.warned_last]
        · obtain ⟨further, rfl⟩ : ∃ further, count = further + 1 := by
            cases count with
            | zero =>
              rw [hterminals] at hline
              exact absurd hline hfirst
            | succ further => exact ⟨further, rfl⟩
          exact .inr ⟨_, .more hfound hterminals hblock, rfl,
            hmore _ _ _ _ _ _ hfound hstatement hrest⟩
      · rename_i hend
        simp only [leads_bind, leads_pure]
        cases fuel with
        | zero => trivial
        | succ fuel =>
          apply leads_statements_of_end hend
          have hsame : later.behindLineEnds = later := later.behindLineEnds_of_ne (by simp [hend])
          have hblock := hlast _ _ _ 0 hfound hstatement (by rwa [hsame])
          rw [hsame] at hblock
          refine .inr ⟨.last statement 0, ⟨hfound.derived, ?_, hend, ?_⟩, rfl, hblock⟩
          · rw [hfound.terminals]
            simp [Block.terminals, lineEnds]
          · rw [hfound.warnings, Block.warned_last]
      · trivial

/-- What is read as statements, up to the end of the source, is a block, or nothing where the source
    has ended. -/
theorem statements_sound (alarm : ParseFault) (limits : Limits) (fuel : Nat) (s : State) :
    Leads (fun _ => True) (statements alarm limits fuel) s fun nodes later =>
      (nodes = [] ∧ later = s ∧ (first s.terminals).kind = .sourceEnd) ∨
        ∃ block, FoundBlock s later block ∧ block.nodes = nodes := by
  have hread : ∀ s, Leads (fun _ => True) (statement limits) s fun node later =>
      ∃ statement, FoundStatement s later statement ∧ statement.node = node ∧ True := by
    simpa using statement_sound limits
  simpa using statements_blockwise alarm (fun _ _ _ => True) (fun _ _ _ => True) hread (by simp)
    (by simp) fuel s

/-- An outline stands at the front of what is ahead in a state; in a later one the source has
    ended. -/
structure FoundOutline (s later : State) (outline : Outline) : Prop where
  derived : outline.block.Derived
  terminals : s.terminals = outline.terminals ++ later.terminals
  finished : (first later.terminals).kind = .sourceEnd
  warnings : later.warnings.length = s.warnings.length + outline.block.warned

/-- What holds of the readings of blocks holds of the block that is a program. -/
theorem program_blockwise {limits : Limits} (readBlock : State → State → Block → Prop)
    (hblocks : ∀ (fuel : Nat) (s : State),
      Leads (fun _ => True) (statements outOfRounds limits fuel) s fun nodes later =>
        (nodes = [] ∧ later = s ∧ (first s.terminals).kind = .sourceEnd) ∨
          ∃ block, FoundBlock s later block ∧ block.nodes = nodes ∧ readBlock s later block)
    (s : State) :
    Leads (fun _ => True) (program limits) s fun program later =>
      ∃ outline, FoundOutline s later outline ∧ outline.program = program ∧
        readBlock s.behindLineEnds later outline.block := by
  obtain ⟨count, hterminals, -⟩ := s.terminals_behindLineEnds
  simp only [program, leads_bind, leads_skipLineEnds, leads_remaining]
  apply (hblocks _ _).mono fun _ h => h
  rintro nodes later (⟨rfl, -, -⟩ | ⟨block, hblock, rfl, hread⟩)
  · trivial
  · have hfound : FoundOutline s later ⟨count, block⟩ := by
      refine ⟨hblock.derived, ?_, hblock.finished, hblock.warnings⟩
      rw [hterminals, hblock.terminals, Outline.terminals, List.append_assoc]
    split
    · rename_i hempty
      cases block <;> cases hempty
    · exact ⟨_, hfound, rfl, hread⟩

/-- What is read as a program is one. -/
theorem program_sound (limits : Limits) (s : State) :
    Leads (fun _ => True) (program limits) s fun program later =>
      ∃ outline, FoundOutline s later outline ∧ outline.program = program := by
  have hblocks : ∀ (fuel : Nat) (s : State),
      Leads (fun _ => True) (statements outOfRounds limits fuel) s fun nodes later =>
        (nodes = [] ∧ later = s ∧ (first s.terminals).kind = .sourceEnd) ∨
          ∃ block, FoundBlock s later block ∧ block.nodes = nodes ∧ True := by
    simpa using statements_sound outOfRounds limits
  simpa using program_blockwise (fun _ _ _ => True) hblocks s

end Candlewick.Grammar
