import Candlewick.Proofs.Grammar.Blame.Expression
import Candlewick.Proofs.Grammar.Soundness.Program

namespace Candlewick.Grammar

variable {tokens : List Token} {limits : Limits} {expression : Reader Node}

/-- A statement that is a rule is what is ahead. -/
theorem FoundStatement.not_noRuleNext {s later : State} {statement : Statement}
    (hfound : FoundStatement s later statement) (hrule : statement.isRule = true) :
    ¬ NoRuleNext s.terminals := by
  cases statement with
  | strategy | expression => exact absurd hrule Bool.false_ne_true
  | rule rule => exact fun hnone => hnone 0 rule _ hfound.derived.condition hfound.terminals

/-- A statement that has been found may be the first one of a block. -/
theorem FoundStatement.beginsBlock {s later : State} {statement : Statement}
    (hfound : FoundStatement s later statement) :
    BeginsBlock s.terminals statement.terminals :=
  ⟨.last statement 0, hfound.derived, hfound.not_noRuleNext, .within [] rfl⟩

/-- A strategy has taken all rules that follow it, so the statement behind it is none. -/
theorem BeginsBlock.more {s middle : State} {statement : Statement} {further : Nat}
    {part : List Terminal} (hpart : BeginsBlock middle.behindLineEnds.terminals part)
    (hfound : FoundStatement s middle statement)
    (hbetween : middle.terminals = lineEnds (further + 1) ++ middle.behindLineEnds.terminals) :
    BeginsBlock s.terminals (statement.terminals ++ (lineEnds (further + 1) ++ part)) := by
  obtain ⟨block, hderived, hrule, hreaches⟩ := hpart
  refine ⟨.more statement further block, ⟨hfound.derived, fun hstrategy => ?_, hderived⟩,
    hfound.not_noRuleNext, hreaches.more statement further⟩
  have hnone := hfound.noMore hstrategy
  rw [hbetween] at hnone
  exact Bool.eq_false_iff.2 fun hhead => hrule hhead (NoRuleNext.behindLineEnds hnone)

section

variable (hend : ∀ token ∈ tokens.getLast?, token.kind = .sourceEnd)
include hend

/-- A token that does not fit among rules may stand in a conditional that turns out to be none. -/
theorem rules_blames (hexpression : Precise tokens .expression expression) (fuel : Nat) {s : State}
    (hs : Inside tokens s) :
    Leads (Blames tokens s BeginsRules) (rules outOfRounds expression fuel) s fun _ _ => True := by
  induction fuel generalizing s with
  | zero => exact .here hs .nil _
  | succ fuel ih =>
    simp only [rules, leads_bind, leads_get, leads_skipLineEnds, leads_peekKind, leads_ite,
      leads_pure, leads_modify]
    obtain ⟨count, hterminals, -⟩ := s.terminals_behindLineEnds
    have hbehind := hs.behindLineEnds hend
    split
    · rename_i hif
      apply (conditionalHead_leads hend hexpression hbehind hif).mono
        fun e he => he.behind hterminals fun _ hhead => hhead.rules count
      rintro head later ⟨hlater, hhead⟩
      cases hhead with
      | @rule rule hcondition hrule =>
        rw [hrule, ← List.append_assoc] at hterminals
        have hrest : Leads (Blames tokens s BeginsRules) (rules outOfRounds expression fuel) later
            fun _ _ => True := by
          refine (ih hlater).blamedBehind hterminals fun part hpart => ?_
          rw [List.append_assoc]
          exact hpart.behind count hcondition
        rcases rule with ⟨condition, _ | _⟩
        all_goals
          simp only [Action.consequent, leads_bind, leads_pure]
          exact hrest
      | expression => trivial
    · trivial

theorem strategy_blames (hexpression : Precise tokens .expression expression) {s : State}
    (hs : Inside tokens s) (hstrategy : (first s.terminals).kind = .keyword .strategyWord) :
    Leads (Blames tokens s BeginsStatement) (strategy expression) s fun _ _ => True := by
  have hword : s.terminals = [.word .strategyWord] ++ s.skipped.terminals :=
    State.terminals_eq_word hstrategy (by simp)
  have hbehindWord := hs.skipped hend (by simp [hstrategy])
  simp only [strategy, leads_bind, leads_expectWord, leads_expectSign, leads_peekKind,
    if_pos hstrategy]
  split
  · rename_i hopen
    rw [State.terminals_eq_sign hopen, List.append_cons] at hword
    have hbehindBracket := hbehindWord.skipped hend (by rw [hopen]; simp)
    split
    · rename_i title htitle
      rw [State.terminals_eq_plain htitle (by simp) (by simp), List.append_cons] at hword
      have hbehindTitle := hbehindBracket.skipped hend (by rw [htitle]; simp)
      simp only [leads_bind, leads_skip, leads_expectSign, leads_remaining, leads_pure]
      split
      · rename_i hclose
        rw [State.terminals_eq_sign hclose, List.append_cons] at hword
        have hbehind := hbehindTitle.skipped hend (by rw [hclose]; simp)
        exact (rules_blames hend hexpression _ hbehind).blamedBehind hword
          fun _ hpart => hpart.strategy title
      · exact .later hword hbehindTitle
          (beginsStatement_of_header title [closingSign .rightParen] rfl) _
    · exact .later hword hbehindBracket
        (beginsStatement_of_header "x" [closingText, closingSign .rightParen] rfl) _
  · exact .later hword hbehindWord (beginsStatement_of_header "x"
      [closingSign .leftParen, closingText, closingSign .rightParen] rfl) _

theorem statementHere_blames (hexpression : Precise tokens .expression expression) {s : State}
    (hs : Inside tokens s) :
    Leads (Blames tokens s BeginsStatement) (statementHere expression) s fun _ _ => True := by
  simp only [statementHere, leads_bind, leads_peekKind]
  split
  · rename_i hstrategy
    exact strategy_blames hend hexpression hs hstrategy
  · rename_i hif
    simp only [leads_bind]
    apply (conditionalHead_leads hend hexpression hs hif).mono
      fun e he => he.imp fun _ hhead => hhead.begins.statement
    rintro head later ⟨hlater, hhead⟩
    cases hhead with
    | @rule rule => rcases rule with ⟨condition, _ | _⟩ <;> trivial
    | expression hcondition hconsequent =>
      exact (conditionalEnd_blames hend hexpression hlater hcondition hconsequent _).blamed
        fun _ hpart => hpart.statement
  · exact (hexpression.blames s hs).blamed fun _ hpart => hpart.statement

/-- A statement that is too deep is blamed on the token that it begins with. -/
theorem statement_blames (limits : Limits) {s : State} (hs : Inside tokens s) :
    Leads (Blames tokens s BeginsStatement) (statement limits) s fun _ _ => True := by
  simp only [statement, leads_bind, leads_peek, leads_ite, leads_throw, leads_pure]
  apply (statementHere_blames hend (expression_precise hend limits) hs).mono fun _ h => h
  intro node later _
  split
  · exact .here hs (Begins.nil .expression).statement _
  · trivial

/-- A statement is found, or blamed at such a token. -/
theorem statement_leads (limits : Limits) {s : State} (hs : Inside tokens s) :
    Leads (Blames tokens s BeginsStatement) (statement limits) s fun _ later =>
      Inside tokens later ∧ ∃ statement, FoundStatement s later statement := by
  apply (((statement_blames hend limits hs).and (statement_stays hend limits s hs)).and
    (statement_sound limits s)).mono fun _ h => h
  rintro node later ⟨⟨-, hlater⟩, statement, hfound, -⟩
  exact ⟨hlater, statement, hfound⟩

/-- A token that does not fit stands behind the beginning of a block. -/
theorem statements_blames (limits : Limits) (fuel : Nat) {s : State} (hs : Inside tokens s) :
    Leads (Blames tokens s (BeginsBlock s.terminals)) (statements outOfRounds limits fuel) s
      fun _ _ => True := by
  induction fuel generalizing s with
  | zero => exact .here hs ((Begins.nil .expression).statement.block _) _
  | succ fuel ih =>
    simp only [statements, leads_bind, leads_peekKind, leads_ite, leads_pure]
    split
    · trivial
    · apply (statement_leads hend limits hs).mono fun e he => he.imp fun _ hpart => hpart.block _
      rintro node later ⟨hlater, statement, hfound⟩
      split
      · rename_i hline
        obtain ⟨count, hterminals, hfirst⟩ := later.terminals_behindLineEnds
        obtain ⟨further, rfl⟩ : ∃ further, count = further + 1 := by
          cases count with
          | zero =>
            rw [hterminals] at hline
            exact absurd hline hfirst
          | succ further => exact ⟨further, rfl⟩
        have hfront : s.terminals = (statement.terminals ++ lineEnds (further + 1)) ++
            later.behindLineEnds.terminals := by
          rw [hfound.terminals, hterminals, List.append_assoc]
        simp only [leads_bind, leads_skipLineEnds, leads_pure]
        refine (ih (hlater.behindLineEnds hend)).blamedBehind hfront fun part hpart => ?_
        rw [List.append_assoc]
        exact hpart.more hfound hterminals
      · rename_i hfinished
        simp only [leads_bind, leads_pure]
        cases fuel with
        | zero => exact .later hfound.terminals hlater hfound.beginsBlock _
        | succ fuel => exact leads_statements_of_end hfinished trivial
      · exact .later hfound.terminals hlater hfound.beginsBlock _

/-- A token that does not fit stands behind the beginning of a program. -/
theorem program_blames (limits : Limits) {s : State} (hs : Inside tokens s) :
    Leads (Blames tokens s BeginsProgram) (program limits) s fun _ _ => True := by
  obtain ⟨count, hterminals, -⟩ := s.terminals_behindLineEnds
  have hbehind := hs.behindLineEnds hend
  simp only [program, leads_bind, leads_skipLineEnds, leads_remaining]
  apply ((statements_blames hend limits _ hbehind).and
    (statements_sound _ limits _ _)).mono
    fun e he => he.behind hterminals fun _ hpart => hpart.program count
  rintro nodes later ⟨-, ⟨rfl, rfl, -⟩ | ⟨block, -, rfl⟩⟩
  · have hnothing := ((Begins.nil .expression).statement.block []).program count
    rw [List.append_nil] at hnothing
    exact .later hterminals hbehind hnothing _
  · split
    · rename_i hempty
      cases block <;> cases hempty
    · trivial

end

/-- A list of tokens with the end of the source behind them is refused at a token that the beginning
    of a program stands in front of. -/
theorem exists_beginsProgram_of_parse_error {e : ParseError} (hne : tokens ≠ [])
    (hend : ∀ token ∈ tokens.getLast?, token.kind = .sourceEnd)
    (hparse : (parseTokensWithin limits tokens).result = .error e) :
    ∃ front token later, tokens = front ++ token :: later ∧ e.place = token.place ∧
      BeginsProgram (front.map Token.terminal) := by
  have hstart : Inside tokens { tokens := tokens } := ⟨List.suffix_rfl, hne⟩
  have hblames := program_blames hend limits hstart
  unfold Leads at hblames
  rw [parseTokensWithin, closed_eq_self hne hend] at hparse
  cases hrun : program limits { tokens := tokens } with
  | ok program later =>
    rw [hrun] at hparse
    cases hparse
  | error refused last =>
    rw [hrun] at hparse hblames
    cases hparse
    obtain ⟨terminals, later, hlater, hterminals, hplace, hbegins⟩ := hblames
    obtain ⟨front, hfront⟩ := hlater.isSuffix
    obtain ⟨token, rest, hcons⟩ := List.exists_cons_of_ne_nil hlater.ne_nil
    have hahead : later.ahead = token := by rw [State.ahead, hcons, List.headD_cons]
    have hmap : front.map Token.terminal = terminals := by
      rw [State.terminals, ← hfront, List.map_append] at hterminals
      exact List.append_cancel_right hterminals
    exact ⟨front, token, rest, by rw [← hfront, hcons], by rw [hplace, hahead], hmap ▸ hbegins⟩

end Candlewick.Grammar
