import Candlewick.Proofs.Grammar.Announcements
import Candlewick.Proofs.Grammar.Announcing
import Candlewick.Proofs.Grammar.Exactness

namespace Candlewick

namespace Grammar

variable {α : Type}

/-- A reader that announces what it adds comes to a state with some warnings added. -/
theorem Announces.leads {reader : Reader α} (hreader : Announces reader) (s : State) :
    Leads (fun _ => True) reader s fun _ later => ∃ added, s.Adds later added := by
  have hsame := hreader s s rfl rfl
  unfold Leads
  cases hrun : reader s with
  | ok value later =>
    rw [hrun] at hsame
    cases hsame with
    | ok htokens hadds hadds' => exact ⟨_, hadds⟩
  | error e later => trivial

variable {expression : Reader Node}

/-- The warnings about the conditional that comes next, up to the end of what follows its `then`. If
    it is a trading rule, or if there is none, there are none. -/
def headWarnings (expression : Reader Node) (s : State) : List Warning :=
  match conditionalHead expression { s with warnings := [], announced := [] } with
  | .ok (_, .expression _ _) later => later.warnings
  | _ => []

/-- The warnings about what comes next depend on the tokens and on the nesting. -/
theorem headWarnings_congr {s s' : State} (htokens : s'.tokens = s.tokens)
    (hnesting : s'.nesting = s.nesting) :
    headWarnings expression s' = headWarnings expression s := by
  rw [headWarnings, headWarnings, htokens, hnesting]

/-- Where no conditional comes next there are none of these warnings. -/
theorem headWarnings_of_not_if {s : State} (hif : (first s.terminals).kind ≠ .keyword .ifWord) :
    headWarnings expression s = [] := by
  have hrefused : Leads (fun _ => True) (conditionalHead expression)
      { s with warnings := [], announced := [] } fun _ _ => False := by
    rw [conditionalHead, leads_bind, leads_expectWord]
    exact (if_neg hif).mpr trivial
  unfold Leads at hrefused
  unfold headWarnings
  split
  · rename_i hrun
    rw [hrun] at hrefused
    exact hrefused.elim
  · rfl

/-- The head of a conditional adds its warnings, and if it is no rule these are the ones expected.
    -/
theorem conditionalHead_adds (hannounces : Announces expression) (s : State) :
    Leads (fun _ => True) (conditionalHead expression) s fun head later =>
      ∃ added, s.Adds later added ∧ headWarnings expression s =
        match head.2 with
        | .expression _ _ => added
        | _ => [] := by
  have hsame := conditionalHead_announces hannounces s { s with warnings := [], announced := [] }
    rfl rfl
  unfold Leads headWarnings
  generalize conditionalHead expression s = one at hsame
  generalize conditionalHead expression { s with warnings := [], announced := [] } = other at hsame
  cases hsame with
  | error => trivial
  | @ok head later later' added htokens hadds hadds' =>
    refine ⟨added, hadds, ?_⟩
    have hwarnings : later'.warnings = added := hadds'.warnings
    rcases head with ⟨condition, _ | _ | _⟩
    · rfl
    · rfl
    · exact hwarnings

/-- On the way to a later state some warnings have been added, and then others announced again or
    for the first time that have been taken back. -/
structure State.AddsBefore (s later : State) (added again : List Warning) : Prop where
  nesting : later.nesting = s.nesting
  warnings : later.warnings = s.warnings ++ added
  announced : later.announced = s.announced ++ (added ++ again)

theorem State.Adds.addsBefore {s later : State} {added : List Warning}
    (hadds : s.Adds later added) : s.AddsBefore later added [] :=
  ⟨hadds.nesting, hadds.warnings, by rw [List.append_nil, hadds.announced]⟩

/-- Warnings may be added before others are announced again. -/
theorem State.Adds.trans_addsBefore {s middle later : State} {added more again : List Warning}
    (hadds : s.Adds middle added) (hmore : middle.AddsBefore later more again) :
    s.AddsBefore later (added ++ more) again := by
  refine ⟨hmore.nesting.trans hadds.nesting, ?_, ?_⟩
  · rw [hmore.warnings, hadds.warnings, List.append_assoc]
  · simp only [hmore.announced, hadds.announced, List.append_assoc]

/-- The rules of a strategy add the warnings about them, and announce again or beforehand those
    about the conditional that comes next. -/
theorem rules_adds (alarm : ParseFault) (hsound : Sound .expression expression)
    (hannounces : Announces expression) (fuel : Nat) (s : State) :
    Leads (fun _ => True) (rules alarm expression fuel) s fun _ later =>
      ∃ added, s.AddsBefore later added (headWarnings expression later.behindLineEnds) := by
  induction fuel generalizing s with
  | zero => trivial
  | succ fuel ih =>
    simp only [rules, leads_bind, leads_get, leads_skipLineEnds, leads_peekKind, leads_ite,
      leads_pure, leads_modify]
    split
    · apply ((conditionalHead_sound hsound _).and (conditionalHead_adds hannounces _)).mono
        fun _ h => h
      rintro head later ⟨hhead, added, hadds, hahead⟩
      cases hhead with
      | @rule rule hcondition hrule =>
        have hrest : Leads (fun _ => True) (rules alarm expression fuel) later fun _ last =>
            ∃ added, s.AddsBefore last added (headWarnings expression last.behindLineEnds) := by
          apply (ih later).mono fun _ h => h
          rintro _ last ⟨more, hmore⟩
          have hsame : s.Adds later added := ⟨hadds.nesting, hadds.warnings, hadds.announced⟩
          exact ⟨added ++ more, hsame.trans_addsBefore hmore⟩
        rcases rule with ⟨condition, _ | _⟩
        all_goals
          simp only [Action.consequent, leads_bind, leads_pure]
          exact hrest
      | expression =>
        -- the warnings are those of the state before, but the announcements stay
        have hagain : headWarnings expression
            ({ later with tokens := s.tokens, warnings := s.warnings } : State).behindLineEnds =
              headWarnings expression s.behindLineEnds :=
          headWarnings_congr rfl hadds.nesting
        refine ⟨[], hadds.nesting, (List.append_nil _).symm, ?_⟩
        rw [hagain, hahead]
        exact hadds.announced
    · rename_i hif
      have hnone : headWarnings expression
          ({ s.behindLineEnds with tokens := s.tokens } : State).behindLineEnds = [] :=
        headWarnings_of_not_if hif
      refine ⟨[], rfl, (List.append_nil _).symm, ?_⟩
      rw [hnone]
      exact (List.append_nil _).symm

/-- The reading of a statement, as far as warnings go: those about the statement are added, and
    behind a strategy some of those about what comes next are announced. -/
structure AnnouncedStatement (expression : Reader Node) (s later : State) (statement : Statement)
    (added : List Warning) : Prop where
  addsBefore : s.AddsBefore later added
    (if statement.isStrategy then headWarnings expression later.behindLineEnds else [])
  head : headWarnings expression s = added.take statement.headWarned

/-- Behind a strategy the warnings about a conditional that comes next are announced before it is
    its turn. -/
theorem strategy_adds (hsound : Sound .expression expression) (hannounces : Announces expression)
    (s : State) :
    Leads (fun _ => True) (strategy expression) s fun _ later =>
      ∃ added, s.AddsBefore later added (headWarnings expression later.behindLineEnds) := by
  simp only [strategy, leads_bind]
  apply ((Announces.expectWord _).leads s).mono fun _ h => h
  rintro _ behindWord ⟨_, hword⟩
  apply ((Announces.expectSign _).leads behindWord).mono fun _ h => h
  rintro _ behindSign ⟨_, hopen⟩
  rw [leads_peekKind]
  split
  · simp only [leads_bind, leads_skip, leads_remaining, leads_pure]
    apply ((Announces.expectSign _).leads behindSign.skipped).mono fun _ h => h
    rintro _ behindTitle ⟨_, hclose⟩
    apply (rules_adds _ hsound hannounces _ _).mono fun _ h => h
    rintro _ later ⟨added, hadded⟩
    have htitle : behindSign.Adds behindSign.skipped [] := .moved behindSign _
    exact ⟨_, ((hword.trans hopen).trans (htitle.trans hclose)).trans_addsBefore hadded⟩
  · trivial

/-- Only a conditional begins with `if`, so that other expressions have no head. -/
theorem Found.headWarned_of_not_if {s later : State} {phrase : Phrase}
    (hfound : Found .expression s later phrase)
    (hif : (first s.terminals).kind ≠ .keyword .ifWord) : phrase.headWarned = 0 := by
  rw [hfound.terminals] at hif
  cases phrase with
  | ifThen | ifThenElse => exact absurd rfl hif
  | _ => rfl

/-- A statement that begins with the word for it is a strategy. -/
theorem FoundStatement.isStrategy_of_first {s later : State} {statement : Statement}
    (hfound : FoundStatement s later statement)
    (hfirst : (first s.terminals).kind = .keyword .strategyWord) : statement.isStrategy = true := by
  rw [hfound.terminals] at hfirst
  cases statement with
  | strategy => rfl
  | rule rule =>
    rw [Statement.terminals, Rule.terminals_append] at hfirst
    simp at hfirst
  | expression phrase =>
    exact absurd hfirst (hfound.derived.phrase.derives.first_kind_ne (by decide) _)

/-- Every statement announces what it adds and, if it is a strategy, what comes next. -/
theorem statementHere_announced (hsound : Sound .expression expression)
    (hannounces : Announces expression) (s : State) :
    Leads (fun _ => True) (statementHere expression) s fun node later =>
      ∃ statement added, FoundStatement s later statement ∧ statement.node = node ∧
        AnnouncedStatement expression s later statement added := by
  simp only [statementHere, leads_bind, leads_peekKind]
  split
  · rename_i hfirst
    apply ((strategy_sound hsound s).and (strategy_adds hsound hannounces s)).mono fun _ h => h
    rintro node later ⟨⟨statement, hfound, hnode⟩, added, hadds⟩
    have hstrategy := hfound.isStrategy_of_first hfirst
    refine ⟨statement, added, hfound, hnode, by rwa [if_pos hstrategy], ?_⟩
    rw [headWarnings_of_not_if (by simp [hfirst])]
    cases statement with
    | strategy => rfl
    | rule | expression => exact absurd hstrategy Bool.false_ne_true
  · simp only [leads_bind]
    apply ((conditionalHead_sound hsound s).and (conditionalHead_adds hannounces s)).mono
      fun _ h => h
    rintro head later ⟨hhead, added, hadds, hahead⟩
    cases hhead with
    | @rule rule hcondition hterminals hwarnings =>
      have hfound : FoundStatement s later (.rule rule) := .ofRule hcondition hterminals hwarnings
      have hannounced : AnnouncedStatement expression s later (.rule rule) added := by
        refine ⟨hadds.addsBefore, hahead.trans ?_⟩
        cases rule.action <;> rfl
      rcases rule with ⟨condition, _ | _⟩ <;> exact ⟨_, added, hfound, rfl, hannounced⟩
    | expression hcondition hconsequent hnested =>
      apply ((conditionalEnd_sound hsound hcondition hconsequent hnested).and
        ((conditionalEnd_announces hannounces _ _ _).leads later)).mono fun _ h => h
      rintro node last ⟨⟨phrase, hfound, hnode, hwarned⟩, more, hmore⟩
      refine ⟨.expression phrase, added ++ more, hfound.statement, hnode,
        (hadds.trans hmore).addsBefore, ?_⟩
      have hlength : added.length = phrase.headWarned := by
        have hwarnings := hconsequent.warnings
        rw [hcondition.warnings, hadds.warnings, List.length_append] at hwarnings
        omega
      rw [Statement.headWarned, ← hlength, List.take_left]
      exact hahead
  · rename_i hstrategy hif
    apply ((hsound s).and (hannounces.leads s)).mono fun _ h => h
    rintro node later ⟨⟨phrase, hfound, hnode⟩, added, hadds⟩
    refine ⟨.expression phrase, added, hfound.statement, hnode, hadds.addsBefore, ?_⟩
    rw [headWarnings_of_not_if hif, Statement.headWarned, hfound.headWarned_of_not_if hif,
      List.take_zero]

theorem statement_announced (limits : Limits) (s : State) :
    Leads (fun _ => True) (statement limits) s fun node later =>
      ∃ statement added, FoundStatement s later statement ∧ statement.node = node ∧
        AnnouncedStatement (Grammar.expression limits) s later statement added := by
  simp only [statement, leads_bind, leads_peek, leads_ite, leads_throw, leads_pure]
  apply (statementHere_announced (expression_sound limits) (expression_announces limits) s).mono
    fun _ h => h
  intro node later hfound
  split
  · trivial
  · exact hfound

/-- The reading of a block up to the end of the source, as far as warnings go. -/
structure AnnouncedBlock (expression : Reader Node) (s later : State) (block : Block)
    (added : List Warning) : Prop where
  warnings : later.warnings = s.warnings ++ added
  announced : later.announced = s.announced ++ block.announced added
  head : headWarnings expression s = added.take block.head.headWarned

namespace AnnouncedStatement

variable {s middle later : State} {statement : Statement} {added rest : List Warning}

/-- There are as many warnings about a statement as it has conditionals that call for one. -/
theorem length_added (hstatement : FoundStatement s middle statement)
    (hannounced : AnnouncedStatement expression s middle statement added) :
    added.length = statement.warned := by
  have hwarnings := hstatement.warnings
  rw [hannounced.addsBefore.warnings, List.length_append] at hwarnings
  omega

/-- Behind the last statement nothing is announced. -/
theorem last (hannounced : AnnouncedStatement expression s middle statement added)
    (hend : (first middle.behindLineEnds.terminals).kind = .sourceEnd) (behind : Nat) :
    AnnouncedBlock expression s middle.behindLineEnds (.last statement behind) added := by
  refine ⟨hannounced.addsBefore.warnings, ?_, hannounced.head⟩
  have hheads := hannounced.addsBefore.announced
  rw [headWarnings_of_not_if (by simp [hend]), ite_self, List.append_nil] at hheads
  exact hheads

/-- Behind any other one, those warnings are announced that its own reading of the next statement
    comes to. -/
theorem more {block : Block} (hstatement : FoundStatement s middle statement)
    (hannounced : AnnouncedStatement expression s middle statement added)
    (hblock : AnnouncedBlock expression middle.behindLineEnds later block rest) (further : Nat) :
    AnnouncedBlock expression s later (.more statement further block) (added ++ rest) := by
  have hlength := hannounced.length_added hstatement
  have hahead :
      (if statement.isStrategy then headWarnings expression middle.behindLineEnds else []) =
        rest.take (statement.readAhead block.head) := by
    rw [hblock.head, Statement.readAhead]
    split
    · rfl
    · rfl
  refine ⟨?_, ?_, ?_⟩
  · rw [hblock.warnings, State.warnings_behindLineEnds, hannounced.addsBefore.warnings,
      List.append_assoc]
  · have hbefore : middle.behindLineEnds.announced = middle.announced := rfl
    rw [hblock.announced, hbefore, hannounced.addsBefore.announced, hahead, Block.announced,
      ← hlength, List.take_left, List.drop_left]
    simp only [List.append_assoc]
  · have hwithin : statement.headWarned ≤ added.length := by
      rw [hlength]
      exact statement.headWarned_le_warned
    rw [hannounced.head, Block.head, List.take_append_of_le_length hwithin]

end AnnouncedStatement

/-- A program announces what it adds, and once more what has been read ahead behind each
    strategy. -/
theorem program_announced (limits : Limits) (s : State) :
    Leads (fun _ => True) (program limits) s fun program later =>
      ∃ outline, FoundOutline s later outline ∧ outline.program = program ∧
        ∃ added, AnnouncedBlock (Grammar.expression limits) s.behindLineEnds later outline.block
          added := by
  refine program_blockwise
    (fun s later block => ∃ added, AnnouncedBlock (Grammar.expression limits) s later block added)
    (fun fuel s => ?_) s
  refine statements_blockwise outOfRounds
    (fun s later statement => ∃ added,
      AnnouncedStatement (Grammar.expression limits) s later statement added)
    (fun s later block => ∃ added, AnnouncedBlock (Grammar.expression limits) s later block added)
    ?_ ?_ ?_ fuel s
  · intro s
    apply (statement_announced limits s).mono fun _ h => h
    rintro node later ⟨statement, added, hfound, hnode, hannounced⟩
    exact ⟨statement, hfound, hnode, added, hannounced⟩
  · rintro s later statement behind - ⟨added, hannounced⟩ hend
    exact ⟨added, hannounced.last hend behind⟩
  · rintro s middle later statement further block hfound ⟨added, hannounced⟩ ⟨rest, hblock⟩
    exact ⟨added ++ rest, hannounced.more hfound hblock further⟩

/-- The announcements of a parse are those of the derivation. -/
theorem exists_announced_outline_of_parse {limits : Limits} {tokens : List Token} {parsed : Parsed}
    (hlast : OnlyLastEnds tokens)
    (hparse : (parseTokensWithin limits tokens).result = .ok parsed) :
    ∃ outline : Outline, outline.Derives tokens ∧ outline.program = parsed.program ∧
      parsed.warnings.length = outline.block.warned ∧
      (parseTokensWithin limits tokens).announced = outline.block.announced parsed.warnings := by
  have hreading := program_announced limits { tokens := closed tokens }
  unfold Leads at hreading
  unfold parseTokensWithin at hparse ⊢
  cases hrun : Grammar.program limits { tokens := closed tokens } with
  | ok program later =>
    rw [hrun] at hreading hparse
    cases hparse
    obtain ⟨outline, hfound, hprogram, added, hannounced⟩ := hreading
    obtain rfl : later.warnings = added := hannounced.warnings
    refine ⟨outline, hfound.derives hlast, hprogram, ?_, hannounced.announced⟩
    rw [hfound.warnings, List.length_nil, Nat.zero_add]
  | error e later =>
    rw [hrun] at hparse
    cases hparse

end Grammar

open Grammar

/-- A strategy without rules, and behind it a conditional that holds another one with a warning. -/
theorem parse_nested_behind_strategy :
    parse "strategy('s')\nif a then if b then if c then d else e" =
      let inner : Node := .ifThenElse (.name "c") (.name "d") (.name "e")
      ⟨.ok ⟨.sequence [.strategy "s" [], .ifThen (.name "a") (.ifThen (.name "b") inner)],
        [⟨52, 2, 39⟩]⟩, [⟨52, 2, 39⟩, ⟨52, 2, 39⟩]⟩ := by
  cbv

/-- What is announced while a source is read that is a program. Each of its warnings is announced,
    in order, and nothing else is. But between the warnings about a strategy and those about the
    statement behind it, the ones about this statement come once more up to the end of what follows
    its `then`, for the rules of the strategy have been looked for there. So each warning is
    announced once just where no strategy meets a warning about the statement behind it. -/
theorem announced_of_parse {source : String} {parsed : Parsed}
    (hparse : (parse source).result = .ok parsed) :
    ∃ (tokens : List Token) (outline : Outline), tokenize source = .ok tokens ∧
      outline.Derives tokens ∧ outline.program = parsed.program ∧
      (parse source).announced = outline.block.announced parsed.warnings ∧
      parsed.warnings.Sublist (parse source).announced ∧
      (∀ warning ∈ (parse source).announced, warning ∈ parsed.warnings) ∧
      ((parse source).announced = parsed.warnings ↔ outline.block.reread = 0) := by
  cases htokens : tokenize source with
  | error e =>
    rw [parse, htokens] at hparse
    cases hparse
  | ok tokens =>
    have hreading : parse source = parseTokensWithin .standard tokens := by
      rw [parse, htokens]
      rfl
    rw [hreading] at hparse ⊢
    obtain ⟨outline, hderives, hprogram, hlength, hannounced⟩ :=
      exists_announced_outline_of_parse (onlyLastEnds_of_tokenize htokens) hparse
    refine ⟨tokens, outline, rfl, hderives, hprogram, hannounced, ?_⟩
    rw [hannounced]
    exact ⟨outline.block.sublist_announced _, fun _ => Block.mem_of_mem_announced,
      Block.announced_eq_self_iff hlength⟩

/-- The strategy meets the warning about the conditional behind it. -/
theorem announced_of_parse_nested_behind_strategy :
    ∃ parsed, (parse "strategy('s')\nif a then if b then if c then d else e").result = .ok parsed ∧
      ∃ (tokens : List Token) (outline : Outline),
        tokenize "strategy('s')\nif a then if b then if c then d else e" = .ok tokens ∧
        outline.Derives tokens ∧ outline.block.announced parsed.warnings =
          [⟨52, 2, 39⟩, ⟨52, 2, 39⟩] ∧ outline.block.reread ≠ 0 := by
  have hparse := congrArg Parse.result parse_nested_behind_strategy
  have hannounced := congrArg Parse.announced parse_nested_behind_strategy
  obtain ⟨tokens, outline, htokens, hderives, -, hblock, -, -, hreread⟩ := announced_of_parse hparse
  refine ⟨_, hparse, tokens, outline, htokens, hderives, hblock.symm.trans hannounced, ?_⟩
  rw [Ne, ← hreread, hannounced]
  decide

/-- So it is not true that warnings are announced as often as there are any. -/
theorem warning_announced_twice :
    ∃ parsed warning,
      (parse "strategy('s')\nif a then if b then if c then d else e").result = .ok parsed ∧
      parsed.warnings = [warning] ∧
      (parse "strategy('s')\nif a then if b then if c then d else e").announced =
        [warning, warning] := by
  rw [parse_nested_behind_strategy]
  exact ⟨_, _, rfl, rfl, rfl⟩

end Candlewick
