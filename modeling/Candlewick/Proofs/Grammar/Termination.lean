import Candlewick.Proofs.Grammar.Completeness.Continuing
import Candlewick.Proofs.Grammar.Progress

namespace Candlewick.Grammar

variable {α : Type} {limits : Limits} {s : State}

/-- Two loops that do the same in a round, and whose rounds take tokens, do the same with any numbers
    of rounds that are not less than the number of tokens ahead. What either would do without a round
    left is of no account. `ι` is what the loops carry along. -/
theorem loop_congr {ι : Type} {loop loop' : Nat → ι → Reader α}
    (hround : ∀ fuel fuel' carried s, s.Terminated →
      (∀ next later, s.Passes later → loop fuel next later = loop' fuel' next later) →
      loop (fuel + 1) carried s = loop' (fuel' + 1) carried s)
    {fuel fuel' : Nat} (carried : ι) (hs : s.Terminated) (hfuel : s.tokens.length ≤ fuel)
    (hfuel' : s.tokens.length ≤ fuel') : loop fuel carried s = loop' fuel' carried s := by
  have hpositive := hs.length_pos
  induction fuel generalizing fuel' carried s with
  | zero => omega
  | succ fuel ih =>
    -- A token is ahead, so both sides have a round left, and it uses the token up.
    obtain ⟨fewer, rfl⟩ : ∃ fewer, fuel' = fewer + 1 := ⟨fuel' - 1, by omega⟩
    refine hround fuel fewer carried s hs fun next later hpasses => ?_
    have hshorter := hpasses.length_lt
    have hlater := hpasses.terminated hs
    exact ih next hlater (by omega) (by omega) hlater.length_pos

variable {alarm alarm' : ParseFault} {fuel fuel' : Nat} {left : Nat}

theorem argumentsFrom_congr (hs : s.Terminated) (hfuel : s.tokens.length ≤ fuel)
    (hfuel' : s.tokens.length ≤ fuel') :
    argumentsFrom alarm (levels limits left).expression fuel s =
      argumentsFrom alarm' (levels limits left).expression fuel' s := by
  refine @loop_congr _ _ Unit
    (fun fuel _ => argumentsFrom alarm (levels limits left).expression fuel)
    (fun fuel _ => argumentsFrom alarm' (levels limits left).expression fuel)
    ?_ _ _ () hs hfuel hfuel'
  intro fuel fuel' _ s hs hloop
  have hexpression : Advances (levels limits left).expression :=
    (Procedure.expression left).advances
  refine bind_congr_of_leads (hexpression s hs) fun argument middle hmiddle => ?_
  have hterminated := hmiddle.terminated hs
  have haccept : Stays middle.tokens (accept (.punctuation .comma)) :=
    .accept hterminated.last (by simp)
  refine bind_congr_of_leads (haccept middle hterminated.inside) fun comma later hlater => ?_
  cases comma with
  | false => rfl
  | true => exact bind_congr_left _ (hloop () later (hmiddle.inside_later hlater))

theorem chainFrom_congr (category : Category) (known : Option Nat) (node : Node)
    (hs : s.Terminated) (hfuel : s.tokens.length ≤ fuel) (hfuel' : s.tokens.length ≤ fuel') :
    chainFrom alarm limits category.operators
        (category.tighter.reader limits (levels limits left)) fuel known node s =
      chainFrom alarm' limits category.operators
        (category.tighter.reader limits (levels limits left)) fuel' known node s := by
  refine @loop_congr _ _ (Option Nat × Node)
    (fun fuel carried => chainFrom alarm limits category.operators
      (category.tighter.reader limits (levels limits left)) fuel carried.1 carried.2)
    (fun fuel carried => chainFrom alarm' limits category.operators
      (category.tighter.reader limits (levels limits left)) fuel carried.1 carried.2)
    ?_ _ _ (known, node) hs hfuel hfuel'
  rintro fuel fuel' ⟨known, node⟩ s hs hloop
  have hkind : peekKind s = .ok s.ahead.kind s := rfl
  have hskip : skip s = .ok () s.skipped := rfl
  simp only [chainFrom]
  refine bind_congr_of_ok hkind ?_
  cases htable : category.operators s.ahead.kind with
  | none => rfl
  | some operator =>
    have hpasses := hs.passes_skipped (Category.ne_sourceEnd_of_operators htable)
    have hskipped := hpasses.terminated hs
    have hoperand : Advances (category.tighter.reader limits (levels limits left)) :=
      (Procedure.category category.tighter left).advances
    refine bind_congr_of_ok hskip ?_
    refine bind_congr_of_leads (hoperand s.skipped hskipped) fun right middle hmiddle => ?_
    have hjoined := Stays.joinedDepth limits known node right middle
      (hmiddle.terminated hskipped).inside
    refine bind_congr_of_leads hjoined fun depth later hlater => ?_
    exact hloop (some depth, _) later (hpasses.inside_later (hmiddle.inside_later hlater).inside)

theorem postfixFrom_congr (known : Option Nat) (node : Node) (hs : s.Terminated)
    (hfuel : s.tokens.length ≤ fuel) (hfuel' : s.tokens.length ≤ fuel') :
    postfixFrom alarm limits (levels limits left) fuel known node s =
      postfixFrom alarm' limits (levels limits left) fuel' known node s := by
  refine @loop_congr _ _ (Option Nat × Node)
    (fun fuel carried => postfixFrom alarm limits (levels limits left) fuel carried.1 carried.2)
    (fun fuel carried => postfixFrom alarm' limits (levels limits left) fuel carried.1 carried.2)
    ?_ _ _ (known, node) hs hfuel hfuel'
  rintro fuel fuel' ⟨known, node⟩ s hs hloop
  simp only [postfixFrom]
  by_cases hbracket : s.ahead.kind = .punctuation .leftBracket
  · have hpasses := hs.passes_skipped (by rw [hbracket]; simp)
    have hskipped := hpasses.terminated hs
    have hoffset : Advances (levels limits left).expression :=
      (Procedure.expression left).advances
    refine bind_congr_of_ok (accept_of_eq hbracket) ?_
    refine bind_congr_of_leads (hoffset s.skipped hskipped) fun offset middle hmiddle => ?_
    have hterminated := hmiddle.terminated hskipped
    have hclose := Stays.expectSign hterminated.last .rightBracket middle hterminated.inside
    refine bind_congr_of_leads hclose fun _ closed hclosed => ?_
    have hjoined := Stays.joinedDepth limits known node offset closed
      (hterminated.of_inside hclosed).inside
    refine bind_congr_of_leads hjoined fun depth later hlater => ?_
    have hbehind := (hmiddle.inside_later hclosed).inside_later hlater
    exact hloop (some depth, _) later (hpasses.inside_later hbehind.inside)
  · exact bind_congr_of_ok (accept_of_ne hbracket) rfl

theorem statements_congr (hs : s.Terminated) (hfuel : s.tokens.length ≤ fuel)
    (hfuel' : s.tokens.length ≤ fuel') :
    statements alarm limits fuel s = statements alarm' limits fuel' s := by
  refine @loop_congr _ _ Unit (fun fuel _ => statements alarm limits fuel)
    (fun fuel _ => statements alarm' limits fuel) ?_ _ _ () hs hfuel hfuel'
  intro fuel fuel' _ s hs hloop
  have hkind : peekKind s = .ok s.ahead.kind s := rfl
  simp only [statements]
  refine bind_congr_of_ok hkind ?_
  split
  · rfl
  · refine bind_congr_of_leads (Procedure.statement.advances s hs) fun node middle hmiddle => ?_
    have hterminated := hmiddle.terminated hs
    have hnext : peekKind middle = .ok middle.ahead.kind middle := rfl
    refine bind_congr_of_ok hnext ?_
    cases middle.ahead.kind with
    | lineEnd =>
      have hlines := Stays.skipLineEnds hterminated.last middle hterminated.inside
      refine bind_congr_of_leads hlines fun _ later hlater => ?_
      exact bind_congr_left _ (hloop () later (hmiddle.inside_later hlater))
    | sourceEnd => exact bind_congr_left _ (hloop () middle hmiddle)
    | _ => rfl

/-- What an attempt at one more rule of a strategy comes to: it is refused, or a rule is taken, or
    the tokens and the warnings are as they were before it. -/
inductive Attempt (limits : Limits) (alarm : ParseFault) (fuel : Nat) (s : State) : Prop where
  | refused {e : ParseError} {later : State}
    (hhead : conditionalHead (expression limits) s.behindLineEnds = .error e later)
    (hrules : rules alarm (expression limits) (fuel + 1) s = .error e later)
  | taken {condition : Node} {action : Action} {later : State}
    (hhead : conditionalHead (expression limits) s.behindLineEnds =
      .ok (condition, action.consequent) later)
    (hpasses : s.Passes later)
    (hrules : rules alarm (expression limits) (fuel + 1) s =
      (do return action.node condition :: (← rules alarm (expression limits) fuel)) later)
  | ended {later : State} (hrules : rules alarm (expression limits) (fuel + 1) s = .ok [] later)
    (htokens : later.tokens = s.tokens) (hwarnings : later.warnings = s.warnings)
    (hnesting : later.nesting = s.nesting)

/-- A round at a conditional: it is read up to its end, as a rule if an action follows its `then`,
    and otherwise the reading is taken back. -/
theorem rules_succ_of_if {expression : Reader Node}
    (hif : s.behindLineEnds.ahead.kind = .keyword .ifWord) :
    rules alarm expression (fuel + 1) s = (conditionalHead expression >>= fun head =>
      match head with
      | (condition, .buy) => do return .buy condition :: (← rules alarm expression fuel)
      | (condition, .sell) => do return .sell condition :: (← rules alarm expression fuel)
      | (_, .expression _ _) => do
        modify fun now => { now with tokens := s.tokens, warnings := s.warnings }
        return []) s.behindLineEnds := by
  have hget : (get : Reader State) s = .ok s s := rfl
  have hlines : skipLineEnds s = .ok () s.behindLineEnds := rfl
  have hkind : peekKind s.behindLineEnds = .ok s.behindLineEnds.ahead.kind s.behindLineEnds := rfl
  rw [rules]
  refine (bind_of_ok hget).trans ((bind_of_ok hlines).trans ((bind_of_ok hkind).trans ?_))
  exact congrFun (if_pos hif) _

/-- A round without a conditional ahead ends the rules. -/
theorem rules_succ_of_not_if {expression : Reader Node}
    (hif : s.behindLineEnds.ahead.kind ≠ .keyword .ifWord) :
    rules alarm expression (fuel + 1) s = .ok [] s := by
  have hget : (get : Reader State) s = .ok s s := rfl
  have hlines : skipLineEnds s = .ok () s.behindLineEnds := rfl
  have hkind : peekKind s.behindLineEnds = .ok s.behindLineEnds.ahead.kind s.behindLineEnds := rfl
  rw [rules]
  refine (bind_of_ok hget).trans ((bind_of_ok hlines).trans ((bind_of_ok hkind).trans ?_))
  exact congrFun (if_neg hif) _

/-- Every attempt at one more rule takes a rule, is refused or takes the reading back. -/
theorem attempt (limits : Limits) (alarm : ParseFault) (fuel : Nat) (hs : s.Terminated) :
    Attempt limits alarm fuel s := by
  by_cases hif : s.behindLineEnds.ahead.kind = .keyword .ifWord
  · have hlines := hs.inside.behindLineEnds hs.last
    have hhead : Procedure limits (conditionalHead (expression limits)) :=
      .conditionalHead (limits.nesting + 1)
    have hadvances := hhead.advances s.behindLineEnds (hs.of_inside hlines)
    have hkeeps := hhead.keepsNesting s.behindLineEnds
    unfold Leads at hadvances
    cases hhead : conditionalHead (expression limits) s.behindLineEnds with
    | error e later =>
      exact .refused hhead (by rw [rules_succ_of_if hif, bind_of_error hhead])
    | ok head later =>
      rw [hhead] at hadvances hkeeps
      have hpasses : s.Passes later := .behind hlines hadvances
      have hrules := @rules_succ_of_if s alarm fuel (expression limits) hif
      rw [bind_of_ok hhead] at hrules
      obtain ⟨condition, consequent⟩ := head
      cases consequent with
      | buy => exact @Attempt.taken _ _ _ _ condition .buy later hhead hpasses hrules
      | sell => exact @Attempt.taken _ _ _ _ condition .sell later hhead hpasses hrules
      | expression consequent nestedIf => exact .ended hrules rfl rfl hkeeps
  · exact .ended (rules_succ_of_not_if hif) rfl rfl rfl

theorem rules_congr (hs : s.Terminated) (hfuel : s.tokens.length ≤ fuel)
    (hfuel' : s.tokens.length ≤ fuel') :
    rules alarm (expression limits) fuel s = rules alarm' (expression limits) fuel' s := by
  refine @loop_congr _ _ Unit (fun fuel _ => rules alarm (expression limits) fuel)
    (fun fuel _ => rules alarm' (expression limits) fuel) ?_ _ _ () hs hfuel hfuel'
  intro fuel fuel' _ s hs hloop
  by_cases hif : s.behindLineEnds.ahead.kind = .keyword .ifWord
  · have hlines := hs.inside.behindLineEnds hs.last
    have hhead : Advances (conditionalHead (expression limits)) :=
      (Procedure.conditionalHead (limits.nesting + 1)).advances
    simp only [rules_succ_of_if hif]
    refine bind_congr_of_leads (hhead _ (hs.of_inside hlines)) fun head later hlater => ?_
    obtain ⟨condition, consequent⟩ := head
    cases consequent with
    | buy | sell => exact bind_congr_left _ (hloop () later (.behind hlines hlater))
    | expression => rfl
  · simp only [rules_succ_of_not_if hif]

/-- The loops of a reading do not use their rounds up if they are given one for each token ahead:
    with any alarm, and with any number of rounds from there on, they do what the reading does. -/
structure RoundsSuffice (limits : Limits) (alarm : ParseFault) (fuel : Nat) (s : State) : Prop where
  arguments : ∀ left, argumentsFrom alarm (levels limits left).expression fuel s =
    argumentsFrom outOfRounds (levels limits left).expression s.tokens.length s
  indices : ∀ (left : Nat) (known : Option Nat) (object : Node),
    postfixFrom alarm limits (levels limits left) fuel known object s =
      postfixFrom outOfRounds limits (levels limits left) s.tokens.length known object s
  operators : ∀ (left : Nat) (category : Category) (known : Option Nat) (node : Node),
    chainFrom alarm limits category.operators
        (category.tighter.reader limits (levels limits left)) fuel known node s =
      chainFrom outOfRounds limits category.operators
        (category.tighter.reader limits (levels limits left)) s.tokens.length known node s
  rules : rules alarm (expression limits) fuel s =
    rules outOfRounds (expression limits) s.tokens.length s
  statements : statements alarm limits fuel s = statements outOfRounds limits s.tokens.length s

/-- With a round for each token ahead and any alarm, the loops do what they do with more rounds and
    another alarm. -/
theorem roundsSuffice (alarm : ParseFault) (hs : s.Terminated) (hfuel : s.tokens.length ≤ fuel) :
    RoundsSuffice limits alarm fuel s where
  arguments _ := argumentsFrom_congr hs hfuel (Nat.le_refl _)
  indices _ known object := postfixFrom_congr known object hs hfuel (Nat.le_refl _)
  operators _ category known node := chainFrom_congr category known node hs hfuel (Nat.le_refl _)
  rules := rules_congr hs hfuel (Nat.le_refl _)
  statements := statements_congr hs hfuel (Nat.le_refl _)

/-- The readers that have a loop do the same with any alarm and any number of rounds in it, as long
    as there is one for each token ahead. -/
structure LoopsEnd (limits : Limits) (alarm : ParseFault) (fuel : Nat) (s : State) : Prop where
  arguments : ∀ left, arguments (levels limits left) s = (do
    expectSign .leftParen
    if ← accept (.punctuation .rightParen) then
      return []
    else
      argumentsFrom alarm (levels limits left).expression fuel : Reader (List Node)) s
  indexed : ∀ left, indexed limits (levels limits left) s = (do
    let object ← primary (levels limits left)
    postfixFrom alarm limits (levels limits left) fuel none object : Reader Node) s
  chain : ∀ (left : Nat) (category : Category), category.IsChain →
    category.reader limits (levels limits left) s = (do
      let first ← category.tighter.reader limits (levels limits left)
      chainFrom alarm limits category.operators
        (category.tighter.reader limits (levels limits left)) fuel none first : Reader Node) s
  strategy : strategy (expression limits) s = (do
    expectWord .strategyWord
    expectSign .leftParen
    match ← peekKind with
    | .text name =>
      skip
      expectSign .rightParen
      return .strategy name (← rules alarm (expression limits) fuel)
    | _ => unexpected .strategyName : Reader Node) s
  program : program limits s = (do
    skipLineEnds
    match ← statements alarm limits fuel with
    | [] => refuse .noStatements
    | nodes => return .ofStatements nodes : Reader Program) s

/-- What a reader gives its loop is enough: a round for each token that is ahead by then, and one for
    the end. -/
theorem loopsEnd (alarm : ParseFault) (hs : s.Terminated) (hfuel : s.tokens.length ≤ fuel) :
    LoopsEnd limits alarm fuel s where
  arguments left := by
    have hopen := Stays.expectSign hs.last .leftParen s hs.inside
    refine bind_congr_of_leads hopen fun _ opened hopened => ?_
    have hclose : Stays s.tokens (accept (.punctuation .rightParen)) := .accept hs.last (by simp)
    refine bind_congr_of_leads (hclose opened hopened) fun closed later hlater => ?_
    have hlength := hlater.isSuffix.length_le
    cases closed with
    | true => rfl
    | false =>
      exact argumentsFrom_congr (hs.of_inside hlater) (Nat.le_succ _) (by omega)
  indexed left := by
    have hprimary : Advances (primary (levels limits left)) :=
      (Procedure.category .primary left).advances
    refine bind_congr_of_leads (hprimary s hs) fun object later hlater => ?_
    have hlength := hlater.length_lt
    exact postfixFrom_congr none object (hlater.terminated hs) (Nat.le_succ _) (by omega)
  chain left category hchain := by
    rw [Category.reader_chain hchain]
    have hoperand : Advances (category.tighter.reader limits (levels limits left)) :=
      (Procedure.category category.tighter left).advances
    refine bind_congr_of_leads (hoperand s hs) fun first later hlater => ?_
    have hlength := hlater.length_lt
    exact chainFrom_congr category none first (hlater.terminated hs) (Nat.le_succ _) (by omega)
  strategy := by
    refine bind_congr_of_leads (Stays.expectWord hs.last _ s hs.inside) fun _ named hnamed => ?_
    refine bind_congr_of_leads (Stays.expectSign hs.last _ named hnamed) fun _ opened hopened => ?_
    have hkind : peekKind opened = .ok opened.ahead.kind opened := rfl
    refine bind_congr_of_ok hkind ?_
    cases htitle : opened.ahead.kind with
    | text title =>
      have hskip : skip opened = .ok () opened.skipped := rfl
      have hskipped := hopened.skipped hs.last (by rw [← State.kind_ahead, htitle]; simp)
      refine bind_congr_of_ok hskip ?_
      refine bind_congr_of_leads (Stays.expectSign hs.last _ _ hskipped) fun _ later hlater => ?_
      have hlength := hlater.isSuffix.length_le
      exact bind_congr_left _ (rules_congr (hs.of_inside hlater) (Nat.le_succ _) (by omega))
    | _ => rfl
  program := by
    have hlines := Stays.skipLineEnds hs.last s hs.inside
    refine bind_congr_of_leads hlines fun _ later hlater => ?_
    have hlength := hlater.isSuffix.length_le
    exact bind_congr_left _
      (statements_congr (hs.of_inside hlater) (Nat.le_succ _) (by omega))

/-- Every reading makes progress and comes to an end. It begins with the end of the source behind
    all other tokens. From there a procedure that comes to a result has taken a token and not the
    end of the source, and each is back at its nesting level in any case. No alarm goes off that is
    set for a nesting beyond the bound; an attempt at a rule takes one, or leaves the tokens and the
    warnings as they were. And the readers are those of a recursion that has no other bound. No alarm
    goes off in their loops that is set for a loop without end, and none of them needs more rounds
    than there are tokens ahead. -/
theorem reading_progresses (limits : Limits) :
    (∀ tokens, State.Terminated { tokens := closed tokens }) ∧
    (∀ (α : Type) (reader : Reader α), Procedure limits reader →
      Advances reader ∧ KeepsNesting reader) ∧
    (∀ alarm, guardedLevels limits alarm (limits.nesting + 1) =
      levels limits (limits.nesting + 1)) ∧
    (∀ alarm fuel s, s.Terminated → Attempt limits alarm fuel s) ∧
    levels limits (limits.nesting + 1) =
      { expression := nested limits (expressionHere limits (levels limits (limits.nesting + 1)))
        power := nested limits (power limits (levels limits (limits.nesting + 1)))
        unary := nested limits (unary limits (levels limits (limits.nesting + 1))) } ∧
    ∀ alarm fuel s, s.Terminated → s.tokens.length ≤ fuel →
      RoundsSuffice limits alarm fuel s ∧ LoopsEnd limits alarm fuel s := by
  refine ⟨terminated_closed, fun α reader hreader => ?_, guardedLevels_eq, ?_, levels_eq limits, ?_⟩
  · exact ⟨hreader.advances, hreader.keepsNesting⟩
  · exact fun alarm fuel s hs => attempt limits alarm fuel hs
  · exact fun alarm fuel s hs hfuel => ⟨roundsSuffice alarm hs hfuel, loopsEnd alarm hs hfuel⟩

/-- What holds in front of the plain conditional `if a then b`, which is no rule of a strategy. -/
theorem reading_progresses_plain_conditional :
    ∃ s : State, s.tokens = [⟨.keyword .ifWord, "if", ⟨0, 1, 1⟩⟩,
        ⟨.identifier "a", "a", ⟨3, 1, 4⟩⟩, ⟨.keyword .thenWord, "then", ⟨5, 1, 6⟩⟩,
        ⟨.identifier "b", "b", ⟨10, 1, 11⟩⟩, .sourceEnd ⟨11, 1, 12⟩] ∧
      s.Terminated ∧ Procedure .standard (expression .standard) ∧
      Advances (expression .standard) ∧ KeepsNesting (expression .standard) ∧
      ∀ alarm, Attempt .standard alarm 4 s ∧ RoundsSuffice .standard alarm 7 s ∧
        LoopsEnd .standard alarm 7 s := by
  obtain ⟨hclosed, hprocedures, -, hattempts, -, hrounds⟩ := reading_progresses .standard
  have hs : State.Terminated { tokens := [⟨.keyword .ifWord, "if", ⟨0, 1, 1⟩⟩,
      ⟨.identifier "a", "a", ⟨3, 1, 4⟩⟩, ⟨.keyword .thenWord, "then", ⟨5, 1, 6⟩⟩,
      ⟨.identifier "b", "b", ⟨10, 1, 11⟩⟩, .sourceEnd ⟨11, 1, 12⟩] } :=
    hclosed [⟨.keyword .ifWord, "if", ⟨0, 1, 1⟩⟩, ⟨.identifier "a", "a", ⟨3, 1, 4⟩⟩,
      ⟨.keyword .thenWord, "then", ⟨5, 1, 6⟩⟩, ⟨.identifier "b", "b", ⟨10, 1, 11⟩⟩,
      .sourceEnd ⟨11, 1, 12⟩]
  have hexpression : Procedure .standard (expression .standard) := .expression 65
  obtain ⟨hadvances, hkeeps⟩ := hprocedures _ _ hexpression
  exact ⟨_, rfl, hs, hexpression, hadvances, hkeeps,
    fun alarm => ⟨hattempts alarm 4 _ hs, hrounds alarm 7 _ hs (by decide)⟩⟩

end Candlewick.Grammar
