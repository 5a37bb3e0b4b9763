import Candlewick.Proofs.Grammar.Links
import Candlewick.Proofs.Grammar.Soundness.Operators

namespace Candlewick.Grammar

variable {limits : Limits} {deeper : Deeper}

/-- A conditional with an `else` is told from one in brackets by the `if` that it begins with. -/
theorem Derives.hasElse_eq {phrase : Phrase} (hderives : Derives .expression phrase)
    (rest : List Terminal) :
    (decide ((first (phrase.terminals ++ rest)).kind = .keyword .ifWord) &&
      hasAlternative phrase.node) = phrase.hasElse := by
  obtain ⟨condition, consequent, rfl, -⟩ | ⟨condition, consequent, alternative, rfl, -⟩ |
    ⟨target, value, rfl, -⟩ | hor := hderives.expression_cases
  · rfl
  · rfl
  · rfl
  · rw [decide_eq_false (hor.not_if rest), Bool.false_and]
    cases phrase with
    | ifThenElse => exact absurd rfl (hor.not_if rest)
    | _ => rfl

/-- A condition, and `if` and `then` around it, stand at the front of what is ahead in a state and
    have been read in a later one. -/
structure FoundCondition (s later : State) (phrase : Phrase) : Prop where
  condition : phrase.IsExpression
  terminals : s.terminals = .word .ifWord ::
    (phrase.terminals ++ .word .thenWord :: later.terminals)
  warnings : later.warnings.length = s.warnings.length + phrase.warned

/-- The phrases of a conditional up to the end of what follows `then`. -/
inductive FoundHead (s later : State) : Node × Consequent → Prop where
  | rule {rule : Rule} (hcondition : rule.condition.IsExpression)
    (hterminals : s.terminals = rule.terminals ++ later.terminals)
    (hwarnings : later.warnings.length = s.warnings.length + rule.condition.warned) :
    FoundHead s later (rule.condition.node, rule.action.consequent)
  | expression {condition consequent : Phrase} {middle : State} {nestedIf : Bool}
    (hcondition : FoundCondition s middle condition)
    (hconsequent : Found .expression middle later consequent)
    (hnested : (nestedIf && hasAlternative consequent.node) = consequent.hasElse) :
    FoundHead s later (condition.node, .expression consequent.node nestedIf)

/-- A condition with an action behind it is the head of a trading rule. -/
theorem FoundCondition.rule {s later : State} (rule : Rule)
    (hfound : FoundCondition s later rule.condition)
    (haction : (first later.terminals).kind = .keyword rule.action.keyword) :
    FoundHead s later.skipped (rule.condition.node, rule.action.consequent) := by
  have hkeyword : ∀ builtin, rule.action.keyword ≠ .function builtin := by
    cases rule.action <;> simp [Action.keyword]
  refine .rule hfound.condition ?_ hfound.warnings
  rw [rule.terminals_append, hfound.terminals, State.terminals_eq_word haction hkeyword]

/-- What is read up to the end of the consequent are the condition and the consequent. -/
theorem conditionalHead_sound {expression : Reader Node}
    (hexpression : Sound .expression expression) (s : State) :
    Leads (fun _ => True) (conditionalHead expression) s
      fun head later => FoundHead s later head := by
  simp only [conditionalHead, leads_bind, leads_expectWord, leads_accept, leads_ite, if_true,
    Bool.false_eq_true, if_false, leads_pure, leads_peekKind]
  by_cases hif : (first s.terminals).kind = .keyword .ifWord
  · rw [if_pos hif]
    have hif := State.terminals_eq_word hif (by simp)
    apply (hexpression s.skipped).mono fun _ h => h
    rintro node later ⟨condition, hfound, rfl⟩
    by_cases hthen : (first later.terminals).kind = .keyword .thenWord
    · rw [if_pos hthen]
      have hthen := State.terminals_eq_word hthen (by simp)
      have hhead : FoundCondition s later.skipped condition := by
        refine ⟨⟨hfound.derives, hfound.elseNearest⟩, ?_, hfound.warnings⟩
        rw [hif, hfound.terminals, hthen]
      by_cases hbuy : (first later.skipped.terminals).kind = .keyword .buyWord
      · rw [if_pos hbuy]
        exact hhead.rule ⟨condition, .buy⟩ hbuy
      · rw [if_neg hbuy]
        by_cases hsell : (first later.skipped.terminals).kind = .keyword .sellWord
        · rw [if_pos hsell]
          exact hhead.rule ⟨condition, .sell⟩ hsell
        · rw [if_neg hsell]
          apply (hexpression later.skipped).mono fun _ h => h
          rintro node last ⟨consequent, hconsequent, rfl⟩
          refine .expression hhead hconsequent ?_
          rw [hconsequent.terminals]
          exact hconsequent.derives.hasElse_eq _
    · rw [if_neg hthen]
      trivial
  · rw [if_neg hif]
    trivial

/-- The end of a conditional completes the phrase that its head began. An `else` is taken wherever
    it comes next, so no open consequent stands before one. -/
theorem conditionalEnd_sound {expression : Reader Node} (hexpression : Sound .expression expression)
    {start middle s : State} {condition consequent : Phrase} {nestedIf : Bool}
    (hcondition : FoundCondition start middle condition)
    (hconsequent : Found .expression middle s consequent)
    (hnested : (nestedIf && hasAlternative consequent.node) = consequent.hasElse) :
    Leads (fun _ => True) (conditionalEnd expression condition.node consequent.node nestedIf) s
      fun node later => ∃ phrase, Found .expression start later phrase ∧ phrase.node = node ∧
        phrase.headWarned = condition.warned + consequent.warned := by
  simp only [conditionalEnd, leads_bind, leads_peek, leads_accept, leads_ite, if_true,
    Bool.false_eq_true, if_false, leads_pure, leads_warn]
  by_cases hword : (first s.terminals).kind = .keyword .elseWord
  · rw [if_pos hword]
    apply (hexpression s.skipped).mono fun _ h => h
    rintro node later ⟨alternative, halternative, rfl⟩
    have hclosed : consequent.isOpen = false :=
      Bool.eq_false_iff.2 fun hopen => hconsequent.closed hopen hword
    refine ⟨.ifThenElse condition consequent alternative,
      ⟨.ifThenElse hcondition.condition.derives hconsequent.derives halternative.derives,
        ⟨hclosed, hcondition.condition.elseNearest, hconsequent.elseNearest,
          halternative.elseNearest⟩, ?_, halternative.closed, ?_⟩, rfl, rfl⟩
    · rw [hcondition.terminals, hconsequent.terminals, State.terminals_eq_word hword (by simp),
        halternative.terminals]
      simp [Phrase.terminals]
    · rw [halternative.warnings, State.warnings_skipped, hconsequent.warnings, hcondition.warnings,
        Phrase.warned_ifThenElse]
      omega
  · rw [if_neg hword, hnested]
    have hterminals : start.terminals = (Phrase.ifThen condition consequent).terminals ++
        s.terminals := by
      rw [hcondition.terminals, hconsequent.terminals]
      simp [Phrase.terminals]
    have hfound : ∀ later : State, later.terminals = s.terminals →
        later.warnings.length = s.warnings.length + (if consequent.hasElse then 1 else 0) →
        Found .expression start later (.ifThen condition consequent) := by
      intro later hlater hwarnings
      refine ⟨.ifThen hcondition.condition.derives hconsequent.derives,
        ⟨hcondition.condition.elseNearest, hconsequent.elseNearest⟩, ?_, ?_, ?_⟩
      · rw [hlater, hterminals]
      · rw [hlater]
        exact fun _ => hword
      · rw [hwarnings, hconsequent.warnings, hcondition.warnings, Phrase.warned_ifThen]
        omega
    split
    · rename_i helse
      exact ⟨_, hfound _ rfl (by simp [helse]), rfl, rfl⟩
    · rename_i helse
      exact ⟨_, hfound s rfl (by simp [helse]), rfl, rfl⟩

/-- What is read as a conditional is one, with or without an `else`. -/
theorem conditional_sound {expression : Reader Node} (hexpression : Sound .expression expression) :
    Sound .expression (conditional expression) := by
  intro s
  simp only [conditional, leads_bind, leads_peek]
  apply (conditionalHead_sound hexpression s).mono fun _ h => h
  intro head later hhead
  cases hhead with
  | @rule rule => rcases rule with ⟨condition, _ | _⟩ <;> trivial
  | expression hcondition hconsequent hnested =>
    apply (conditionalEnd_sound hexpression hcondition hconsequent hnested).mono fun _ h => h
    rintro node later ⟨phrase, hfound, hnode, -⟩
    exact ⟨phrase, hfound, hnode⟩

/-- What is read as an expression is a conditional, an assignment or a chain. -/
theorem expressionHere_sound (hexpression : Sound .expression deeper.expression)
    (hunary : Sound .unary deeper.unary) (hpower : Sound .power deeper.power) :
    Sound .expression (expressionHere limits deeper) := by
  intro s
  simp only [expressionHere, leads_bind, leads_peekKind, leads_peekSecond?]
  split
  case h_1 => exact conditional_sound hexpression s
  case h_2 name hname hassign =>
    simp only [leads_bind, leads_skip, leads_pure]
    apply (hexpression s.skipped.skipped).mono fun _ h => h
    rintro node later ⟨value, hvalue, rfl⟩
    refine ⟨.assign name value,
      ⟨.assign hvalue.derives, hvalue.elseNearest, ?_, hvalue.closed, hvalue.warnings⟩, rfl⟩
    have hsecond := State.terminals_eq_plain hname (by simp) (by simp)
    have hkind : (first s.skipped.terminals).kind = .mark .assign := by
      rw [hsecond, List.getElem?_cons_succ] at hassign
      cases hrest : s.skipped.terminals with
      | nil => rw [hrest] at hassign; cases hassign
      | cons terminal rest => rw [hrest] at hassign; exact Option.some.inj hassign
    rw [hsecond, State.terminals_eq_plain hkind (by simp) (by simp), hvalue.terminals]
    rfl
  case h_3 =>
    have hor : Sound .or (Category.or.reader limits deeper) :=
      Category.sound hexpression hunary hpower (by decide)
    apply (hor s).mono fun _ h => h
    rintro node later ⟨phrase, hfound, rfl⟩
    exact ⟨phrase, hfound.tighter .expression rfl (by simp), rfl⟩

/-- The readers of every level are sound, by induction on the levels that are left. -/
theorem levels_sound (left : Nat) :
    Sound .expression (levels limits left).expression ∧ Sound .power (levels limits left).power ∧
      Sound .unary (levels limits left).unary := by
  induction left with
  | zero => exact ⟨fun _ => trivial, fun _ => trivial, fun _ => trivial⟩
  | succ left ih =>
    obtain ⟨hexpression, hpower, hunary⟩ := ih
    exact ⟨(expressionHere_sound hexpression hunary hpower).nested limits,
      (power_sound hexpression hunary hpower).nested limits,
      (unary_sound hexpression hunary).nested limits⟩

/-- What the readers of all categories read, whatever number of levels is left. -/
theorem Category.reader_sound (limits : Limits) (left : Nat) (category : Category) :
    Sound category (category.reader limits (levels limits left)) := by
  obtain ⟨hexpression, hpower, hunary⟩ := @levels_sound limits left
  by_cases hloosest : category = .expression
  · subst hloosest
    exact expressionHere_sound hexpression hunary hpower
  · exact Category.sound hexpression hunary hpower hloosest

theorem expression_sound (limits : Limits) : Sound .expression (expression limits) :=
  (levels_sound _).1

end Candlewick.Grammar
