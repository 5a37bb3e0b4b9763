import Candlewick.Proofs.Grammar.Completeness.Operators

namespace Candlewick.Grammar

variable {limits : Limits} {level : Nat} {fits : Prop} {s : State} {rest : List Terminal}

/-- A conditional is read up to its `then`. What comes next tells a trading rule from an
    expression. -/
theorem leads_conditionalHead {condition : Phrase} {arrived : Node × Consequent → State → Prop}
    (hcondition : Complete limits .expression condition) (hlevel : level ≤ limits.nesting)
    (hfits : fits → Fits limits (level + 1) condition) (hnesting : s.nesting = level)
    (hterminals : s.terminals =
      .word .ifWord :: (condition.terminals ++ .word .thenWord :: rest))
    (harrived : ∀ later, Behind s rest later → level + 1 + condition.nesting ≤ limits.nesting →
      if (first rest).kind = .keyword .buyWord then arrived (condition.node, .buy) later.skipped
      else if (first rest).kind = .keyword .sellWord then
        arrived (condition.node, .sell) later.skipped
      else
        Leads (TooDeep fits) (deeperAt limits level).expression later fun consequent last =>
          arrived (condition.node,
            .expression consequent (decide ((first rest).kind = .keyword .ifWord))) last) :
    Leads (TooDeep fits) (conditionalHead (deeperAt limits level).expression) s arrived := by
  have hbehind := behind_skipped hterminals
  simp only [conditionalHead, leads_bind, leads_expectWord, leads_accept, leads_ite, if_true,
    Bool.false_eq_true, if_false, leads_pure, leads_peekKind, hterminals, first_cons,
    Terminal.kind_word]
  rw [deeperAt_expression hlevel] at harrived ⊢
  apply hcondition.below (hbehind.nesting.trans hnesting) hbehind.terminals
    (ends_cons (by decide) _) (by simp) hfits
  intro later hlater hconditionNesting
  rw [hlater.terminals, first_cons, Terminal.kind_word, if_pos rfl, hlater.skipped.terminals]
  exact harrived later.skipped (hbehind.trans hlater.skipped) hconditionNesting

/-- Without an `else` a conditional ends where its consequent ends. -/
theorem leads_conditionalEnd_of_ne {expression : Reader Node} {condition consequent : Node}
    {nestedIf : Bool} {refused : ParseError → Prop} {arrived : Node → State → Prop}
    (helse : (first s.terminals).kind ≠ .keyword .elseWord)
    (harrived : ∀ later, Behind s s.terminals later →
      arrived (.ifThen condition consequent) later) :
    Leads refused (conditionalEnd expression condition consequent nestedIf) s arrived := by
  simp only [conditionalEnd, leads_bind, leads_peek, leads_accept, leads_ite, Bool.false_eq_true,
    if_false, leads_pure, leads_warn, if_neg helse]
  split
  · exact harrived _ ⟨rfl, rfl⟩
  · exact harrived _ ⟨rfl, rfl⟩

/-- A conditional takes the `else` that comes next. -/
theorem leads_conditionalEnd {condition consequent : Node} {nestedIf : Bool} {alternative : Phrase}
    {arrived : Node → State → Prop} (halternative : Complete limits .expression alternative)
    (hlevel : level ≤ limits.nesting) (hfits : fits → Fits limits (level + 1) alternative)
    (hnesting : s.nesting = level)
    (hterminals : s.terminals = .word .elseWord :: (alternative.terminals ++ rest))
    (hends : Ends .expression rest)
    (hclosed : alternative.isOpen = true → (first rest).kind ≠ .keyword .elseWord)
    (harrived : ∀ later, Behind s rest later → level + 1 + alternative.nesting ≤ limits.nesting →
      arrived (.ifThenElse condition consequent alternative.node) later) :
    Leads (TooDeep fits)
      (conditionalEnd (deeperAt limits level).expression condition consequent nestedIf) s
      arrived := by
  have hbehind := behind_skipped hterminals
  simp only [conditionalEnd, leads_bind, leads_peek, leads_accept, leads_ite, if_true, leads_pure,
    hterminals, first_cons, Terminal.kind_word, deeperAt_expression hlevel]
  apply halternative.below (hbehind.nesting.trans hnesting) hbehind.terminals hends hclosed hfits
  intro later hlater halternativeNesting
  exact harrived later (hbehind.trans hlater) halternativeNesting

/-- The head of a conditional that has a value, from which the end of the conditional leads on. -/
def LeadsToEnd (refused : ParseError → Prop) (expression : Reader Node) (level : Nat)
    (arrived : Node → State → Prop) (head : Node × Consequent) (later : State) : Prop :=
  later.nesting = level ∧ ∃ condition consequent nestedIf,
    head = (condition, .expression consequent nestedIf) ∧
      Leads refused (conditionalEnd expression condition consequent nestedIf) later arrived

/-- A conditional without an `else` is read up to where its consequent ends, and no `else` is found
    there. -/
theorem leads_ifThen {condition consequent : Phrase} {arrived : Node → State → Prop}
    (hcondition : Complete limits .expression condition)
    (hconsequent : Complete limits .expression consequent)
    (hderives : Derives .expression consequent)
    (hahead : Ahead limits .expression fits s (.ifThen condition consequent) rest)
    (harrived : ∀ later, Behind s rest later →
      s.nesting + (Phrase.ifThen condition consequent).nesting ≤ limits.nesting →
      arrived (.ifThen condition.node consequent.node) later) :
    Leads (TooDeep fits) (conditionalHead (deeperAt limits s.nesting).expression) s
      (LeadsToEnd (TooDeep fits) (deeperAt limits s.nesting).expression s.nesting arrived) := by
  have hterminals : s.terminals = .word .ifWord ::
      (condition.terminals ++ .word .thenWord :: (consequent.terminals ++ rest)) := by
    rw [hahead.terminals, Phrase.terminals]
    simp
  have helse : (first rest).kind ≠ .keyword .elseWord := hahead.closed rfl
  obtain ⟨hbuy, hsell⟩ := hderives.not_action rest
  apply leads_conditionalHead hcondition hahead.level (fun h => (hahead.fits h).ifThen.1) rfl
    hterminals
  intro later hlater hconditionNesting
  rw [if_neg hbuy, if_neg hsell]
  rw [deeperAt_expression hahead.level]
  apply hconsequent.below hlater.nesting hlater.terminals hahead.ends (fun _ => helse)
    fun h => (hahead.fits h).ifThen.2
  intro last hlast hconsequentNesting
  refine ⟨(hlater.trans hlast).nesting, _, _, _, rfl, ?_⟩
  apply leads_conditionalEnd_of_ne
  · rw [hlast.terminals]
    exact helse
  · intro finished hfinished
    rw [hlast.terminals] at hfinished
    apply harrived finished ((hlater.trans hlast).trans hfinished)
    simp only [Phrase.nesting]
    omega

/-- A conditional with an `else` is read to its end. Its consequent is closed, so the `else` behind
    it is left for the conditional. -/
theorem leads_ifThenElse {condition consequent alternative : Phrase}
    {arrived : Node → State → Prop} (hcondition : Complete limits .expression condition)
    (hconsequent : Complete limits .expression consequent)
    (halternative : Complete limits .expression alternative)
    (hderives : Derives .expression consequent) (hconsequentClosed : consequent.isOpen = false)
    (hahead : Ahead limits .expression fits s (.ifThenElse condition consequent alternative) rest)
    (harrived : ∀ later, Behind s rest later →
      s.nesting + (Phrase.ifThenElse condition consequent alternative).nesting ≤ limits.nesting →
      arrived (.ifThenElse condition.node consequent.node alternative.node) later) :
    Leads (TooDeep fits) (conditionalHead (deeperAt limits s.nesting).expression) s
      (LeadsToEnd (TooDeep fits) (deeperAt limits s.nesting).expression s.nesting arrived) := by
  have hterminals : s.terminals = .word .ifWord :: (condition.terminals ++ .word .thenWord ::
      (consequent.terminals ++ .word .elseWord :: (alternative.terminals ++ rest))) := by
    rw [hahead.terminals, Phrase.terminals]
    simp
  obtain ⟨hbuy, hsell⟩ := hderives.not_action (.word .elseWord :: (alternative.terminals ++ rest))
  apply leads_conditionalHead hcondition hahead.level (fun h => (hahead.fits h).ifThenElse.1) rfl
    hterminals
  intro later hlater hconditionNesting
  rw [if_neg hbuy, if_neg hsell]
  rw [deeperAt_expression hahead.level]
  apply hconsequent.below hlater.nesting hlater.terminals (ends_cons (by decide) _)
    (by simp [hconsequentClosed]) fun h => (hahead.fits h).ifThenElse.2.1
  intro last hlast hconsequentNesting
  refine ⟨(hlater.trans hlast).nesting, _, _, _, rfl, ?_⟩
  rw [← deeperAt_expression hahead.level]
  apply leads_conditionalEnd halternative hahead.level (fun h => (hahead.fits h).ifThenElse.2.2)
    (hlast.nesting.trans hlater.nesting) hlast.terminals hahead.ends hahead.closed
  intro finished hfinished halternativeNesting
  apply harrived finished ((hlater.trans hlast).trans hfinished)
  simp only [Phrase.nesting]
  omega

/-- A phrase that begins with an `if` is read as a conditional. -/
theorem leads_expressionHere_if {deeper : Deeper} {refused : ParseError → Prop}
    {arrived : Node → State → Prop} (hif : (first s.terminals).kind = .keyword .ifWord)
    (hhead : Leads refused (conditionalHead deeper.expression) s
      (LeadsToEnd refused deeper.expression s.nesting arrived)) :
    Leads refused (expressionHere limits deeper) s arrived := by
  simp only [expressionHere, leads_bind, leads_peekKind, leads_peekSecond?, hif, conditional,
    leads_peek]
  apply hhead.mono fun _ h => h
  rintro _ later ⟨-, condition, consequent, nestedIf, rfl, hend⟩
  exact hend

/-- A conditional without an `else` is read if its parts are. -/
theorem complete_ifThen {condition consequent : Phrase}
    (hcondition : Complete limits .expression condition)
    (hconsequent : Complete limits .expression consequent)
    (hderives : Derives .expression consequent) :
    Complete limits .expression (.ifThen condition consequent) := by
  intro fits s rest arrived hahead harrived
  apply leads_expressionHere_if
  · rw [hahead.terminals]
    rfl
  · exact leads_ifThen hcondition hconsequent hderives hahead harrived

/-- A conditional with an `else` is read if its parts are. -/
theorem complete_ifThenElse {condition consequent alternative : Phrase}
    (hcondition : Complete limits .expression condition)
    (hconsequent : Complete limits .expression consequent)
    (halternative : Complete limits .expression alternative)
    (hderives : Derives .expression consequent) (hclosed : consequent.isOpen = false) :
    Complete limits .expression (.ifThenElse condition consequent alternative) := by
  intro fits s rest arrived hahead harrived
  apply leads_expressionHere_if
  · rw [hahead.terminals]
    rfl
  · exact leads_ifThenElse hcondition hconsequent halternative hderives hclosed hahead harrived

/-- An assignment is read if its value is. -/
theorem complete_assign {target : String} {value : Phrase}
    (hvalue : Complete limits .expression value) :
    Complete limits .expression (.assign target value) := by
  intro fits s rest arrived hahead harrived
  have hterminals : s.terminals =
      .plain (.identifier target) :: .plain (.mark .assign) :: (value.terminals ++ rest) :=
    hahead.terminals
  have hbehind := (behind_skipped hterminals).skipped
  simp only [Category.reader, expressionHere, leads_bind, leads_peekKind, leads_peekSecond?,
    hterminals, first_cons, Terminal.kind_plain, List.getElem?_cons_succ, List.getElem?_cons_zero,
    Option.map_some, leads_skip, leads_pure, deeperAt_expression hahead.level]
  apply hvalue.below hbehind.nesting hbehind.terminals hahead.ends hahead.closed
    fun h => (hahead.fits h).value
  intro later hlater hnesting
  apply harrived later (hbehind.trans hlater)
  simp only [Phrase.nesting]
  omega

/-- An expression that is neither a conditional nor an assignment. -/
theorem Complete.expression {phrase : Phrase} (hderives : Derives .or phrase)
    (hcomplete : Complete limits .or phrase) : Complete limits .expression phrase := by
  intro fits s rest arrived hahead harrived
  have hends : Ends .expression rest := hahead.ends
  have hor : Ahead limits .or fits s phrase rest := hahead.of_rank_le (by decide)
  have hif : (first s.terminals).kind ≠ .keyword .ifWord := by
    rw [hahead.terminals]
    exact hderives.first_kind_ne (by decide) rest
  have hsecond : ¬ SecondAssigns s.terminals := by
    rw [hahead.terminals]
    apply hderives.not_secondAssigns (by decide)
    intro hassign
    rw [Ends, hassign] at hends
    exact absurd hends (by decide)
  simp only [Category.reader, expressionHere, leads_bind, leads_peekKind, leads_peekSecond?]
  split
  case h_1 hkind => exact absurd hkind hif
  case h_2 hassign => exact absurd hassign hsecond
  case h_3 => exact hcomplete hor harrived

/-- A phrase of the next tighter category. -/
theorem Complete.continues_tighter {category : Category} {phrase : Phrase}
    (hprimary : category ≠ .primary) (hderives : Derives category.tighter phrase)
    (hcomplete : Complete limits category.tighter phrase) : Continues limits category phrase := by
  cases category with
  | expression => exact (hcomplete.expression hderives).continues rfl
  | or | and | equality | comparison | sum | product =>
    exact hcomplete.continues_chain ⟨by decide, by decide⟩
  | power => exact hcomplete.power.continues rfl
  | unary => exact (hcomplete.unary hderives).continues rfl
  | indexed => exact hcomplete.continues_indexed
  | primary => exact absurd rfl hprimary

/-- Every phrase that the grammar derives is read by the reader of its category. -/
theorem Derives.continues {category : Category} {phrase : Phrase}
    (hderives : Derives category phrase) (helse : phrase.ElseNearest) :
    Continues limits category phrase := by
  induction hderives with
  | number value =>
    refine Complete.continues (complete_single rfl rfl ?_) rfl
    intro deeper refused s arrived hkind _ harrived
    simpa [primary, hkind, Phrase.node] using harrived
  | text content =>
    refine Complete.continues (complete_single rfl rfl ?_) rfl
    intro deeper refused s arrived hkind _ harrived
    simpa [primary, hkind, Phrase.node] using harrived
  | truth value =>
    refine Complete.continues ?_ rfl
    cases value <;>
      refine complete_single rfl rfl fun deeper refused s arrived hkind _ harrived => ?_ <;>
      simpa [primary, hkind, Phrase.node] using harrived
  | price field =>
    refine Complete.continues (complete_single rfl rfl ?_) rfl
    intro deeper refused s arrived hkind _ harrived
    simpa [primary, hkind, Phrase.node] using harrived
  | name word =>
    refine Complete.continues (complete_single rfl rfl ?_) rfl
    intro deeper refused s arrived hkind hparen harrived
    rw [State.terminals_skipped] at hparen
    simpa [primary, hkind, hparen, Phrase.node] using harrived
  | call harguments ih =>
    have heach := Phrase.eachElseNearest_iff.1 helse
    have hcomplete : ∀ argument ∈ _, Complete limits .expression argument :=
      fun argument hmem => (ih argument hmem (heach argument hmem)).complete
    exact (complete_call harguments hcomplete).continues rfl
  | group _ ih => exact (complete_group (ih helse).complete).continues rfl
  | past hobject _ ihobject ihoffset =>
    exact (ihobject helse.1).past (ihoffset helse.2).complete (hobject.isOpen_eq_false (by decide))
  | unary hoperand ih =>
    exact (complete_unary (ih helse).complete (hoperand.isOpen_eq_false (by decide))).continues rfl
  | power hbase hexponent ihbase ihexponent =>
    exact (complete_power (ihbase helse.1).complete (ihexponent helse.2).complete
      (hbase.isOpen_eq_false (by decide)) (hexponent.isOpen_eq_false (by decide))).continues rfl
  | joined hoperator hpower hleft hright ihleft ihright =>
    have hchain := Category.isChain_of_operatorCategory hoperator hpower
    have hrank := Category.rank_tighter (Category.ne_primary_of_isChain hchain)
    have hlower : 2 ≤ _ := hchain.1
    exact (ihleft helse.1).joined hoperator hpower (ihright helse.2).complete
      (hleft.isOpen_eq_false hlower) (hright.isOpen_eq_false (by omega))
  | assign _ ih => exact (complete_assign (ih helse).complete).continues rfl
  | ifThen _ hconsequent ihcondition ihconsequent =>
    exact (complete_ifThen (ihcondition helse.1).complete (ihconsequent helse.2).complete
      hconsequent).continues rfl
  | ifThenElse _ hconsequent _ ihcondition ihconsequent ihalternative =>
    exact (complete_ifThenElse (ihcondition helse.2.1).complete
      (ihconsequent helse.2.2.1).complete (ihalternative helse.2.2.2).complete hconsequent
      helse.1).continues rfl
  | tighter hprimary hphrase ih => exact (ih helse).complete.continues_tighter hprimary hphrase

/-- Every derived phrase is read in which each `else` is at the nearest `if`. -/
theorem Derives.complete {category : Category} {phrase : Phrase}
    (hderives : Derives category phrase) (helse : phrase.ElseNearest) :
    Complete limits category phrase :=
  (hderives.continues helse).complete

end Candlewick.Grammar
