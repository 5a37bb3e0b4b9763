import Candlewick.Proofs.Grammar.Unambiguity.Operators

namespace Candlewick.Grammar

/-- No assignment goes on behind a phrase that stops. -/
theorem Stops.not_secondAssigns {phrase : Phrase} {rest : List Terminal}
    (hstops : Stops .expression phrase rest) (hderives : Derives .or phrase) :
    ¬ SecondAssigns (phrase.terminals ++ rest) := by
  apply hderives.not_secondAssigns (by decide)
  intro hassign
  have hends : reach (first rest).kind < 1 := hstops.ends
  rw [hassign] at hends
  exact absurd hends (by decide)

/-- An assignment is determined if its value is. -/
theorem unique_assign {target : String} {value : Phrase} (hunique : Unique .expression value) :
    Unique .expression (.assign target value) := by
  refine ⟨.assign hunique.derives, fun other rest rest' hother hstops hstops' heq => ?_⟩
  obtain ⟨condition', consequent', rfl, -⟩ | ⟨condition', consequent', alternative', rfl, -⟩ |
    ⟨target', value', rfl, hvalue'⟩ | hor := hother.expression_cases
  · cases (List.cons.inj heq).1
  · cases (List.cons.inj heq).1
  · simp only [Phrase.terminals, List.cons_append, List.cons.injEq, Terminal.plain,
      Terminal.mk.injEq, TokenKind.identifier.injEq, and_true, true_and] at heq
    obtain ⟨rfl, hvalues⟩ := heq
    obtain ⟨rfl, hrest⟩ := hunique.only hvalue' ⟨hstops.elseNearest, hstops.ends, hstops.closed⟩
      ⟨hstops'.elseNearest, hstops'.ends, hstops'.closed⟩ hvalues
    exact ⟨rfl, hrest⟩
  · have hsecond := hstops'.not_secondAssigns hor
    rw [← heq] at hsecond
    exact absurd rfl hsecond

/-- The condition of a conditional is determined up to its `then`. -/
theorem condition_unique {condition condition' : Phrase} {rest rest' : List Terminal}
    (hunique : Unique .expression condition) (helse : condition.ElseNearest)
    (hderives' : Derives .expression condition') (helse' : condition'.ElseNearest)
    (heq : Terminal.word .ifWord :: (condition.terminals ++ .word .thenWord :: rest) =
      .word .ifWord :: (condition'.terminals ++ .word .thenWord :: rest')) :
    condition = condition' ∧ rest = rest' := by
  obtain ⟨rfl, hthen⟩ := hunique.only hderives' (stops_cons helse (by decide) (by simp) rest)
    (stops_cons helse' (by decide) (by simp) rest') (List.cons.inj heq).2
  exact ⟨rfl, (List.cons.inj hthen).2⟩

/-- The consequent of a conditional without an `else`. -/
theorem Stops.consequent {condition consequent : Phrase} {rest : List Terminal}
    (hstops : Stops .expression (.ifThen condition consequent) rest) :
    Stops .expression consequent rest :=
  ⟨hstops.elseNearest.2, hstops.ends, fun _ => hstops.closed rfl⟩

/-- The consequent in front of an `else`. -/
theorem stops_else {consequent : Phrase} (helse : consequent.ElseNearest)
    (hclosed : consequent.isOpen = false) (rest : List Terminal) :
    Stops .expression consequent (.word .elseWord :: rest) := by
  refine ⟨helse, ends_cons (by decide) rest, fun hopen => ?_⟩
  rw [hclosed] at hopen
  cases hopen

/-- A conditional without an `else` is determined if its parts are: as it stops, no `else` comes
    behind it. -/
theorem unique_ifThen {condition consequent : Phrase} (hcondition : Unique .expression condition)
    (hconsequent : Unique .expression consequent) :
    Unique .expression (.ifThen condition consequent) := by
  refine ⟨.ifThen hcondition.derives hconsequent.derives,
    fun other rest rest' hother hstops hstops' heq => ?_⟩
  rw [Phrase.terminals, List.cons_append, List.append_assoc, List.cons_append] at heq
  obtain ⟨condition', consequent', rfl, hcondition', hconsequent'⟩ |
    ⟨condition', consequent', alternative', rfl, hcondition', hconsequent', -⟩ |
    ⟨target', value', rfl, -⟩ | hor := hother.expression_cases
  · rw [Phrase.terminals, List.cons_append, List.append_assoc, List.cons_append] at heq
    obtain ⟨rfl, hbehind⟩ := condition_unique hcondition hstops.elseNearest.1 hcondition'
      hstops'.elseNearest.1 heq
    obtain ⟨rfl, hrest⟩ :=
      hconsequent.only hconsequent' hstops.consequent hstops'.consequent hbehind
    exact ⟨rfl, hrest⟩
  · obtain ⟨hclosed', hconditionElse', hconsequentElse', -⟩ := hstops'.elseNearest
    rw [Phrase.terminals, List.cons_append, List.append_assoc, List.cons_append, List.append_assoc,
      List.cons_append] at heq
    obtain ⟨rfl, hbehind⟩ := condition_unique hcondition hstops.elseNearest.1 hcondition'
      hconditionElse' heq
    obtain ⟨-, hrest⟩ := hconsequent.only hconsequent' hstops.consequent
      (stops_else hconsequentElse' hclosed' _) hbehind
    -- The open conditional would stop in front of an `else`.
    have hnext := hstops.closed rfl
    rw [hrest] at hnext
    exact absurd rfl hnext
  · cases (List.cons.inj heq).1
  · have hif := hor.not_if rest'
    rw [← heq] at hif
    exact absurd rfl hif

/-- A conditional with an `else` is determined if its parts are: each `else` is at the nearest `if`,
    so none of its own has been taken by the consequent. -/
theorem unique_ifThenElse {condition consequent alternative : Phrase}
    (hcondition : Unique .expression condition) (hconsequent : Unique .expression consequent)
    (halternative : Unique .expression alternative) :
    Unique .expression (.ifThenElse condition consequent alternative) := by
  refine ⟨.ifThenElse hcondition.derives hconsequent.derives halternative.derives,
    fun other rest rest' hother hstops hstops' heq => ?_⟩
  obtain ⟨hclosed, hconditionElse, hconsequentElse, halternativeElse⟩ := hstops.elseNearest
  rw [Phrase.terminals, List.cons_append, List.append_assoc, List.cons_append, List.append_assoc,
    List.cons_append] at heq
  obtain ⟨condition', consequent', rfl, hcondition', hconsequent'⟩ |
    ⟨condition', consequent', alternative', rfl, hcondition', hconsequent', halternative'⟩ |
    ⟨target', value', rfl, -⟩ | hor := hother.expression_cases
  · rw [Phrase.terminals, List.cons_append, List.append_assoc, List.cons_append] at heq
    obtain ⟨rfl, hbehind⟩ := condition_unique hcondition hconditionElse hcondition'
      hstops'.elseNearest.1 heq
    obtain ⟨-, hrest⟩ := hconsequent.only hconsequent' (stops_else hconsequentElse hclosed _)
      hstops'.consequent hbehind
    have hnext := hstops'.closed rfl
    rw [← hrest] at hnext
    exact absurd rfl hnext
  · obtain ⟨hclosed', hconditionElse', hconsequentElse', halternativeElse'⟩ := hstops'.elseNearest
    rw [Phrase.terminals, List.cons_append, List.append_assoc, List.cons_append, List.append_assoc,
      List.cons_append] at heq
    obtain ⟨rfl, hbehind⟩ := condition_unique hcondition hconditionElse hcondition'
      hconditionElse' heq
    obtain ⟨rfl, helse⟩ := hconsequent.only hconsequent' (stops_else hconsequentElse hclosed _)
      (stops_else hconsequentElse' hclosed' _) hbehind
    obtain ⟨rfl, hrest⟩ := halternative.only halternative'
      ⟨halternativeElse, hstops.ends, hstops.closed⟩
      ⟨halternativeElse', hstops'.ends, hstops'.closed⟩ (List.cons.inj helse).2
    exact ⟨rfl, hrest⟩
  · cases (List.cons.inj heq).1
  · have hif := hor.not_if rest'
    rw [← heq] at hif
    exact absurd rfl hif

/-- An expression that is neither a conditional nor an assignment. -/
theorem Unique.expression {phrase : Phrase} (hunique : Unique .or phrase) :
    Unique .expression phrase := by
  refine ⟨.tighter (by simp) hunique.derives, fun other rest rest' hother hstops hstops' heq => ?_⟩
  have hif := hunique.derives.not_if rest
  have hsecond := hstops.not_secondAssigns hunique.derives
  rw [heq] at hif hsecond
  obtain ⟨condition', consequent', rfl, -⟩ | ⟨condition', consequent', alternative', rfl, -⟩ |
    ⟨target', value', rfl, -⟩ | hor := hother.expression_cases
  · exact absurd rfl hif
  · exact absurd rfl hif
  · exact absurd rfl hsecond
  · exact hunique.only hor (hstops.tighter (by simp)) (hstops'.tighter (by simp)) heq

/-- Of a category that does not group to the left nothing more is asked. -/
theorem Unique.alone {category : Category} {phrase : Phrase} (hunique : Unique category phrase)
    (hleft : ¬ category.GroupsLeft) :
    Unique category phrase ∧ (category.GroupsLeft → Linked Unique category phrase) :=
  ⟨hunique, fun h => absurd h hleft⟩

/-- Every phrase is the only one with its terminals. For a category that groups to the left, so is
    every phrase that it is linked from. -/
theorem Derives.unique_linked {category : Category} {phrase : Phrase}
    (hderives : Derives category phrase) :
    Unique category phrase ∧ (category.GroupsLeft → Linked Unique category phrase) := by
  induction hderives with
  | number | text | price | name => exact (unique_single (by constructor) rfl rfl).alone (by decide)
  | truth value => cases value <;> exact (unique_single (.truth _) rfl rfl).alone (by decide)
  | call _ ih => exact (unique_call fun argument hmem => (ih argument hmem).1).alone (by decide)
  | group _ ih => exact (unique_group ih.1).alone (by decide)
  | unary _ ih => exact (unique_unary ih.1).alone (by decide)
  | power _ _ ihbase ihexponent => exact (unique_power ihbase.1 ihexponent.1).alone (by decide)
  | assign _ ih => exact (unique_assign ih.1).alone (by decide)
  | ifThen _ _ ihcondition ihconsequent =>
    exact (unique_ifThen ihcondition.1 ihconsequent.1).alone (by decide)
  | ifThenElse _ _ _ ihcondition ihconsequent ihalternative =>
    exact (unique_ifThenElse ihcondition.1 ihconsequent.1 ihalternative.1).alone (by decide)
  | @past object offset hobject hoffset ihobject ihoffset =>
    have hleft : Category.indexed.GroupsLeft := by decide
    have hlink : (Link.index offset).Of Unique .indexed := ⟨rfl, ihoffset.1⟩
    have hlinked := (ihobject.2 hleft).onto hlink
    exact ⟨unique_of_linked (.past hobject hoffset) hleft hlinked, fun _ => hlinked⟩
  | @joined category operator left right hoperator hpower hleft hright ihleft ihright =>
    have hchain : category.GroupsLeft :=
      .inl (Category.isChain_of_operatorCategory hoperator hpower)
    have hlink : (Link.join operator right).Of Unique category := ⟨hoperator, hpower, ihright.1⟩
    have hlinked := (ihleft.2 hchain).onto hlink
    exact ⟨unique_of_linked (.joined hoperator hpower hleft hright) hchain hlinked,
      fun _ => hlinked⟩
  | @tighter category phrase hprimary hphrase ih =>
    -- The phrase is its own head, with no links behind it.
    have hlinked : Linked Unique category phrase := linked_of_tighter ih.1
    have hleft : category.GroupsLeft → Unique category phrase := fun hleft =>
      unique_of_linked (.tighter hprimary hphrase) hleft hlinked
    refine ⟨?_, fun _ => hlinked⟩
    cases category with
    | expression => exact ih.1.expression
    | power => exact ih.1.power
    | unary => exact ih.1.unary
    | primary => exact absurd rfl hprimary
    | or | and | equality | comparison | sum | product | indexed => exact hleft (by decide)

/-- Every derived phrase is determined. -/
theorem Derives.unique {category : Category} {phrase : Phrase}
    (hderives : Derives category phrase) :
    Unique category phrase :=
  hderives.unique_linked.1

end Candlewick.Grammar
