import Candlewick.Proofs.Grammar.Blame.Operators
import Candlewick.Proofs.Grammar.Soundness.Expression

namespace Candlewick.Grammar

variable {tokens : List Token} {limits : Limits} {deeper : Deeper} {expression : Reader Node}
  (hend : ∀ token ∈ tokens.getLast?, token.kind = .sourceEnd)
include hend

/-- A token that does not fit in the head of a conditional stands behind the beginning of one. -/
theorem conditionalHead_blames (hexpression : Precise tokens .expression expression) {s : State}
    (hs : Inside tokens s) (hif : (first s.terminals).kind = .keyword .ifWord) :
    Leads (Blames tokens s BeginsHead) (conditionalHead expression) s fun _ _ => True := by
  have hterminals : s.terminals = [.word .ifWord] ++ s.skipped.terminals :=
    State.terminals_eq_word hif (by simp)
  simp only [conditionalHead, leads_bind, leads_expectWord, leads_accept, leads_ite, if_true,
    Bool.false_eq_true, if_false, leads_pure, leads_peekKind, if_pos hif]
  apply (hexpression.leads (hs.skipped hend (by simp [hif]))).mono
    fun e he => he.behind hterminals fun _ => .condition
  rintro node later ⟨hlater, condition, hfound, rfl⟩
  have hcondition : condition.IsExpression := ⟨hfound.derives, hfound.elseNearest⟩
  rw [hfound.terminals, ← List.append_assoc] at hterminals
  split
  · rename_i hthen
    have hskipped := hlater.skipped hend (by simp [hthen])
    rw [State.terminals_eq_word hthen (by simp)] at hterminals
    split
    · trivial
    · split
      · trivial
      · refine (hexpression.blames _ hskipped).blamedBehind
          (hterminals.trans (List.append_cons _ _ _)) fun part hpart => ?_
        simpa using BeginsHead.consequent hcondition hpart
  · exact .later hterminals hlater (.condition (.whole hfound.derives hfound.elseNearest)) _

/-- The head of a conditional is found, or blamed at such a token. -/
theorem conditionalHead_leads (hexpression : Precise tokens .expression expression) {s : State}
    (hs : Inside tokens s) (hif : (first s.terminals).kind = .keyword .ifWord) :
    Leads (Blames tokens s BeginsHead) (conditionalHead expression) s fun head later =>
      Inside tokens later ∧ FoundHead s later head := by
  apply (((conditionalHead_blames hend hexpression hs hif).and
    (conditionalHead_stays hend hexpression.stays s hs)).and
    (conditionalHead_sound hexpression.sound s)).mono fun _ h => h
  rintro head later ⟨⟨-, hlater⟩, hhead⟩
  exact ⟨hlater, hhead⟩

/-- Behind the head, a token that does not fit stands behind the beginning of the whole
    conditional. -/
theorem conditionalEnd_blames (hexpression : Precise tokens .expression expression)
    {start middle s : State} {condition consequent : Phrase} (hs : Inside tokens s)
    (hcondition : FoundCondition start middle condition)
    (hconsequent : Found .expression middle s consequent) (nestedIf : Bool) :
    Leads (Blames tokens start (Begins .expression))
      (conditionalEnd expression condition.node consequent.node nestedIf) s fun _ _ => True := by
  simp only [conditionalEnd, leads_bind, leads_peek, leads_accept, leads_ite, if_true,
    Bool.false_eq_true, if_false, leads_pure, leads_warn]
  by_cases helse : (first s.terminals).kind = .keyword .elseWord
  · rw [if_pos helse]
    have hclosed : consequent.isOpen = false :=
      Bool.eq_false_iff.2 fun hopen => hconsequent.closed hopen helse
    have hterminals : start.terminals = (.word .ifWord :: (condition.terminals ++
        .word .thenWord :: (consequent.terminals ++ [.word .elseWord]))) ++ s.skipped.terminals := by
      rw [hcondition.terminals, hconsequent.terminals, State.terminals_eq_word helse (by simp)]
      simp
    refine (hexpression.blames _ (hs.skipped hend (by simp [helse]))).blamedBehind hterminals
      fun part hpart => ?_
    simpa using hpart.alternative hcondition.condition
      ⟨hconsequent.derives, hconsequent.elseNearest⟩ hclosed
  · rw [if_neg helse]
    split <;> trivial

/-- A rule in the place of an expression is blamed on its `if`, where the expression begins. -/
theorem conditional_blames (hexpression : Precise tokens .expression expression) {s : State}
    (hs : Inside tokens s) (hif : (first s.terminals).kind = .keyword .ifWord) :
    Leads (Blames tokens s (Begins .expression)) (conditional expression) s fun _ _ => True := by
  simp only [conditional, leads_bind, leads_peek]
  apply (conditionalHead_leads hend hexpression hs hif).mono
    fun e he => he.imp fun _ hhead => hhead.begins
  rintro head later ⟨hlater, hhead⟩
  cases hhead with
  | @rule rule => rcases rule with ⟨condition, _ | _⟩ <;> exact .here hs (.nil _) _
  | expression hcondition hconsequent =>
    exact conditionalEnd_blames hend hexpression hlater hcondition hconsequent _

/-- The reader of expressions is precise if the readers one level deeper are. -/
theorem expressionHere_precise (hdeeper : deeper.Precise tokens) :
    Precise tokens .expression (expressionHere limits deeper) := by
  refine ⟨expressionHere_sound hdeeper.expression.sound hdeeper.unary.sound hdeeper.power.sound,
    expressionHere_stays hend hdeeper.stays, fun s hs => ?_⟩
  simp only [expressionHere, leads_bind, leads_peekKind, leads_peekSecond?]
  split
  case h_1 hif => exact conditional_blames hend hdeeper.expression hs hif
  case h_2 name hname hassign =>
    have hskipped := hs.skipped hend (by simp [hname])
    have hsecond := kind_first_tail hassign
    rw [← State.terminals_skipped] at hsecond
    have hterminals : s.terminals = [.plain (.identifier name), .plain (.mark .assign)] ++
        s.skipped.skipped.terminals := by
      rw [State.terminals_eq_plain hname (by simp) (by simp),
        State.terminals_eq_plain hsecond (by simp) (by simp)]
      rfl
    simp only [leads_bind, leads_skip, leads_pure]
    exact (hdeeper.expression.blames _
      (hskipped.skipped hend (by rw [hsecond]; simp))).blamedBehind hterminals fun _ => .assign name
  case h_3 =>
    exact ((or_precise hend hdeeper).blames s hs).blamed fun _ hpart => hpart.loosen (by decide)

/-- The readers of all levels are precise, by induction on the levels that are left. -/
theorem levels_precise (left : Nat) : (levels limits left).Precise tokens := by
  induction left with
  | zero =>
    have hrefused : ∀ category, Precise tokens category (refuse .nestedTooDeeply) := fun category =>
      ⟨fun _ => trivial, .refuse (by simp), fun s hs => .here hs (.nil category) _⟩
    exact ⟨hrefused _, hrefused _, hrefused _⟩
  | succ left ih =>
    exact ⟨(expressionHere_precise hend ih).nested limits, (power_precise hend ih).nested limits,
      (unary_precise hend ih).nested limits⟩

/-- No reader of expressions blames a token behind the first one that does not fit. -/
theorem expression_precise (limits : Limits) :
    Precise tokens .expression (Grammar.expression limits) :=
  (levels_precise hend _).expression

end Candlewick.Grammar
