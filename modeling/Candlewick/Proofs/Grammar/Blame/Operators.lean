import Candlewick.Proofs.Grammar.Blame.Primary
import Candlewick.Proofs.Grammar.Soundness.Operators

namespace Candlewick.Grammar

variable {tokens : List Token} {limits : Limits} {deeper : Deeper}
  (hend : ∀ token ∈ tokens.getLast?, token.kind = .sourceEnd)
include hend

/-- Behind a phrase an index can begin. -/
theorem postfixFrom_blames (hexpression : Precise tokens .expression deeper.expression) (fuel : Nat)
    (known : Option Nat) {s start : State} {phrase : Phrase} (hs : Inside tokens s)
    (hfound : Found .indexed start s phrase) :
    Leads (Blames tokens start (Begins .indexed))
      (postfixFrom outOfRounds limits deeper fuel known phrase.node) s fun _ _ => True := by
  induction fuel generalizing known s phrase with
  | zero => exact .later hfound.terminals hs (.whole hfound.derives hfound.elseNearest) _
  | succ fuel ih =>
    simp only [postfixFrom, leads_bind, leads_accept, leads_ite, if_true, Bool.false_eq_true,
      if_false, leads_expectSign, leads_pure, leads_joinedDepth]
    by_cases hbracket : (first s.terminals).kind = .punctuation .leftBracket
    · rw [if_pos hbracket]
      have hterminals : start.terminals =
          (phrase.terminals ++ [.sign .leftBracket]) ++ s.skipped.terminals := by
        rw [hfound.terminals, State.terminals_eq_sign hbracket]
        simp
      have hindex : ∀ part, Begins .expression part →
          Begins .indexed ((phrase.terminals ++ [.sign .leftBracket]) ++ part) := by
        intro part hpart
        rw [List.append_assoc]
        exact .past hfound.derives hfound.elseNearest hpart
      apply (hexpression.leads (hs.skipped hend (by simp [hbracket]))).mono
        fun e he => he.behind hterminals hindex
      rintro node later ⟨hlater, offset, hoffset, rfl⟩
      rw [hoffset.terminals, ← List.append_assoc] at hterminals
      by_cases hclose : (first later.terminals).kind = .punctuation .rightBracket
      · rw [if_pos hclose]
        have hpast : Found .indexed start later.skipped (.past phrase offset) :=
          hfound.past hbracket hoffset hclose
        have hskipped := hlater.skipped hend (by simp [hclose])
        split
        · exact .later hpast.terminals hskipped (.whole hpast.derives hpast.elseNearest) _
        · exact ih _ hskipped hpast
      · rw [if_neg hclose]
        exact .later hterminals hlater (hindex _ (.whole hoffset.derives hoffset.elseNearest)) _
    · rw [if_neg hbracket]
      trivial

/-- The reader of indices is precise if the readers one level deeper are. -/
theorem indexed_precise (hdeeper : deeper.Precise tokens) :
    Precise tokens .indexed (indexed limits deeper) := by
  refine ⟨indexed_sound hdeeper.expression.sound, indexed_stays hend hdeeper.stays,
    fun s hs => ?_⟩
  simp only [indexed, leads_bind, leads_remaining]
  apply ((primary_precise hend hdeeper).leads hs).mono
    fun e he => he.imp fun _ hpart => hpart.loosen (by decide)
  rintro node later ⟨hlater, phrase, hfound, rfl⟩
  exact postfixFrom_blames hend hdeeper.expression _ none hlater
    (hfound.tighter .indexed rfl (by simp))

theorem unary_precise (hdeeper : deeper.Precise tokens) :
    Precise tokens .unary (unary limits deeper) := by
  refine ⟨unary_sound hdeeper.expression.sound hdeeper.unary.sound,
    unary_stays hend hdeeper.stays, fun s hs => ?_⟩
  -- an operator has been seen, and an operand is read behind it
  have hoperand : ∀ operator : UnaryOperator, (first s.terminals).kind ≠ .sourceEnd →
      s.terminals = [unaryTerminal operator] ++ s.skipped.terminals →
      Leads (Blames tokens s (Begins .unary)) deeper.unary s.skipped fun _ _ => True := by
    intro operator hkind hterminals
    exact (hdeeper.unary.blames _ (hs.skipped hend hkind)).blamedBehind hterminals
      fun _ => .unary operator
  simp only [unary, leads_bind, leads_peekKind]
  split
  case h_1 hkind =>
    simp only [leads_bind, leads_skip, leads_pure]
    exact hoperand .neg (by simp [hkind]) (State.terminals_eq_plain hkind (by simp) (by simp))
  case h_2 hkind =>
    simp only [leads_bind, leads_skip, leads_pure]
    exact hoperand .not (by simp [hkind]) (State.terminals_eq_word hkind (by simp))
  case h_3 =>
    exact ((indexed_precise hend hdeeper).blames s hs).blamed
      fun _ hpart => hpart.loosen (by decide)

theorem power_precise (hdeeper : deeper.Precise tokens) :
    Precise tokens .power (power limits deeper) := by
  refine ⟨power_sound hdeeper.expression.sound hdeeper.unary.sound hdeeper.power.sound,
    power_stays hend hdeeper.stays, fun s hs => ?_⟩
  simp only [power, leads_bind, leads_accept, leads_ite, if_true, Bool.false_eq_true, if_false,
    leads_pure]
  apply ((unary_precise hend hdeeper).leads hs).mono
    fun e he => he.imp fun _ hpart => hpart.loosen (by decide)
  rintro node later ⟨hlater, base, hbase, rfl⟩
  by_cases hcaret : (first later.terminals).kind = .mark .caret
  · rw [if_pos hcaret]
    have hterminals : s.terminals =
        (base.terminals ++ [.plain (.mark .caret)]) ++ later.skipped.terminals := by
      rw [hbase.terminals, State.terminals_eq_plain hcaret (by simp) (by simp)]
      simp
    refine (hdeeper.power.blames _ (hlater.skipped hend (by simp [hcaret]))).blamedBehind hterminals
      fun part hpart => ?_
    rw [List.append_assoc]
    exact .power hbase.derives hbase.elseNearest hpart
  · rw [if_neg hcaret]
    trivial

/-- Behind a phrase an operator of its chain can stand. -/
theorem chainFrom_blames {category : Category} (hchain : category.IsChain) {operand : Reader Node}
    (hoperand : Precise tokens category.tighter operand) (fuel : Nat) (known : Option Nat)
    {s start : State} {phrase : Phrase} (hs : Inside tokens s)
    (hfound : Found category start s phrase) :
    Leads (Blames tokens start (Begins category))
      (chainFrom outOfRounds limits category.operators operand fuel known phrase.node) s
      fun _ _ => True := by
  induction fuel generalizing known s phrase with
  | zero => exact .later hfound.terminals hs (.whole hfound.derives hfound.elseNearest) _
  | succ fuel ih =>
    simp only [chainFrom, leads_bind, leads_peekKind]
    split
    · trivial
    · rename_i operator htable
      obtain ⟨hkind, hoperator⟩ := (Category.operators_eq_some_iff hchain).1 htable
      have hpower : category ≠ .power := by
        rintro rfl
        exact absurd hchain.2 (by decide)
      have hskipped : Inside tokens s.skipped :=
        hs.skipped hend (by rw [hkind]; cases operator <;> simp [binaryTerminal])
      have hterminals : start.terminals =
          (phrase.terminals ++ [binaryTerminal operator]) ++ s.skipped.terminals := by
        rw [hfound.terminals, State.terminals_eq_binary hkind]
        simp
      simp only [leads_bind, leads_skip, leads_joinedDepth]
      apply (hoperand.leads hskipped).mono
      · intro e he
        refine he.behind hterminals fun part hpart => ?_
        rw [List.append_assoc]
        exact .joined hoperator hpower hfound.derives hfound.elseNearest hpart
      · rintro node later ⟨hlater, right, hright, rfl⟩
        have hjoined := hfound.joined hchain hoperator hkind hright
        split
        · exact .later hjoined.terminals hlater (.whole hjoined.derives hjoined.elseNearest) _
        · exact ih _ hlater hjoined

/-- The reader of a chain is precise if the reader of its operands is. -/
theorem chain_precise {category : Category} (hchain : category.IsChain)
    (hoperand : Precise tokens category.tighter (category.tighter.reader limits deeper)) :
    Precise tokens category (category.reader limits deeper) := by
  have hprimary := Category.ne_primary_of_isChain hchain
  have hoperators : category.operators .sourceEnd = none := by
    refine Option.eq_none_iff_forall_ne_some.2 fun operator htable => ?_
    have hkind := ((Category.operators_eq_some_iff hchain).1 htable).1
    cases operator <;> cases hkind
  refine ⟨chain_sound hchain hoperand.sound, ?_, fun s hs => ?_⟩
  · rw [Category.reader_chain hchain]
    exact hoperand.stays.bind fun left => Stays.remaining.bind fun fuel =>
      chainFrom_stays hend hoperators hoperand.stays (fuel + 1) none left
  · rw [Category.reader_chain hchain]
    simp only [chain, leads_bind, leads_remaining]
    apply (hoperand.leads hs).mono
    · intro e he
      refine he.imp fun _ hpart => hpart.loosen ?_
      rw [Category.rank_tighter hprimary]
      omega
    · rintro node later ⟨hlater, phrase, hfound, rfl⟩
      exact chainFrom_blames hend hchain hoperand _ none hlater
        (hfound.tighter category rfl hprimary)

/-- The chains of all categories, from the tightest to the loosest. -/
theorem or_precise (hdeeper : deeper.Precise tokens) :
    Precise tokens .or (chains limits deeper chainOperators) := by
  have hproduct : Precise tokens .product (Category.product.reader limits deeper) :=
    chain_precise hend ⟨by decide, by decide⟩ (power_precise hend hdeeper)
  have hsum : Precise tokens .sum (Category.sum.reader limits deeper) :=
    chain_precise hend ⟨by decide, by decide⟩ hproduct
  have hcomparison : Precise tokens .comparison (Category.comparison.reader limits deeper) :=
    chain_precise hend ⟨by decide, by decide⟩ hsum
  have hequality : Precise tokens .equality (Category.equality.reader limits deeper) :=
    chain_precise hend ⟨by decide, by decide⟩ hcomparison
  have hand : Precise tokens .and (Category.and.reader limits deeper) :=
    chain_precise hend ⟨by decide, by decide⟩ hequality
  exact chain_precise hend ⟨by decide, by decide⟩ hand

end Candlewick.Grammar
