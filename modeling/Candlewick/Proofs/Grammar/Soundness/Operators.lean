import Candlewick.Proofs.Grammar.Soundness.Primary

namespace Candlewick.Grammar

variable {limits : Limits} {deeper : Deeper}

/-- An index behind the phrase of an object. -/
theorem Found.past {start s later : State} {object offset : Phrase}
    (hobject : Found .indexed start s object)
    (hopen : (first s.terminals).kind = .punctuation .leftBracket)
    (hoffset : Found .expression s.skipped later offset)
    (hclose : (first later.terminals).kind = .punctuation .rightBracket) :
    Found .indexed start later.skipped (.past object offset) := by
  refine ⟨.past hobject.derives hoffset.derives, ⟨hobject.elseNearest, hoffset.elseNearest⟩,
    ?_, ?_, ?_⟩
  · rw [hobject.terminals, State.terminals_eq_sign hopen, hoffset.terminals,
      State.terminals_eq_sign hclose]
    simp [Phrase.terminals]
  · intro hopen
    cases hopen
  · rw [State.warnings_skipped, hoffset.warnings, State.warnings_skipped, hobject.warnings,
      Phrase.warned_past, Nat.add_assoc]

/-- Indices take the phrase of an object further. -/
theorem postfixFrom_sound (alarm : ParseFault) (hexpression : Sound .expression deeper.expression) (fuel : Nat)
    (known : Option Nat) {s start : State} {phrase : Phrase}
    (hfound : Found .indexed start s phrase) :
    Leads (fun _ => True) (postfixFrom alarm limits deeper fuel known phrase.node) s fun node later =>
      ∃ whole, Found .indexed start later whole ∧ whole.node = node := by
  induction fuel generalizing known s phrase with
  | zero => trivial
  | succ fuel ih =>
    simp only [postfixFrom, leads_bind, leads_accept, leads_ite, if_true, Bool.false_eq_true,
      if_false, leads_expectSign, leads_pure, leads_joinedDepth]
    by_cases hbracket : (first s.terminals).kind = .punctuation .leftBracket
    · rw [if_pos hbracket]
      apply (hexpression s.skipped).mono fun _ h => h
      rintro node later ⟨offset, hoffset, rfl⟩
      by_cases hclose : (first later.terminals).kind = .punctuation .rightBracket
      · rw [if_pos hclose]
        split
        · trivial
        · exact ih _ (hfound.past hbracket hoffset hclose)
      · rw [if_neg hclose]
        trivial
    · rw [if_neg hbracket]
      exact ⟨phrase, hfound, rfl⟩

/-- What is read as an object with indices is one. -/
theorem indexed_sound (hexpression : Sound .expression deeper.expression) :
    Sound .indexed (indexed limits deeper) := by
  intro s
  simp only [indexed, leads_bind, leads_remaining]
  apply (primary_sound hexpression s).mono fun _ h => h
  rintro node later ⟨phrase, hfound, rfl⟩
  exact postfixFrom_sound _ hexpression _ none (hfound.tighter .indexed rfl (by simp))

/-- An operator in front of the phrase of its operand. -/
theorem Found.unary {s later : State} {operator : UnaryOperator} {operand : Phrase}
    (hfound : Found .unary s.skipped later operand)
    (hterminals : s.terminals = unaryTerminal operator :: s.skipped.terminals) :
    Found .unary s later (.unary operator operand) := by
  refine ⟨.unary hfound.derives, hfound.elseNearest, ?_, ?_, hfound.warnings⟩
  · rw [hterminals, hfound.terminals]
    rfl
  · intro hopen
    cases hopen

/-- What is read behind an operator is its operand. -/
theorem unary_sound (hexpression : Sound .expression deeper.expression)
    (hunary : Sound .unary deeper.unary) : Sound .unary (unary limits deeper) := by
  intro s
  simp only [unary, leads_bind, leads_peekKind]
  split
  case h_1 hkind =>
    simp only [leads_bind, leads_skip, leads_pure]
    apply (hunary s.skipped).mono fun _ h => h
    rintro node later ⟨operand, hfound, rfl⟩
    exact ⟨.unary .neg operand,
      hfound.unary (State.terminals_eq_plain hkind (by simp) (by simp)), rfl⟩
  case h_2 hkind =>
    simp only [leads_bind, leads_skip, leads_pure]
    apply (hunary s.skipped).mono fun _ h => h
    rintro node later ⟨operand, hfound, rfl⟩
    exact ⟨.unary .not operand, hfound.unary (State.terminals_eq_word hkind (by simp)), rfl⟩
  case h_3 =>
    apply (indexed_sound hexpression s).mono fun _ h => h
    rintro node later ⟨phrase, hfound, rfl⟩
    exact ⟨phrase, hfound.tighter .unary rfl (by simp), rfl⟩

theorem power_sound (hexpression : Sound .expression deeper.expression)
    (hunary : Sound .unary deeper.unary) (hpower : Sound .power deeper.power) :
    Sound .power (power limits deeper) := by
  intro s
  simp only [power, leads_bind, leads_accept, leads_ite, if_true, Bool.false_eq_true, if_false,
    leads_pure]
  apply (unary_sound hexpression hunary s).mono fun _ h => h
  rintro node later ⟨base, hbase, rfl⟩
  by_cases hcaret : (first later.terminals).kind = .mark .caret
  · rw [if_pos hcaret]
    apply (hpower later.skipped).mono fun _ h => h
    rintro node last ⟨exponent, hexponent, rfl⟩
    refine ⟨.binary .pow base exponent, ⟨.power hbase.derives hexponent.derives,
      ⟨hbase.elseNearest, hexponent.elseNearest⟩, ?_, ?_, ?_⟩, rfl⟩
    · rw [hbase.terminals, State.terminals_eq_plain hcaret (by simp) (by simp), hexponent.terminals]
      simp [Phrase.terminals, binaryTerminal]
    · intro hopen
      cases hopen
    · rw [hexponent.warnings, State.warnings_skipped, hbase.warnings, Phrase.warned_binary,
        Nat.add_assoc]
  · rw [if_neg hcaret]
    exact ⟨base, hbase.tighter .power rfl (by simp), rfl⟩

/-- An operator and its operand behind the phrase of a chain. -/
theorem Found.joined {category : Category} (hchain : category.IsChain) {start s later : State}
    {operator : BinaryOperator} {left right : Phrase} (hleft : Found category start s left)
    (hoperator : operatorCategory operator = category)
    (hkind : (first s.terminals).kind = (binaryTerminal operator).kind)
    (hright : Found category.tighter s.skipped later right) :
    Found category start later (.binary operator left right) := by
  refine ⟨.joined hoperator ?_ hleft.derives hright.derives,
    ⟨hleft.elseNearest, hright.elseNearest⟩, ?_, ?_, ?_⟩
  · rintro rfl
    exact absurd hchain.2 (by decide)
  · rw [hleft.terminals, State.terminals_eq_binary hkind, hright.terminals]
    simp [Phrase.terminals]
  · intro hopen
    cases hopen
  · rw [hright.warnings, State.warnings_skipped, hleft.warnings, Phrase.warned_binary,
      Nat.add_assoc]

/-- Operators and operands take the phrase of a chain further. -/
theorem chainFrom_sound (alarm : ParseFault) {category : Category} (hchain : category.IsChain) {operand : Reader Node}
    (hoperand : Sound category.tighter operand) (fuel : Nat) (known : Option Nat) {s start : State}
    {phrase : Phrase} (hfound : Found category start s phrase) :
    Leads (fun _ => True) (chainFrom alarm limits category.operators operand fuel known phrase.node) s
      fun node later => ∃ whole, Found category start later whole ∧ whole.node = node := by
  induction fuel generalizing known s phrase with
  | zero => trivial
  | succ fuel ih =>
    simp only [chainFrom, leads_bind, leads_peekKind]
    split
    · exact ⟨phrase, hfound, rfl⟩
    · rename_i operator htable
      obtain ⟨hkind, hoperator⟩ := (Category.operators_eq_some_iff hchain).1 htable
      simp only [leads_bind, leads_skip, leads_joinedDepth]
      apply (hoperand s.skipped).mono fun _ h => h
      rintro node later ⟨right, hright, rfl⟩
      split
      · trivial
      · exact ih _ (hfound.joined hchain hoperator hkind hright)

/-- What is read as a chain is one, if its operands are what they are read as. -/
theorem chain_sound {category : Category} (hchain : category.IsChain)
    (hoperand : Sound category.tighter (category.tighter.reader limits deeper)) :
    Sound category (category.reader limits deeper) := by
  intro s
  rw [Category.reader_chain hchain]
  simp only [chain, leads_bind, leads_remaining]
  apply (hoperand s).mono fun _ h => h
  rintro node later ⟨phrase, hfound, rfl⟩
  exact chainFrom_sound _ hchain hoperand _ none
    (hfound.tighter category rfl (Category.ne_primary_of_isChain hchain))

/-- What the readers of all categories but the loosest read, from the tightest on. -/
theorem Category.sound (hexpression : Sound .expression deeper.expression)
    (hunary : Sound .unary deeper.unary) (hpower : Sound .power deeper.power) {category : Category}
    (hloosest : category ≠ .expression) : Sound category (category.reader limits deeper) := by
  have hproduct : Sound .product (Category.product.reader limits deeper) :=
    chain_sound ⟨by decide, by decide⟩ (power_sound hexpression hunary hpower)
  have hsum : Sound .sum (Category.sum.reader limits deeper) :=
    chain_sound ⟨by decide, by decide⟩ hproduct
  have hcomparison : Sound .comparison (Category.comparison.reader limits deeper) :=
    chain_sound ⟨by decide, by decide⟩ hsum
  have hequality : Sound .equality (Category.equality.reader limits deeper) :=
    chain_sound ⟨by decide, by decide⟩ hcomparison
  have hand : Sound .and (Category.and.reader limits deeper) :=
    chain_sound ⟨by decide, by decide⟩ hequality
  cases category with
  | expression => exact absurd rfl hloosest
  | or => exact chain_sound ⟨by decide, by decide⟩ hand
  | and => exact hand
  | equality => exact hequality
  | comparison => exact hcomparison
  | sum => exact hsum
  | product => exact hproduct
  | power => exact power_sound hexpression hunary hpower
  | unary => exact unary_sound hexpression hunary
  | indexed => exact indexed_sound hexpression
  | primary => exact primary_sound hexpression

end Candlewick.Grammar
