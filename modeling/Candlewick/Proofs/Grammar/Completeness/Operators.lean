import Candlewick.Proofs.Grammar.Completeness.Primary
import Candlewick.Proofs.Node.Height

namespace Candlewick.Grammar

variable {limits : Limits}

/-- A tree that fits is joined, whether or not the depth of its left part is known. -/
theorem leads_joinedDepth_of_fits {fits : Prop} {known : Option Nat} {left right joined : Node}
    {s : State} {arrived : Nat → State → Prop}
    (hknown : KnownDepth known left)
    (hjoined : joined.height = max left.height right.height + 1)
    (hfits : fits → joined.height ≤ limits.depth) (harrived : arrived joined.depth s) :
    Leads (TooDeep fits) (joinedDepth limits known left right) s arrived := by
  have hleft : known.getD left.depth = left.depth := by
    cases known with
    | none => rfl
    | some depth => exact hknown depth rfl
  have hdepth : max (known.getD left.depth) right.depth + 1 = joined.depth := by
    rw [hleft, Node.depth_eq_height, Node.depth_eq_height, Node.depth_eq_height, hjoined]
  rw [leads_joinedDepth, hdepth]
  by_cases hdeep : limits.depth < joined.depth
  · rw [if_pos hdeep]
    refine ⟨rfl, fun h => ?_⟩
    have hheight := hfits h
    rw [Node.depth_eq_height] at hdeep
    omega
  · rw [if_neg hdeep]
    exact harrived

/-- An index goes on from its object. -/
theorem Continues.past {object offset : Phrase} (hobject : Continues limits .indexed object)
    (hoffset : Complete limits .expression offset) (hclosed : object.isOpen = false) :
    Continues limits .indexed (.past object offset) := by
  intro fits s rest arrived hahead harrived
  have hterminals : s.terminals = object.terminals ++ .sign .leftBracket ::
      (offset.terminals ++ .sign .rightBracket :: rest) := by
    rw [hahead.terminals, Phrase.terminals]
    simp
  have hobjectAhead : Ahead limits .primary fits s object
      (.sign .leftBracket :: (offset.terminals ++ .sign .rightBracket :: rest)) :=
    ⟨hahead.level, hterminals, ends_cons (by decide) _, by simp [hclosed],
      fun h => (hahead.fits h).past.1⟩
  apply hobject hobjectAhead
  intro later fuel known hlater hfuel hknown hobjectNesting
  obtain ⟨fuel, rfl⟩ : ∃ more, fuel = more + 1 := by
    rw [List.length_cons] at hfuel
    exact ⟨fuel - 1, by omega⟩
  simp only [Category.onward, postfixFrom, leads_bind, leads_accept, leads_ite, if_true,
    Bool.false_eq_true, if_false, leads_expectSign, leads_pure, hlater.terminals, first_cons,
    Terminal.kind_sign, deeperAt_expression hahead.level]
  apply hoffset.below hlater.skipped.nesting hlater.skipped.terminals (ends_cons (by decide) _)
    (by simp) fun h => (hahead.fits h).past.2
  intro last hlast hoffsetNesting
  rw [hlast.terminals, first_cons, Terminal.kind_sign, if_pos rfl]
  have hjoined : (Phrase.past object offset).node.height =
      max object.node.height offset.node.height + 1 := rfl
  apply leads_joinedDepth_of_fits hknown hjoined fun h => (hahead.fits h).height
  refine harrived _ fuel _ (hlater.skipped.trans hlast.skipped) ?_
    (knownDepth_some _) ?_
  · rw [List.length_cons, List.length_append, List.length_cons] at hfuel
    omega
  · simp only [Phrase.nesting]
    omega

/-- A power whose base and exponent are read. -/
theorem complete_power {base exponent : Phrase} (hbase : Complete limits .unary base)
    (hexponent : Complete limits .power exponent) (hbaseClosed : base.isOpen = false)
    (hexponentClosed : exponent.isOpen = false) :
    Complete limits .power (.binary .pow base exponent) := by
  intro fits s rest arrived hahead harrived
  have hterminals : s.terminals = base.terminals ++ .plain (.mark .caret) ::
      (exponent.terminals ++ rest) := by
    rw [hahead.terminals, Phrase.terminals]
    simp [binaryTerminal]
  have hbaseAhead : Ahead limits .unary fits s base
      (.plain (.mark .caret) :: (exponent.terminals ++ rest)) :=
    ⟨hahead.level, hterminals, ends_cons (by decide) _, by simp [hbaseClosed],
      fun h => (hahead.fits h).power.1⟩
  simp only [Category.reader, Grammar.power, leads_bind, leads_accept, leads_ite, if_true,
    Bool.false_eq_true, if_false, leads_pure]
  apply hbase hbaseAhead
  intro later hlater hbaseNesting
  rw [hlater.terminals, first_cons, Terminal.kind_plain, if_pos rfl,
    deeperAt_power hahead.level]
  apply hexponent.below hlater.skipped.nesting hlater.skipped.terminals hahead.ends
    (by simp [hexponentClosed]) fun h => (hahead.fits h).power.2
  intro last hlast hexponentNesting
  apply harrived last (hlater.skipped.trans hlast)
  simp only [Phrase.nesting]
  omega

/-- An operator in front of an operand is read if the operand is. -/
theorem complete_unary {operator : UnaryOperator} {operand : Phrase}
    (hoperand : Complete limits .unary operand) (hclosed : operand.isOpen = false) :
    Complete limits .unary (.unary operator operand) := by
  intro fits s rest arrived hahead harrived
  have hterminals : s.terminals = unaryTerminal operator :: (operand.terminals ++ rest) :=
    hahead.terminals
  have hbehind := behind_skipped hterminals
  have hbelow : Leads (TooDeep fits) (deeperAt limits s.nesting).unary s.skipped
      fun node later => arrived (.unary operator node) later := by
    rw [deeperAt_unary hahead.level]
    apply hoperand.below hbehind.nesting hbehind.terminals hahead.ends (by simp [hclosed])
      fun h => (hahead.fits h).operand
    intro later hlater hnesting
    apply harrived later (hbehind.trans hlater)
    simp only [Phrase.nesting]
    omega
  cases operator <;>
    simpa only [Category.reader, Grammar.unary, leads_bind, leads_peekKind, hterminals, first_cons,
      unaryTerminal, Terminal.kind_plain, Terminal.kind_word, leads_skip, leads_pure] using hbelow

/-- An operator and its operand take a chain further. -/
theorem Continues.joined {category : Category} {operator : BinaryOperator} {left right : Phrase}
    (hoperator : operatorCategory operator = category) (hpower : category ≠ .power)
    (hleft : Continues limits category left) (hright : Complete limits category.tighter right)
    (hleftClosed : left.isOpen = false) (hrightClosed : right.isOpen = false) :
    Continues limits category (.binary operator left right) := by
  intro fits s rest arrived hahead harrived
  have hchain := Category.isChain_of_operatorCategory hoperator hpower
  have hpow : operator ≠ .pow := by
    rintro rfl
    exact hpower hoperator.symm
  have hterminals : s.terminals =
      left.terminals ++ binaryTerminal operator :: (right.terminals ++ rest) := by
    rw [hahead.terminals, Phrase.terminals]
    simp
  have hleftAhead : Ahead limits category.part fits s left
      (binaryTerminal operator :: (right.terminals ++ rest)) := by
    refine ⟨hahead.level, hterminals, ?_, by simp [hleftClosed],
      fun h => ((hahead.fits h).joined hpow).1⟩
    apply ends_binaryTerminal
    rw [hoperator, Category.part_chain hchain,
      Category.rank_tighter (Category.ne_primary_of_isChain hchain)]
    exact Nat.lt_succ_self _
  have hends : Ends category.tighter rest := by
    rw [← Category.part_chain hchain]
    exact hahead.ends
  apply hleft hleftAhead
  intro later fuel known hlater hfuel hknown hleftNesting
  obtain ⟨fuel, rfl⟩ : ∃ more, fuel = more + 1 := by
    rw [List.length_cons] at hfuel
    exact ⟨fuel - 1, by omega⟩
  have htable : category.operators (first later.terminals).kind = some operator := by
    rw [hlater.terminals]
    exact (Category.operators_eq_some_iff hchain).2 ⟨rfl, hoperator⟩
  rw [Category.onward_chain hchain]
  simp only [chainFrom, leads_bind, leads_peekKind, htable, leads_skip]
  have hrightAhead : Ahead limits category.tighter fits later.skipped right rest := by
    refine ⟨?_, hlater.skipped.terminals, hends, by simp [hrightClosed], ?_⟩
    · rw [hlater.skipped.nesting]
      exact hahead.level
    · rw [hlater.skipped.nesting]
      exact fun h => ((hahead.fits h).joined hpow).2
  have hlevel : deeperAt limits s.nesting = deeperAt limits later.skipped.nesting := by
    rw [hlater.skipped.nesting]
  rw [hlevel]
  apply hright hrightAhead
  intro last hlast hrightNesting
  have hjoined : (Phrase.binary operator left right).node.height =
      max left.node.height right.node.height + 1 := rfl
  apply leads_joinedDepth_of_fits hknown hjoined fun h => (hahead.fits h).height
  rw [← hlevel, ← Category.onward_chain hchain]
  refine harrived last fuel _ (hlater.skipped.trans hlast) ?_
    (knownDepth_some _) ?_
  · rw [List.length_cons, List.length_append] at hfuel
    omega
  · rw [hlater.skipped.nesting] at hrightNesting
    rw [Phrase.nesting_binary hpow]
    omega

/-- The first operand of a chain. -/
theorem Complete.continues_chain {category : Category} {phrase : Phrase}
    (hchain : category.IsChain) (hcomplete : Complete limits category.tighter phrase) :
    Continues limits category phrase := by
  intro fits s rest arrived hahead harrived
  rw [Category.reader_chain hchain]
  simp only [chain, leads_bind, leads_remaining]
  have hoperand : Ahead limits category.tighter fits s phrase rest := by
    rw [← Category.part_chain hchain]
    exact hahead
  apply hcomplete hoperand
  intro later hlater hnesting
  rw [← Category.onward_chain hchain]
  have hfuel : rest.length < later.terminals.length + 1 :=
    hlater.terminals ▸ Nat.lt_succ_self _
  exact harrived later _ none hlater hfuel (knownDepth_none _) hnesting

/-- The object of the first index. -/
theorem Complete.continues_indexed {phrase : Phrase} (hcomplete : Complete limits .primary phrase) :
    Continues limits .indexed phrase := by
  intro fits s rest arrived hahead harrived
  simp only [Category.reader, indexed, leads_bind, leads_remaining]
  apply hcomplete hahead
  intro later hlater hnesting
  have hfuel : rest.length < later.terminals.length + 1 :=
    hlater.terminals ▸ Nat.lt_succ_self _
  exact harrived later _ none hlater hfuel (knownDepth_none _) hnesting

/-- An operand without an operator in front. -/
theorem Complete.unary {phrase : Phrase} (hderives : Derives .indexed phrase)
    (hcomplete : Complete limits .indexed phrase) : Complete limits .unary phrase := by
  intro fits s rest arrived hahead harrived
  have hminus : (first s.terminals).kind ≠ .mark .minus := by
    rw [hahead.terminals]
    exact hderives.first_kind_ne (by decide) rest
  have hnot : (first s.terminals).kind ≠ .keyword .notWord := by
    rw [hahead.terminals]
    exact hderives.first_kind_ne (by decide) rest
  have hindexed : Ahead limits .indexed fits s phrase rest := hahead.of_rank_le (by decide)
  simp only [Category.reader, Grammar.unary, leads_bind, leads_peekKind]
  exact hcomplete hindexed harrived

/-- A base without an exponent. -/
theorem Complete.power {phrase : Phrase} (hcomplete : Complete limits .unary phrase) :
    Complete limits .power phrase := by
  intro fits s rest arrived hahead harrived
  have hends : Ends .power rest := hahead.ends
  have hunary : Ahead limits .unary fits s phrase rest := hahead.of_rank_le (by decide)
  simp only [Category.reader, Grammar.power, leads_bind, leads_accept, leads_ite, if_true,
    Bool.false_eq_true, if_false, leads_pure]
  apply hcomplete hunary
  intro later hlater hnesting
  have hcaret : (first later.terminals).kind ≠ .mark .caret := by
    intro hkind
    rw [← hlater.terminals, Ends, hkind] at hends
    exact absurd hends (by decide)
  rw [if_neg hcaret]
  exact harrived later hlater hnesting

end Candlewick.Grammar
