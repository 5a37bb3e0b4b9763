import Candlewick.Proofs.Grammar.Follow
import Candlewick.Proofs.Grammar.Nesting
import Candlewick.Proofs.Grammar.Readers

namespace Candlewick.Grammar

/-- A source is refused for its depth, and not without need. -/
def TooDeep (fits : Prop) (e : ParseError) : Prop :=
  e.fault = .nestedTooDeeply ∧ ¬ fits

/-- The readers below a nesting level. -/
def deeperAt (limits : Limits) (level : Nat) : Deeper :=
  levels limits (limits.nesting + 1 - level)

/-- What a reader of a category goes on with behind the tree it has so far. -/
def Category.onward (limits : Limits) (deeper : Deeper) :
    Category → Nat → Option Nat → Node → Reader Node
  | .expression | .power | .unary | .primary => fun _ _ node => pure node
  | .indexed => postfixFrom outOfRounds limits deeper
  | category =>
    chainFrom outOfRounds limits category.operators (category.tighter.reader limits deeper)

/-- The category whose phrases a reader goes on from: of a chain its operands, of an index its
    object. -/
def Category.part : Category → Category
  | .expression => .expression
  | .power => .power
  | .unary => .unary
  | category => category.tighter

/-- Behind an operand, the reader of a chain goes on with the operators that follow. -/
theorem Category.onward_chain {category : Category} (hchain : category.IsChain) (limits : Limits)
    (deeper : Deeper) :
    category.onward limits deeper =
      chainFrom outOfRounds limits category.operators
        (category.tighter.reader limits deeper) := by
  obtain ⟨hlower, hupper⟩ := hchain
  cases category with
  | or | and | equality | comparison | sum | product => rfl
  | expression => exact absurd hlower (by decide)
  | power | unary | indexed | primary => exact absurd hupper (by decide)

theorem Category.part_chain {category : Category} (hchain : category.IsChain) :
    category.part = category.tighter := by
  obtain ⟨hlower, hupper⟩ := hchain
  cases category with
  | or | and | equality | comparison | sum | product => rfl
  | expression => exact absurd hlower (by decide)
  | power | unary | indexed | primary => exact absurd hupper (by decide)

/-- A phrase stands ahead in a state, with terminals behind it that do not take it further. -/
structure Ahead (limits : Limits) (category : Category) (fits : Prop) (s : State) (phrase : Phrase)
    (rest : List Terminal) : Prop where
  level : s.nesting ≤ limits.nesting
  terminals : s.terminals = phrase.terminals ++ rest
  ends : Ends category rest
  closed : phrase.isOpen = true → (first rest).kind ≠ .keyword .elseWord
  fits : fits → Fits limits s.nesting phrase

/-- A phrase that stands ahead does so for every tighter category as well. -/
theorem Ahead.of_rank_le {limits : Limits} {category other : Category} {fits : Prop} {s : State}
    {phrase : Phrase} {rest : List Terminal} (hahead : Ahead limits category fits s phrase rest)
    (hrank : category.rank ≤ other.rank) : Ahead limits other fits s phrase rest :=
  ⟨hahead.level, hahead.terminals, hahead.ends.of_rank_le hrank, hahead.closed, hahead.fits⟩

/-- A state behind what has been read since another one, at the same level. -/
structure Behind (s : State) (rest : List Terminal) (later : State) : Prop where
  terminals : later.terminals = rest
  nesting : later.nesting = s.nesting

/-- If the depth of a tree is known already, it is known rightly. -/
def KnownDepth (known : Option Nat) (node : Node) : Prop :=
  ∀ depth, known = some depth → depth = node.depth

theorem knownDepth_none (node : Node) : KnownDepth none node := by
  intro depth hknown
  cases hknown

/-- The depth of a tree is known rightly as soon as it has been computed. -/
theorem knownDepth_some (node : Node) : KnownDepth (some node.depth) node :=
  fun _ hknown => (Option.some.inj hknown).symm

/-- The reader of a category reads a phrase and goes on from there. -/
def Continues (limits : Limits) (category : Category) (phrase : Phrase) : Prop :=
  ∀ ⦃fits : Prop⦄ ⦃s : State⦄ ⦃rest : List Terminal⦄ ⦃arrived : Node → State → Prop⦄,
    Ahead limits category.part fits s phrase rest →
    (∀ later fuel known, Behind s rest later → rest.length < fuel →
      KnownDepth known phrase.node →
      s.nesting + phrase.nesting ≤ limits.nesting →
      Leads (TooDeep fits)
        (category.onward limits (deeperAt limits s.nesting) fuel known phrase.node) later arrived) →
    Leads (TooDeep fits) (category.reader limits (deeperAt limits s.nesting)) s arrived

/-- The reader of a category reads a phrase and stops behind it. -/
def Complete (limits : Limits) (category : Category) (phrase : Phrase) : Prop :=
  ∀ ⦃fits : Prop⦄ ⦃s : State⦄ ⦃rest : List Terminal⦄ ⦃arrived : Node → State → Prop⦄,
    Ahead limits category fits s phrase rest →
    (∀ later, Behind s rest later → s.nesting + phrase.nesting ≤ limits.nesting →
      arrived phrase.node later) →
    Leads (TooDeep fits) (category.reader limits (deeperAt limits s.nesting)) s arrived

/-- Where a phrase of the category ends there is nothing to go on with. -/
theorem leads_onward {limits : Limits} {deeper : Deeper} {category : Category} {fuel : Nat}
    {known : Option Nat} {node : Node} {refused : ParseError → Prop} {s : State}
    {arrived : Node → State → Prop} (hends : Ends category s.terminals)
    (harrived : arrived node s) :
    Leads refused (category.onward limits deeper (fuel + 1) known node) s arrived := by
  have hchain : category.IsChain → Leads refused
      (chainFrom outOfRounds limits category.operators (category.tighter.reader limits deeper)
        (fuel + 1) known node) s arrived := by
    intro hchain
    simp only [chainFrom, leads_bind, leads_peekKind]
    cases htable : category.operators (first s.terminals).kind with
    | none => exact harrived
    | some operator =>
      obtain ⟨hkind, rfl⟩ := (Category.operators_eq_some_iff hchain).1 htable
      rw [Ends, hkind, reach_binaryTerminal] at hends
      exact absurd hends (Nat.lt_irrefl _)
  cases category with
  | expression | power | unary | primary => exact harrived
  | or | and | equality | comparison | sum | product => exact hchain ⟨by decide, by decide⟩
  | indexed =>
    simp only [Category.onward, postfixFrom, leads_bind, leads_accept, leads_ite, if_true,
      Bool.false_eq_true, if_false, leads_pure]
    by_cases hbracket : (first s.terminals).kind = .punctuation .leftBracket
    · rw [if_pos hbracket]
      rw [Ends, hbracket] at hends
      exact absurd hends (by decide)
    · rw [if_neg hbracket]
      exact harrived

theorem Category.rank_le_rank_part (category : Category) : category.rank ≤ category.part.rank := by
  cases category <;> decide

/-- A reader that goes on from a phrase stops behind it if nothing takes the phrase further. -/
theorem Continues.complete {limits : Limits} {category : Category} {phrase : Phrase}
    (hcontinues : Continues limits category phrase) : Complete limits category phrase := by
  intro fits s rest arrived hahead harrived
  apply hcontinues (hahead.of_rank_le category.rank_le_rank_part)
  intro later fuel known hbehind hfuel hknown hnesting
  obtain ⟨fuel, rfl⟩ : ∃ more, fuel = more + 1 := ⟨fuel - 1, by omega⟩
  apply leads_onward
  · rw [hbehind.terminals]
    exact hahead.ends
  · exact harrived later hbehind hnesting

/-- A reader that goes on from phrases of its own category has nothing more to read. -/
theorem Complete.continues {limits : Limits} {category : Category} {phrase : Phrase}
    (hcomplete : Complete limits category phrase) (hpart : category.part = category) :
    Continues limits category phrase := by
  intro fits s rest arrived hahead harrived
  rw [hpart] at hahead
  apply hcomplete hahead
  intro later hlater hnesting
  have hfinished := harrived later (rest.length + 1) none hlater (Nat.lt_succ_self _)
    (knownDepth_none _) hnesting
  cases category with
  | expression | power | unary | primary => exact hfinished
  | or | and | equality | comparison | sum | product | indexed => cases hpart

/-- Up to the bound the readers below a level are the readers of the categories one level below. -/
theorem deeperAt_eq {limits : Limits} {level : Nat} (hlevel : level ≤ limits.nesting) :
    deeperAt limits level =
      { expression :=
          nested limits (Category.expression.reader limits (deeperAt limits (level + 1)))
        power := nested limits (Category.power.reader limits (deeperAt limits (level + 1)))
        unary := nested limits (Category.unary.reader limits (deeperAt limits (level + 1))) } := by
  have hleft : limits.nesting + 1 - level = limits.nesting + 1 - (level + 1) + 1 := by omega
  rw [deeperAt, hleft]
  rfl

/-- The reader of a category one level below. -/
def Category.below (limits : Limits) (level : Nat) (category : Category) : Reader Node :=
  nested limits (category.reader limits (deeperAt limits (level + 1)))

/-- Within the bound, the expressions one level below are read by the reader of that level. -/
theorem deeperAt_expression {limits : Limits} {level : Nat} (hlevel : level ≤ limits.nesting) :
    (deeperAt limits level).expression = Category.expression.below limits level := by
  rw [deeperAt_eq hlevel, Category.below]

theorem deeperAt_power {limits : Limits} {level : Nat} (hlevel : level ≤ limits.nesting) :
    (deeperAt limits level).power = Category.power.below limits level := by
  rw [deeperAt_eq hlevel, Category.below]

theorem deeperAt_unary {limits : Limits} {level : Nat} (hlevel : level ≤ limits.nesting) :
    (deeperAt limits level).unary = Category.unary.below limits level := by
  rw [deeperAt_eq hlevel, Category.below]

/-- A phrase that a deeper reader reads. -/
theorem Complete.below {limits : Limits} {category : Category} {phrase : Phrase} {fits : Prop}
    {level : Nat} {s : State} {rest : List Terminal} {arrived : Node → State → Prop}
    (hcomplete : Complete limits category phrase) (hlevel : s.nesting = level)
    (hterminals : s.terminals = phrase.terminals ++ rest) (hends : Ends category rest)
    (hclosed : phrase.isOpen = true → (first rest).kind ≠ .keyword .elseWord)
    (hfits : fits → Fits limits (level + 1) phrase)
    (harrived : ∀ later, Behind s rest later → level + 1 + phrase.nesting ≤ limits.nesting →
      arrived phrase.node later) :
    Leads (TooDeep fits) (category.below limits level) s arrived := by
  subst hlevel
  rw [Category.below, leads_nested]
  by_cases hbound : limits.nesting ≤ s.nesting
  · rw [if_pos hbound]
    refine ⟨rfl, fun h => ?_⟩
    have hnesting := (hfits h).nesting
    omega
  · rw [if_neg hbound]
    have hahead : Ahead limits category fits { s with nesting := s.nesting + 1 } phrase rest :=
      ⟨Nat.lt_of_not_le hbound, hterminals, hends, hclosed, hfits⟩
    apply hcomplete hahead
    intro later hbehind hnesting
    refine harrived _ ⟨hbehind.terminals, ?_⟩ hnesting
    have hback : later.nesting = s.nesting + 1 := hbehind.nesting
    change later.nesting - 1 = s.nesting
    omega

end Candlewick.Grammar
