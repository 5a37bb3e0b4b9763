import Candlewick.Proofs.Grammar.Outline
import Candlewick.Proofs.Grammar.Unambiguity.Expression

namespace Candlewick.Grammar

/-- No rule comes next, whether or not ends of lines come before it. -/
def NoRuleNext (terminals : List Terminal) : Prop :=
  ∀ (count : Nat) (rule : Rule) (rest : List Terminal), rule.condition.IsExpression →
    terminals ≠ lineEnds count ++ (rule.terminals ++ rest)

theorem NoRuleNext.behindLineEnds {terminals : List Terminal} {count : Nat}
    (hnone : NoRuleNext (lineEnds count ++ terminals)) : NoRuleNext terminals := by
  intro further rule rest hcondition heq
  refine hnone (count + further) rule rest hcondition ?_
  rw [heq, lineEnds, lineEnds, lineEnds, ← List.replicate_append_replicate, List.append_assoc]

/-- What comes behind the ends of lines is no rule if it does not begin with `if`. -/
theorem noRuleNext_of_first_ne {terminals : List Terminal} (count : Nat)
    (hline : (first terminals).kind ≠ .lineEnd) (hif : (first terminals).kind ≠ .keyword .ifWord) :
    NoRuleNext (lineEnds count ++ terminals) := by
  intro count' rule rest hcondition heq
  have hrule : (first (rule.terminals ++ rest)).kind ≠ .lineEnd := by simp [Rule.terminals]
  obtain ⟨-, rfl⟩ := lineEnds_append_inj hline hrule heq
  exact hif rfl

/-- A conditional is no rule if what follows its `then` is no trading action. -/
theorem noRuleNext_of_not_action {condition : Phrase} (count : Nat) {behind : List Terminal}
    (hcondition : condition.IsExpression) (hbuy : (first behind).kind ≠ .keyword .buyWord)
    (hsell : (first behind).kind ≠ .keyword .sellWord) :
    NoRuleNext (lineEnds count ++ .word .ifWord ::
      (condition.terminals ++ .word .thenWord :: behind)) := by
  intro count' rule rest' hrule heq
  rw [rule.terminals_append] at heq
  obtain ⟨-, hconditional⟩ := lineEnds_append_inj (by simp) (by simp) heq
  obtain ⟨-, haction⟩ := condition_unique hcondition.derives.unique hcondition.elseNearest
    hrule.derives hrule.elseNearest hconditional
  rw [haction] at hbuy hsell
  rcases rule with ⟨_, _ | _⟩
  · exact hbuy rfl
  · exact hsell rfl

/-- A conditional whose consequent is an expression is no rule. -/
theorem noRuleNext_of_conditional {condition consequent : Phrase} (count : Nat)
    {rest : List Terminal} (hcondition : condition.IsExpression)
    (hconsequent : Derives .expression consequent) :
    NoRuleNext (lineEnds count ++ .word .ifWord ::
      (condition.terminals ++ .word .thenWord :: (consequent.terminals ++ rest))) := by
  obtain ⟨hbuy, hsell⟩ := hconsequent.not_action rest
  exact noRuleNext_of_not_action count hcondition hbuy hsell

/-- An expression on a line of its own is no rule, not even a conditional: no action stands behind
    its `then`. -/
theorem Phrase.IsExpression.noRuleNext {phrase : Phrase} (hphrase : phrase.IsExpression)
    (count : Nat) (rest : List Terminal) :
    NoRuleNext (lineEnds count ++ (phrase.terminals ++ rest)) := by
  have hline : (first (phrase.terminals ++ rest)).kind ≠ .lineEnd :=
    hphrase.derives.first_kind_ne (by decide) rest
  obtain ⟨condition, consequent, rfl, hcondition, hconsequent⟩ |
    ⟨condition, consequent, alternative, rfl, hcondition, hconsequent, -⟩ |
    ⟨target, value, rfl, -⟩ | hor := hphrase.derives.expression_cases
  · rw [Phrase.terminals, List.cons_append, List.append_assoc, List.cons_append]
    exact noRuleNext_of_conditional count ⟨hcondition, hphrase.elseNearest.1⟩ hconsequent
  · rw [Phrase.terminals, List.cons_append, List.append_assoc, List.cons_append, List.append_assoc]
    exact noRuleNext_of_conditional count ⟨hcondition, hphrase.elseNearest.2.1⟩ hconsequent
  · exact noRuleNext_of_first_ne count hline (by simp [Phrase.terminals])
  · exact noRuleNext_of_first_ne count hline (hor.not_if rest)

/-- At the end of the source no rule comes next. -/
theorem noRuleNext_of_end {rest : List Terminal} (count : Nat)
    (hend : (first rest).kind = .sourceEnd) : NoRuleNext (lineEnds count ++ rest) :=
  noRuleNext_of_first_ne count (by simp [hend]) (by simp [hend])

/-- No rule comes next where a block stands that does not begin with one. -/
theorem Block.Derived.noRuleNext {block : Block} (hderived : block.Derived)
    (hrule : block.head.isRule = false) (count : Nat) (rest : List Terminal) :
    NoRuleNext (lineEnds count ++ (block.terminals ++ rest)) := by
  obtain ⟨behind, -, hterminals⟩ := block.exists_terminals_eq_head rest
  have hhead := hderived.head
  rw [hterminals]
  cases hblock : block.head with
  | strategy title rules =>
    exact noRuleNext_of_first_ne count (by simp [Statement.terminals])
      (by simp [Statement.terminals])
  | rule rule =>
    rw [hblock] at hrule
    cases hrule
  | expression phrase =>
    rw [hblock] at hhead
    exact hhead.phrase.noRuleNext count behind

/-- A trading rule is determined by its terminals. -/
theorem rule_unique {rule rule' : Rule} {rest rest' : List Terminal}
    (hcondition : rule.condition.IsExpression) (hcondition' : rule'.condition.IsExpression)
    (heq : rule.terminals ++ rest = rule'.terminals ++ rest') : rule = rule' ∧ rest = rest' := by
  rw [rule.terminals_append, rule'.terminals_append] at heq
  obtain ⟨hconditions, haction⟩ := condition_unique hcondition.derives.unique
    hcondition.elseNearest hcondition'.derives hcondition'.elseNearest heq
  obtain ⟨hkeyword, hrest⟩ := List.cons.inj haction
  rcases rule with ⟨condition, _ | _⟩ <;> rcases rule' with ⟨condition', _ | _⟩
  · exact ⟨by rw [show condition = condition' from hconditions], hrest⟩
  · cases hkeyword
  · cases hkeyword
  · exact ⟨by rw [show condition = condition' from hconditions], hrest⟩

/-- The longest run of rules is determined. -/
theorem rules_unique {rules rules' : List (Nat × Rule)} {rest rest' : List Terminal}
    (hconditions : ∀ entry ∈ rules, entry.2.condition.IsExpression)
    (hconditions' : ∀ entry ∈ rules', entry.2.condition.IsExpression)
    (hnoMore : NoRuleNext rest) (hnoMore' : NoRuleNext rest')
    (heq : Rule.listed rules ++ rest = Rule.listed rules' ++ rest') :
    rules = rules' ∧ rest = rest' := by
  induction rules generalizing rules' with
  | nil =>
    cases rules' with
    | nil => exact ⟨rfl, heq⟩
    | cons entry' more' =>
      rw [Rule.listed_cons] at heq
      have hcondition' := (List.forall_mem_cons.1 hconditions').1
      exact absurd heq (hnoMore _ entry'.2 _ hcondition')
  | cons entry more ih =>
    obtain ⟨hcondition, hmore⟩ := List.forall_mem_cons.1 hconditions
    rw [Rule.listed_cons] at heq
    cases rules' with
    | nil => exact absurd heq.symm (hnoMore' _ entry.2 _ hcondition)
    | cons entry' more' =>
      obtain ⟨hcondition', hmore'⟩ := List.forall_mem_cons.1 hconditions'
      rw [Rule.listed_cons] at heq
      obtain ⟨hcount, hrules⟩ := lineEnds_append_inj (by simp [Rule.terminals])
        (by simp [Rule.terminals]) heq
      obtain ⟨hrule, hbehind⟩ := rule_unique hcondition hcondition' hrules
      obtain ⟨rfl, hrest⟩ := ih hmore hmore' hbehind
      exact ⟨by rw [Prod.ext hcount hrule], hrest⟩

/-- What begins with `strategy` is no expression. -/
theorem Phrase.IsExpression.ne_strategy {phrase : Phrase} (hphrase : phrase.IsExpression)
    (title : String) (rules : List (Nat × Rule)) (rest rest' : List Terminal) :
    phrase.terminals ++ rest ≠ (Statement.strategy title rules).terminals ++ rest' := by
  intro heq
  have hfirst : (first (phrase.terminals ++ rest)).kind ≠ .keyword .strategyWord :=
    hphrase.derives.first_kind_ne (by decide) rest
  rw [heq] at hfirst
  exact hfirst rfl

/-- A statement is determined where its line ends; a strategy also has to have no further rule
    behind it. -/
theorem statement_unique {statement statement' : Statement} {rest rest' : List Terminal}
    (hderived : statement.Derived) (hderived' : statement'.Derived) (hline : EndsLine rest)
    (hline' : EndsLine rest') (hnoMore : statement.isStrategy = true → NoRuleNext rest)
    (hnoMore' : statement'.isStrategy = true → NoRuleNext rest')
    (heq : statement.terminals ++ rest = statement'.terminals ++ rest') :
    statement = statement' ∧ rest = rest' := by
  cases statement with
  | strategy title rules =>
    cases statement' with
    | strategy title' rules' =>
      simp only [Statement.terminals, List.cons_append, List.cons.injEq, true_and, Terminal.plain,
        Terminal.mk.injEq, TokenKind.text.injEq, and_true] at heq
      obtain ⟨rfl, hrules⟩ := heq
      obtain ⟨rfl, hrest⟩ := rules_unique hderived.conditions hderived'.conditions (hnoMore rfl)
        (hnoMore' rfl) hrules
      exact ⟨rfl, hrest⟩
    | rule rule' => cases (List.cons.inj heq).1
    | expression phrase' =>
      exact absurd heq.symm (hderived'.phrase.ne_strategy title rules rest' rest)
  | rule rule =>
    cases statement' with
    | strategy title' rules' => cases (List.cons.inj heq).1
    | rule rule' =>
      obtain ⟨rfl, hrest⟩ := rule_unique hderived.condition hderived'.condition heq
      exact ⟨rfl, hrest⟩
    | expression phrase' =>
      exact absurd heq.symm (hderived'.phrase.noRuleNext 0 rest' 0 rule rest hderived.condition)
  | expression phrase =>
    have hphrase := hderived.phrase
    cases statement' with
    | strategy title' rules' => exact absurd heq (hphrase.ne_strategy title' rules' rest rest')
    | rule rule' => exact absurd heq (hphrase.noRuleNext 0 rest 0 rule' rest' hderived'.condition)
    | expression phrase' =>
      have hphrase' := hderived'.phrase
      obtain ⟨rfl, hrest⟩ := hphrase.derives.unique.only hphrase'.derives
        ⟨hphrase.elseNearest, hline.ends, fun _ => hline.not_else⟩
        ⟨hphrase'.elseNearest, hline'.ends, fun _ => hline'.not_else⟩ heq
      exact ⟨rfl, hrest⟩

/-- The statements of a source are determined. -/
theorem block_unique {block block' : Block} {rest rest' : List Terminal} (hderived : block.Derived)
    (hderived' : block'.Derived) (hend : (first rest).kind = .sourceEnd)
    (hend' : (first rest').kind = .sourceEnd)
    (heq : block.terminals ++ rest = block'.terminals ++ rest') :
    block = block' ∧ rest = rest' := by
  have hline : (first rest).kind ≠ .lineEnd := by simp [hend]
  have hline' : (first rest').kind ≠ .lineEnd := by simp [hend']
  induction block generalizing block' with
  | last statement behind =>
    rw [Block.terminals, List.append_assoc] at heq
    cases block' with
    | last statement' behind' =>
      rw [Block.terminals, List.append_assoc] at heq
      obtain ⟨rfl, hbehind⟩ := statement_unique hderived hderived' (endsLine_lineEnds behind hend)
        (endsLine_lineEnds behind' hend') (fun _ => noRuleNext_of_end behind hend)
        (fun _ => noRuleNext_of_end behind' hend') heq
      obtain ⟨rfl, hrest⟩ := lineEnds_append_inj hline hline' hbehind
      exact ⟨rfl, hrest⟩
    | more statement' further' block' =>
      obtain ⟨hstatement', hrule', hblock'⟩ := hderived'
      rw [Block.terminals, List.append_assoc, List.append_assoc] at heq
      obtain ⟨-, hbehind⟩ := statement_unique hderived hstatement' (endsLine_lineEnds behind hend)
        (.inl rfl) (fun _ => noRuleNext_of_end behind hend)
        (fun hstrategy => hblock'.noRuleNext (hrule' hstrategy) _ _) heq
      obtain ⟨-, hrest⟩ := lineEnds_append_inj hline (hblock'.first_kind _).1 hbehind
      -- The source would end where the other block has one more statement.
      rw [hrest] at hend
      exact absurd hend (hblock'.first_kind _).2
  | more statement further block ih =>
    obtain ⟨hstatement, hrule, hblock⟩ := hderived
    rw [Block.terminals, List.append_assoc, List.append_assoc] at heq
    cases block' with
    | last statement' behind' =>
      rw [Block.terminals, List.append_assoc] at heq
      obtain ⟨-, hbehind⟩ := statement_unique hstatement hderived' (.inl rfl)
        (endsLine_lineEnds behind' hend')
        (fun hstrategy => hblock.noRuleNext (hrule hstrategy) _ _)
        (fun _ => noRuleNext_of_end behind' hend') heq
      obtain ⟨-, hrest⟩ := lineEnds_append_inj (hblock.first_kind _).1 hline' hbehind
      rw [← hrest] at hend'
      exact absurd hend' (hblock.first_kind _).2
    | more statement' further' block' =>
      obtain ⟨hstatement', hrule', hblock'⟩ := hderived'
      rw [Block.terminals, List.append_assoc, List.append_assoc] at heq
      obtain ⟨rfl, hbehind⟩ := statement_unique hstatement hstatement' (.inl rfl) (.inl rfl)
        (fun hstrategy => hblock.noRuleNext (hrule hstrategy) _ _)
        (fun hstrategy => hblock'.noRuleNext (hrule' hstrategy) _ _) heq
      obtain ⟨hfurther, hblocks⟩ := lineEnds_append_inj (hblock.first_kind _).1
        (hblock'.first_kind _).1 hbehind
      obtain ⟨rfl, hrest⟩ := ih hblock hblock' hblocks
      exact ⟨by rw [Nat.succ.inj hfurther], hrest⟩

/-- A program is determined, with the ends of lines in front of it. -/
theorem outline_unique {outline outline' : Outline} {rest rest' : List Terminal}
    (hderived : outline.block.Derived) (hderived' : outline'.block.Derived)
    (hend : (first rest).kind = .sourceEnd) (hend' : (first rest').kind = .sourceEnd)
    (heq : outline.terminals ++ rest = outline'.terminals ++ rest') :
    outline = outline' ∧ rest = rest' := by
  rw [Outline.terminals, Outline.terminals, List.append_assoc, List.append_assoc] at heq
  obtain ⟨hbefore, hblocks⟩ := lineEnds_append_inj (hderived.first_kind _).1
    (hderived'.first_kind _).1 heq
  obtain ⟨hblock, hrest⟩ := block_unique hderived hderived' hend hend' hblocks
  cases outline
  cases outline'
  exact ⟨by rw [Outline.mk.injEq]; exact ⟨hbefore, hblock⟩, hrest⟩

end Candlewick.Grammar
