import Candlewick.Grammar.Statement

namespace Candlewick.Grammar

/-- The steps that readers of expressions are made of. -/
inductive Step : ∀ {α : Type}, Reader α → Prop where
  | pure {α : Type} (value : α) : Step (pure value)
  | throw {α : Type} (e : ParseError) : Step (throw e : Reader α)
  | refuse {α : Type} (fault : ParseFault) : Step (refuse fault : Reader α)
  | unexpected {α : Type} (wanted : Wanted) : Step (unexpected wanted : Reader α)
  | peek : Step peek
  | peekKind : Step peekKind
  | peekSecond? : Step peekSecond?
  | remaining : Step remaining
  | skip : Step skip
  | warn (warning : Warning) : Step (warn warning)

/-- The steps that readers of statements are made of besides: they pass the ends of lines, and take
    the reading of a rule back. -/
inductive LineStep : ∀ {α : Type}, Reader α → Prop where
  | skipLineEnds : LineStep skipLineEnds
  | save : LineStep (get : Reader State)
  | restoreTokens (saved : State) :
    LineStep (modify fun s => { s with tokens := saved.tokens } : Reader Unit)
  | restore (saved : State) :
    LineStep (modify fun s =>
      { s with tokens := saved.tokens, warnings := saved.warnings } : Reader Unit)

/-- The refusals of a tree that is too deep. -/
inductive RefusesDepth {α : Type} : Reader α → Prop where
  | here : RefusesDepth (refuse .nestedTooDeeply)
  | elsewhere (place : Place) : RefusesDepth (throw ⟨.nestedTooDeeply, place⟩)

/-- A relation between readers that holds of the steps and is kept in sequence, and holds between a
    refusal beyond one bound on the depth and a refusal beyond the other. Since readers are made of
    such steps and of the readers one nesting level deeper, it holds between two of them as soon as
    it holds between the readers one level deeper. -/
structure Compositional (tight loose : Limits) (R : ∀ ⦃α : Type⦄, Reader α → Reader α → Prop) :
    Prop where
  step : ∀ {α : Type} {reader : Reader α}, Step reader → R reader reader
  bind : ∀ {α β : Type} {one other : Reader β} {next next' : β → Reader α}, R one other →
    (∀ value, R (next value) (next' value)) → R (one >>= next) (other >>= next')
  bounded : ∀ {α : Type} {refused : Reader α} (value : α) (depth : Nat), RefusesDepth refused →
    R (if tight.depth < depth then refused else pure value)
      (if loose.depth < depth then refused else pure value)

section

variable {α β : Type} {R : ∀ ⦃α : Type⦄, Reader α → Reader α → Prop}

theorem related_ite {condition : Prop} [Decidable condition] {one one' other other' : Reader α}
    (hone : R one one') (hother : R other other') :
    R (if condition then one else other) (if condition then one' else other') := by
  split
  · exact hone
  · exact hother

/-- Under the same bounds the steps and their sequence are all there is. -/
theorem Compositional.ofSteps {limits : Limits}
    (hstep : ∀ {α : Type} {reader : Reader α}, Step reader → R reader reader)
    (hbind : ∀ {α β : Type} {one other : Reader β} {next next' : β → Reader α}, R one other →
      (∀ value, R (next value) (next' value)) → R (one >>= next) (other >>= next')) :
    Compositional limits limits R where
  step := hstep
  bind := hbind
  bounded value _ hrefused := by
    refine related_ite ?_ (hstep (.pure value))
    cases hrefused with
    | here => exact hstep (.refuse _)
    | elsewhere place => exact hstep (.throw _)

/-- What the steps have and is kept in sequence, as a relation. -/
theorem Compositional.ofProperty {limits : Limits} {P : ∀ ⦃α : Type⦄, Reader α → Prop}
    (hstep : ∀ {α : Type} {reader : Reader α}, Step reader → P reader)
    (hbind : ∀ {α β : Type} {reader : Reader β} {next : β → Reader α}, P reader →
      (∀ value, P (next value)) → P (reader >>= next)) :
    Compositional limits limits fun _ one other => one = other ∧ P one := by
  refine .ofSteps (fun hreader => ⟨rfl, hstep hreader⟩) fun hreader hnext => ?_
  obtain ⟨rfl, hreader⟩ := hreader
  exact ⟨congrArg _ (funext fun value => (hnext value).1),
    hbind hreader fun value => (hnext value).2⟩

end

/-- The readers of one level are related to those of another one. -/
structure Deeper.Related (R : ∀ ⦃α : Type⦄, Reader α → Reader α → Prop) (deeper other : Deeper) :
    Prop where
  expression : R deeper.expression other.expression
  power : R deeper.power other.power
  unary : R deeper.unary other.unary

namespace Compositional

variable {α β : Type} {tight loose : Limits} {R : ∀ ⦃α : Type⦄, Reader α → Reader α → Prop}
  (hR : Compositional tight loose R)
include hR

/-- What is done with the results of two readers. -/
theorem map {one other : Reader β} (hreader : R one other) (f : β → α) :
    R (one >>= fun value => Pure.pure (f value)) (other >>= fun value => Pure.pure (f value)) :=
  hR.bind hreader fun value => hR.step (.pure (f value))

/-- What a token is accepted as depends on the tokens ahead alone. -/
theorem accept (kind : TokenKind) : R (accept kind) (accept kind) :=
  hR.bind (hR.step .peekKind) fun _ =>
    related_ite (hR.map (hR.step .skip) _) (hR.step (.pure false))

theorem expectWord (keyword : Keyword) : R (expectWord keyword) (expectWord keyword) :=
  hR.bind (hR.accept _) fun _ => related_ite (hR.step (.pure _)) (hR.step (.unexpected _))

theorem expectSign (sign : Punctuation) : R (expectSign sign) (expectSign sign) :=
  hR.bind (hR.accept _) fun _ => related_ite (hR.step (.pure _)) (hR.step (.unexpected _))

/-- Joining two trees is where the bounds on the depth of a tree come in. -/
theorem joinedDepth (known : Option Nat) (left right : Node) :
    R (joinedDepth tight known left right) (joinedDepth loose known left right) :=
  hR.bounded _ _ .here

variable {deeper deeper' : Deeper} {expression expression' : Reader Node}

variable (alarm : ParseFault)

/-- The arguments of a call from some point on, each of them read one level deeper. -/
theorem argumentsFrom (hexpression : R expression expression') (fuel : Nat) :
    R (argumentsFrom alarm expression fuel) (argumentsFrom alarm expression' fuel) := by
  induction fuel with
  | zero => exact hR.step (.refuse _)
  | succ fuel ih =>
    refine hR.bind hexpression fun argument => hR.bind (hR.accept _) fun _ => ?_
    exact related_ite (hR.map ih _) (hR.map (hR.expectSign _) _)

theorem arguments (hdeeper : deeper.Related R deeper') :
    R (arguments deeper) (arguments deeper') := by
  refine hR.bind (hR.expectSign _) fun _ => hR.bind (hR.accept _) fun _ => ?_
  exact related_ite (hR.step (.pure _)) <| hR.bind (hR.step .remaining) fun _ =>
    hR.argumentsFrom _ hdeeper.expression _

/-- The arguments of a call if a bracket comes next, and else another reader. -/
theorem call (hdeeper : deeper.Related R deeper') (f : List Node → Node) {other : Reader Node}
    (hother : R other other) :
    R (do
        if (← peekKind) = .punctuation .leftParen then
          return f (← Grammar.arguments deeper)
        else
          other)
      (do
        if (← peekKind) = .punctuation .leftParen then
          return f (← Grammar.arguments deeper')
        else
          other) :=
  hR.bind (hR.step .peekKind) fun _ => related_ite (hR.map (hR.arguments hdeeper) f) hother

theorem primary (hdeeper : deeper.Related R deeper') : R (primary deeper) (primary deeper') := by
  refine hR.bind (hR.step .peek) fun token => ?_
  split
  case h_6 =>
    exact hR.bind (hR.step .skip) fun _ => hR.call hdeeper _ (hR.step (.unexpected _))
  case h_7 => exact hR.bind (hR.step .skip) fun _ => hR.call hdeeper _ (hR.step (.pure _))
  case h_8 =>
    exact hR.bind (hR.step .skip) fun _ => hR.bind hdeeper.expression fun inner =>
      hR.map (hR.expectSign _) _
  case h_9 => exact hR.step (.refuse _)
  case h_10 => exact hR.step (.unexpected _)
  all_goals exact hR.map (hR.step .skip) _

/-- The indices behind an object. Each is read one level deeper, and then the two trees are
    joined. -/
theorem postfixFrom (hdeeper : deeper.Related R deeper') (fuel : Nat) (known : Option Nat)
    (object : Node) :
    R (postfixFrom alarm tight deeper fuel known object)
      (postfixFrom alarm loose deeper' fuel known object) := by
  induction fuel generalizing known object with
  | zero => exact hR.step (.refuse _)
  | succ fuel ih =>
    refine hR.bind (hR.accept _) fun _ => related_ite ?_ (hR.step (.pure _))
    refine hR.bind hdeeper.expression fun offset => hR.bind (hR.expectSign _) fun _ => ?_
    exact hR.bind (hR.joinedDepth known object offset) fun _ => ih _ _

theorem indexed (hdeeper : deeper.Related R deeper') :
    R (indexed tight deeper) (indexed loose deeper') :=
  hR.bind (hR.primary hdeeper) fun object => hR.bind (hR.step .remaining) fun _ =>
    hR.postfixFrom _ hdeeper _ none object

/-- Operators in front of an operand, which is read one level deeper. -/
theorem unary (hdeeper : deeper.Related R deeper') :
    R (unary tight deeper) (unary loose deeper') := by
  refine hR.bind (hR.step .peekKind) fun kind => ?_
  split
  case h_3 => exact hR.indexed hdeeper
  all_goals exact hR.bind (hR.step .skip) fun _ => hR.map hdeeper.unary _

/-- A power, whose exponent is read one level deeper. -/
theorem power (hdeeper : deeper.Related R deeper') :
    R (power tight deeper) (power loose deeper') :=
  hR.bind (hR.unary hdeeper) fun _ => hR.bind (hR.accept _) fun _ =>
    related_ite (hR.map hdeeper.power _) (hR.step (.pure _))

/-- The operators of a chain from some point on. The operands are read at the same level, so their
    readers have to be related themselves. -/
theorem chainFrom {operators : Operators} {operand operand' : Reader Node}
    (hoperand : R operand operand') (fuel : Nat) (known : Option Nat) (left : Node) :
    R (chainFrom alarm tight operators operand fuel known left)
      (chainFrom alarm loose operators operand' fuel known left) := by
  induction fuel generalizing known left with
  | zero => exact hR.step (.refuse _)
  | succ fuel ih =>
    refine hR.bind (hR.step .peekKind) fun kind => ?_
    split
    · exact hR.step (.pure _)
    · refine hR.bind (hR.step .skip) fun _ => hR.bind hoperand fun right => ?_
      exact hR.bind (hR.joinedDepth known left right) fun _ => ih _ _

/-- Chains within chains: the operands of one rank are the chains of the next. -/
theorem chains (hdeeper : deeper.Related R deeper') (ranks : List Operators) :
    R (chains tight deeper ranks) (chains loose deeper' ranks) := by
  induction ranks with
  | nil => exact hR.power hdeeper
  | cons operators tighter ih =>
    exact hR.bind ih fun left => hR.bind (hR.step .remaining) fun _ =>
      hR.chainFrom _ ih _ none left

/-- A conditional up to the end of what follows its `then`. -/
theorem conditionalHead (hexpression : R expression expression') :
    R (conditionalHead expression) (conditionalHead expression') := by
  refine hR.bind (hR.expectWord _) fun _ => hR.bind hexpression fun condition => ?_
  refine hR.bind (hR.expectWord _) fun _ => ?_
  refine hR.bind (hR.accept _) fun _ => related_ite (hR.step (.pure _)) ?_
  refine hR.bind (hR.accept _) fun _ => related_ite (hR.step (.pure _)) ?_
  exact hR.bind (hR.step .peekKind) fun _ => hR.map hexpression _

/-- A conditional from there on, with the warning that it may call for. -/
theorem conditionalEnd (hexpression : R expression expression') (condition consequent : Node)
    (nestedIf : Bool) :
    R (conditionalEnd expression condition consequent nestedIf)
      (conditionalEnd expression' condition consequent nestedIf) := by
  refine hR.bind (hR.step .peek) fun next => hR.bind (hR.accept _) fun _ => ?_
  exact related_ite (hR.map hexpression _)
    (related_ite (hR.map (hR.step (.warn _)) _) (hR.step (.pure _)))

theorem conditional (hexpression : R expression expression') :
    R (conditional expression) (conditional expression') := by
  refine hR.bind (hR.step .peek) fun start => hR.bind (hR.conditionalHead hexpression) ?_
  rintro ⟨condition, consequent⟩
  cases consequent with
  | buy | sell => exact hR.step (.throw _)
  | expression consequent nestedIf =>
    exact hR.conditionalEnd hexpression condition consequent nestedIf

/-- An expression at its own level, whichever of its three forms it has. -/
theorem expressionHere (hdeeper : deeper.Related R deeper') :
    R (expressionHere tight deeper) (expressionHere loose deeper') := by
  refine hR.bind (hR.step .peekKind) fun kind => hR.bind (hR.step .peekSecond?) fun second => ?_
  split
  · exact hR.conditional hdeeper.expression
  · exact hR.bind (hR.step .skip) fun _ => hR.bind (hR.step .skip) fun _ =>
      hR.map hdeeper.expression _
  · exact hR.chains hdeeper _

section

variable (hlines : ∀ {α : Type} {reader : Reader α}, LineStep reader → R reader reader)
include hlines

/-- The rules of a strategy. What may be one more rule is read, and taken back if it is none. -/
theorem rules (hexpression : R expression expression') (fuel : Nat) :
    R (rules alarm expression fuel) (rules alarm expression' fuel) := by
  induction fuel with
  | zero => exact hR.step (.refuse _)
  | succ fuel ih =>
    refine hR.bind (hlines .save) fun saved => hR.bind (hlines .skipLineEnds) fun _ => ?_
    refine hR.bind (hR.step .peekKind) fun kind => related_ite ?_ ?_
    · refine hR.bind (hR.conditionalHead hexpression) ?_
      rintro ⟨condition, consequent⟩
      cases consequent with
      | buy | sell => exact hR.map ih _
      | expression => exact hR.bind (hlines (.restore saved)) fun _ => hR.step (.pure _)
    · exact hR.bind (hlines (.restoreTokens saved)) fun _ => hR.step (.pure _)

theorem strategy (hexpression : R expression expression') :
    R (strategy expression) (strategy expression') := by
  refine hR.bind (hR.expectWord _) fun _ => hR.bind (hR.expectSign _) fun _ => ?_
  refine hR.bind (hR.step .peekKind) fun kind => ?_
  split
  · refine hR.bind (hR.step .skip) fun _ => hR.bind (hR.expectSign _) fun _ => ?_
    exact hR.bind (hR.step .remaining) fun _ => hR.map (hR.rules _ hlines hexpression _) _
  · exact hR.step (.unexpected _)

theorem statementHere (hexpression : R expression expression') :
    R (statementHere expression) (statementHere expression') := by
  refine hR.bind (hR.step .peekKind) fun kind => ?_
  split
  · exact hR.strategy hlines hexpression
  · refine hR.bind (hR.conditionalHead hexpression) ?_
    rintro ⟨condition, consequent⟩
    cases consequent with
    | buy | sell => exact hR.step (.pure _)
    | expression consequent nestedIf =>
      exact hR.conditionalEnd hexpression condition consequent nestedIf
  · exact hexpression

variable (hexpression : R (Grammar.expression tight) (Grammar.expression loose))
include hexpression

/-- A statement. No reader has to be assumed related any more, as the readers of all levels are. -/
theorem statement : R (statement tight) (statement loose) :=
  hR.bind (hR.step .peek) fun start => hR.bind (hR.statementHere hlines hexpression) fun node =>
    hR.bounded node node.depth (.elsewhere start.place)

theorem statements (fuel : Nat) :
    R (statements alarm tight fuel) (statements alarm loose fuel) := by
  induction fuel with
  | zero => exact hR.step (.refuse _)
  | succ fuel ih =>
    refine hR.bind (hR.step .peekKind) fun kind => related_ite (hR.step (.pure _)) ?_
    refine hR.bind (hR.statement hlines hexpression) fun node => ?_
    refine hR.bind (hR.step .peekKind) fun next => ?_
    split
    · exact hR.bind (hlines .skipLineEnds) fun _ => hR.map ih _
    · exact hR.map ih _
    · exact hR.bind (hR.step (.unexpected _)) fun _ => hR.map ih _

/-- A whole program: the statements that it has, up to the end of the source. -/
theorem program : R (program tight) (program loose) := by
  refine hR.bind (hlines .skipLineEnds) fun _ => hR.bind (hR.step .remaining) fun _ => ?_
  refine hR.bind (hR.statements _ hlines hexpression _) fun nodes => ?_
  split
  · exact hR.step (.refuse _)
  · exact hR.step (.pure _)

end

end Compositional

end Candlewick.Grammar
