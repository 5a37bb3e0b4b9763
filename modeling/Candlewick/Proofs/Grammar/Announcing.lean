import Candlewick.Proofs.Grammar.Congruence

namespace Candlewick.Grammar

variable {α β : Type}

/-- Some warnings have been added on the way to a later state of the same nesting. -/
structure State.Adds (s later : State) (added : List Warning) : Prop where
  nesting : later.nesting = s.nesting
  warnings : later.warnings = s.warnings ++ added
  announced : later.announced = s.announced ++ added

namespace State.Adds

variable {s middle later : State} {added more : List Warning}

/-- Taking tokens adds nothing. -/
theorem moved (s : State) (tokens : List Token) : s.Adds { s with tokens := tokens } [] :=
  ⟨rfl, (List.append_nil _).symm, (List.append_nil _).symm⟩

theorem refl (s : State) : s.Adds s [] :=
  moved s s.tokens

/-- What is added on two ways, one after the other, is added one after the other. -/
theorem trans (hone : s.Adds middle added) (hother : middle.Adds later more) :
    s.Adds later (added ++ more) := by
  refine ⟨hother.nesting.trans hone.nesting, ?_, ?_⟩
  · rw [hother.warnings, hone.warnings, List.append_assoc]
  · rw [hother.announced, hone.announced, List.append_assoc]

/-- Warnings added one level deeper are added at the level itself. -/
theorem nested (hadds : State.Adds { s with nesting := s.nesting + 1 } later added) :
    s.Adds { later with nesting := later.nesting - 1 } added := by
  refine ⟨?_, hadds.warnings, hadds.announced⟩
  rw [hadds.nesting]
  exact Nat.add_sub_cancel s.nesting 1

end State.Adds

/-- Two readings from two states come to the same result, or to the same error, with the same tokens
    ahead and the same warnings added. -/
inductive Together (s s' : State) :
    EStateM.Result ParseError State α → EStateM.Result ParseError State α → Prop where
  | ok {value : α} {later later' : State} {added : List Warning}
    (htokens : later'.tokens = later.tokens) (hadds : s.Adds later added)
    (hadds' : s'.Adds later' added) : Together s s' (.ok value later) (.ok value later')
  | error {e : ParseError} {later later' : State} {added : List Warning}
    (htokens : later'.tokens = later.tokens) (hadds : s.Adds later added)
    (hadds' : s'.Adds later' added) : Together s s' (.error e later) (.error e later')

/-- A reader that goes by the tokens ahead and the nesting alone, and not by the warnings that there
    already are. It announces all that it adds to the warnings and nothing else. -/
def Announces (reader : Reader α) : Prop :=
  ∀ s s' : State, s'.tokens = s.tokens → s'.nesting = s.nesting →
    Together s s' (reader s) (reader s')

namespace Announces

/-- In sequence, two readers add what each of them adds. -/
theorem bind {reader : Reader β} {next : β → Reader α} (hreader : Announces reader)
    (hnext : ∀ value, Announces (next value)) : Announces (reader >>= next) := by
  intro s s' htokens hnesting
  have hfirst := hreader s s' htokens hnesting
  simp only [Bind.bind, EStateM.bind]
  generalize reader s = one at hfirst
  generalize reader s' = other at hfirst
  cases hfirst with
  | error htokens hadds hadds' => exact .error htokens hadds hadds'
  | @ok value middle middle' added htokens hadds hadds' =>
    have hsecond := hnext value middle middle' htokens
      (by rw [hadds'.nesting, hadds.nesting, hnesting])
    dsimp only
    generalize next value middle = one at hsecond
    generalize next value middle' = other at hsecond
    cases hsecond with
    | ok htokens hmore hmore' => exact .ok htokens (hadds.trans hmore) (hadds'.trans hmore')
    | error htokens hmore hmore' => exact .error htokens (hadds.trans hmore) (hadds'.trans hmore')

/-- A reader that finds something out about the tokens ahead and leaves them there. -/
theorem look {reader : Reader α} (f : List Token → α)
    (hlook : ∀ s, reader s = .ok (f s.tokens) s) : Announces reader := by
  intro s s' htokens _
  rw [hlook, hlook, htokens]
  exact .ok htokens (.refl s) (.refl s')

/-- A reader that refuses the source for a reason found in the tokens ahead. -/
theorem fail {reader : Reader α} (f : List Token → ParseError)
    (hfail : ∀ s, reader s = .error (f s.tokens) s) : Announces reader := by
  intro s s' htokens _
  rw [hfail, hfail, htokens]
  exact .error htokens (.refl s) (.refl s')

/-- A reader that takes tokens, or refuses them, without a warning adds nothing. -/
theorem step {reader : Reader α} (hreader : Step reader) : Announces reader := by
  cases hreader with
  | pure value => exact look (fun _ => value) fun _ => rfl
  | throw e => exact fail (fun _ => e) fun _ => rfl
  | refuse fault =>
    exact fail (fun tokens => ⟨fault, (State.ahead { tokens := tokens }).place⟩) fun _ => rfl
  | unexpected wanted =>
    exact fail (fun tokens =>
      ⟨.expected wanted (State.ahead { tokens := tokens }),
        (State.ahead { tokens := tokens }).place⟩) fun _ => rfl
  | peek => exact look (fun tokens => State.ahead { tokens := tokens }) fun _ => rfl
  | peekKind => exact look (fun tokens => (State.ahead { tokens := tokens }).kind) fun _ => rfl
  | peekSecond? => exact look (fun tokens => tokens[1]?.map (·.kind)) fun _ => rfl
  | remaining => exact look List.length fun _ => rfl
  | skip => exact fun s s' htokens _ => .ok (congrArg List.tail htokens) (.moved s _) (.moved s' _)
  | warn warning =>
    exact fun s s' htokens _ =>
      @Together.ok _ s s' _ _ _ [warning] htokens ⟨rfl, rfl, rfl⟩ ⟨rfl, rfl, rfl⟩

theorem compositional (limits : Limits) :
    Compositional limits limits fun _ one other => one = other ∧ Announces one :=
  .ofProperty step bind

theorem expectWord (keyword : Keyword) : Announces (expectWord keyword) :=
  ((compositional .standard).expectWord keyword).2

theorem expectSign (sign : Punctuation) : Announces (expectSign sign) :=
  ((compositional .standard).expectSign sign).2

/-- One level deeper a reader adds what it adds, and the way back adds nothing. -/
theorem nested (limits : Limits) {reader : Reader α} (hreader : Announces reader) :
    Announces (nested limits reader) := by
  intro s s' htokens hnesting
  unfold Grammar.nested
  by_cases hbound : limits.nesting ≤ s.nesting
  · rw [if_pos hbound, if_pos (by rwa [hnesting])]
    exact step (.refuse _) s s' htokens hnesting
  · rw [if_neg hbound, if_neg (by rwa [hnesting])]
    have hinner := hreader { s with nesting := s.nesting + 1 } { s' with nesting := s'.nesting + 1 }
      htokens (congrArg (· + 1) hnesting)
    generalize reader { s with nesting := s.nesting + 1 } = one at hinner
    generalize reader { s' with nesting := s'.nesting + 1 } = other at hinner
    cases hinner with
    | ok htokens hadds hadds' => exact .ok htokens hadds.nested hadds'.nested
    | error htokens hadds hadds' => exact .error htokens hadds.nested hadds'.nested

end Announces

variable {limits : Limits} {deeper : Deeper} {expression : Reader Node}

theorem conditionalHead_announces (hexpression : Announces expression) :
    Announces (conditionalHead expression) :=
  ((Announces.compositional .standard).conditionalHead ⟨rfl, hexpression⟩).2

/-- The end of a conditional adds what the alternative adds and perhaps one warning of its own. -/
theorem conditionalEnd_announces (hexpression : Announces expression) (condition consequent : Node)
    (nestedIf : Bool) : Announces (conditionalEnd expression condition consequent nestedIf) :=
  ((Announces.compositional .standard).conditionalEnd ⟨rfl, hexpression⟩ condition consequent
    nestedIf).2

/-- The readers of one level announce what they add. -/
structure Deeper.Announces (deeper : Deeper) : Prop where
  expression : Grammar.Announces deeper.expression
  power : Grammar.Announces deeper.power
  unary : Grammar.Announces deeper.unary

theorem Deeper.Announces.related (hdeeper : deeper.Announces) :
    deeper.Related (fun _ one other => one = other ∧ Grammar.Announces one) deeper :=
  ⟨⟨rfl, hdeeper.expression⟩, ⟨rfl, hdeeper.power⟩, ⟨rfl, hdeeper.unary⟩⟩

/-- All levels announce what they add, by induction on the levels that are left. -/
theorem levels_announces (left : Nat) : (levels limits left).Announces := by
  have hsteps := Announces.compositional limits
  induction left with
  | zero => exact ⟨.step (.refuse _), .step (.refuse _), .step (.refuse _)⟩
  | succ left ih =>
    exact ⟨.nested limits (hsteps.expressionHere ih.related).2,
      .nested limits (hsteps.power ih.related).2, .nested limits (hsteps.unary ih.related).2⟩

/-- Reading an expression announces all that it adds. -/
theorem expression_announces (limits : Limits) : Announces (Grammar.expression limits) :=
  (levels_announces _).expression

end Candlewick.Grammar
