import Candlewick.Proofs.Grammar.Levels
import Candlewick.Proofs.Grammar.Places
import Candlewick.Proofs.Grammar.Soundness.Program

namespace Candlewick.Grammar

variable {α β : Type} {limits : Limits} {deeper : Deeper} {category : Category}
  {s middle later : State}

/-- A state with the end of the source behind all other tokens. -/
structure State.Terminated (s : State) : Prop where
  ne_nil : s.tokens ≠ []
  last : ∀ token ∈ s.tokens.getLast?, token.kind = .sourceEnd

/-- A later state is some tokens further, but not behind the end of the source. -/
structure State.Passes (s later : State) : Prop where
  taken : ∃ taken, taken ≠ [] ∧ s.tokens = taken ++ later.tokens
  ne_nil : later.tokens ≠ []

namespace State

theorem Terminated.inside (hs : s.Terminated) : Inside s.tokens s :=
  ⟨List.suffix_rfl, hs.ne_nil⟩

/-- Further on in its tokens, a state still has the end of the source behind all others. -/
theorem Terminated.of_inside (hs : s.Terminated) (hinside : Inside s.tokens later) :
    later.Terminated :=
  ⟨hinside.ne_nil, hinside.getLast?_eq ▸ hs.last⟩

/-- A state further on passes if it has fewer tokens ahead. -/
theorem Passes.of_inside (hinside : Inside s.tokens later)
    (hshorter : later.tokens.length < s.tokens.length) : s.Passes later := by
  obtain ⟨taken, htaken⟩ := hinside.isSuffix
  refine ⟨⟨taken, ?_, htaken.symm⟩, hinside.ne_nil⟩
  rintro rfl
  rw [← htaken, List.nil_append] at hshorter
  exact Nat.lt_irrefl _ hshorter

theorem Passes.inside (hpasses : s.Passes later) : Inside s.tokens later := by
  obtain ⟨taken, -, htokens⟩ := hpasses.taken
  exact ⟨⟨taken, htokens.symm⟩, hpasses.ne_nil⟩

theorem Passes.length_lt (hpasses : s.Passes later) :
    later.tokens.length < s.tokens.length := by
  obtain ⟨taken, hne, htokens⟩ := hpasses.taken
  have hpositive := List.length_pos_iff.2 hne
  rw [htokens, List.length_append]
  omega

theorem length_skipped_lt (hkind : s.ahead.kind ≠ .sourceEnd) :
    s.skipped.tokens.length < s.tokens.length := by
  rcases s with ⟨_ | ⟨token, tokens⟩, nesting, warnings, announced⟩
  · exact absurd rfl hkind
  · exact Nat.lt_succ_self _

theorem Terminated.length_pos (hs : s.Terminated) : 0 < s.tokens.length :=
  List.length_pos_iff.2 hs.ne_nil

/-- What has been passed does not take the end of the source along. -/
theorem Passes.terminated (hpasses : s.Passes later) (hs : s.Terminated) : later.Terminated :=
  hs.of_inside hpasses.inside

/-- A later state stays behind tokens that have been passed. -/
theorem Passes.inside_later (hpasses : s.Passes middle) (hinside : Inside middle.tokens later) :
    s.Passes later := by
  have hshorter := hpasses.length_lt
  have hlength := hinside.isSuffix.length_le
  refine .of_inside ⟨hinside.isSuffix.trans hpasses.inside.isSuffix, hinside.ne_nil⟩ ?_
  omega

theorem Passes.behind (hinside : Inside s.tokens middle) (hpasses : middle.Passes later) :
    s.Passes later := by
  have hshorter := hpasses.length_lt
  have hlength := hinside.isSuffix.length_le
  refine .of_inside ⟨hpasses.inside.isSuffix.trans hinside.isSuffix, hpasses.ne_nil⟩ ?_
  omega

/-- A token that is not the end of the source is passed. -/
theorem Terminated.passes_skipped (hs : s.Terminated) (hkind : s.ahead.kind ≠ .sourceEnd) :
    s.Passes s.skipped :=
  .of_inside (hs.inside.skipped hs.last (s.kind_ahead ▸ hkind)) (length_skipped_lt hkind)

end State

/-- Every token list is read from a state that the end of the source terminates. -/
theorem terminated_closed (tokens : List Token) :
    State.Terminated { tokens := closed tokens } := by
  cases hlast : tokens.getLast? with
  | none => exact ⟨by simp [closed, hlast], by simp [closed, hlast, Token.sourceEnd]⟩
  | some last =>
    have hne : tokens ≠ [] := by
      rintro rfl
      cases hlast
    by_cases hend : last.kind = .sourceEnd
    · rw [closed_eq_self hne (by simpa [hlast] using hend)]
      exact ⟨hne, by simpa [hlast] using hend⟩
    · exact ⟨by simp [closed, hlast, hend], by simp [closed, hlast, hend, Token.sourceEnd]⟩

/-- A reader that takes a token before it comes to a result, and not the end of the source. -/
def Advances (reader : Reader α) : Prop :=
  ∀ s, s.Terminated → Leads (fun _ => True) reader s fun _ later => s.Passes later

/-- A reader that stays inside of what is ahead and takes tokens advances. -/
theorem Advances.of_stays {reader : Reader α}
    (hstays : ∀ tokens : List Token, (∀ token ∈ tokens.getLast?, token.kind = .sourceEnd) →
      Stays tokens reader)
    (hshorter : ∀ s, Leads (fun _ => True) reader s fun _ later =>
      later.terminals.length < s.terminals.length) : Advances reader := by
  intro s hs
  apply ((hstays s.tokens hs.last s hs.inside).and (hshorter s)).mono (fun _ _ => trivial)
  rintro value later ⟨hinside, hlength⟩
  rw [← State.length_tokens, ← State.length_tokens] at hlength
  exact .of_inside hinside hlength

/-- No phrase is empty, so one that was found has taken a token. -/
theorem Found.length_lt {phrase : Phrase} (hfound : Found category s later phrase) :
    later.terminals.length < s.terminals.length := by
  obtain ⟨terminal, rest, hphrase, -⟩ := hfound.derives.opening_le
  rw [hfound.terminals, hphrase, List.length_append, List.length_cons]
  omega

theorem FoundStatement.length_lt {statement : Statement}
    (hfound : FoundStatement s later statement) :
    later.terminals.length < s.terminals.length := by
  have hpositive := List.length_pos_iff.2 hfound.derived.terminals_ne_nil
  rw [hfound.terminals, List.length_append]
  omega

theorem FoundOutline.length_lt {outline : Outline} (hfound : FoundOutline s later outline) :
    later.terminals.length < s.terminals.length := by
  obtain ⟨behind, -, hblock⟩ := outline.block.exists_terminals_eq_head []
  have hpositive := List.length_pos_iff.2 hfound.derived.head.terminals_ne_nil
  have hlength := congrArg List.length hblock
  rw [List.append_nil, List.length_append] at hlength
  rw [hfound.terminals, Outline.terminals, List.length_append, List.length_append]
  omega

/-- The head of a conditional takes two tokens at least. -/
theorem FoundHead.length_lt {head : Node × Consequent} (hfound : FoundHead s later head) :
    later.terminals.length < s.terminals.length := by
  cases hfound with
  | rule hcondition hterminals =>
    rw [hterminals, Rule.terminals_append, List.length_cons, List.length_append]
    simp only [List.length_cons]
    omega
  | expression hcondition hconsequent =>
    have hlength := hconsequent.length_lt
    rw [hcondition.terminals, List.length_cons, List.length_append, List.length_cons]
    omega

/-- A reader that gives nothing but the trees of phrases takes a token each time. -/
theorem Sound.shorter {reader : Reader Node} (hsound : Sound category reader) (s : State) :
    Leads (fun _ => True) reader s fun _ later =>
      later.terminals.length < s.terminals.length := by
  apply (hsound s).mono fun _ h => h
  rintro node later ⟨phrase, hfound, -⟩
  exact hfound.length_lt

/-- A sound reader that comes to a result has taken a token. -/
theorem Sound.length_lt {reader : Reader Node} (hsound : Sound category reader) {node : Node}
    (hrun : reader s = .ok node later) : later.tokens.length < s.tokens.length := by
  have hleads := hsound.shorter s
  rw [Leads, hrun] at hleads
  rw [State.length_tokens, State.length_tokens]
  exact hleads

/-- No operator stands where the source ends. -/
theorem Category.ne_sourceEnd_of_operators {kind : TokenKind} {operator : BinaryOperator}
    (htable : category.operators kind = some operator) : kind ≠ .sourceEnd := by
  rintro rfl
  cases category <;> cases htable

/-- The readers of all categories stay inside of the token list. -/
theorem Category.reader_stays {tokens : List Token}
    (hend : ∀ token ∈ tokens.getLast?, token.kind = .sourceEnd) (hdeeper : deeper.Stays tokens)
    (category : Category) : Stays tokens (category.reader limits deeper) := by
  have hranks : ∀ operators ∈ chainOperators, operators .sourceEnd = none := by
    simp [chainOperators]
  have hchains : ∀ count, Stays tokens (chains limits deeper (chainOperators.drop count)) :=
    fun count => chains_stays hend hdeeper fun operators hmem =>
      hranks operators (List.mem_of_mem_drop hmem)
  cases category with
  | expression => exact expressionHere_stays hend hdeeper
  | or | and | equality | comparison | sum | product => exact hchains _
  | power => exact power_stays hend hdeeper
  | unary => exact unary_stays hend hdeeper
  | indexed => exact indexed_stays hend hdeeper
  | primary => exact primary_stays hend hdeeper

/-- The procedures of a reading: those of programs and statements, and those of expressions with any
    number of nesting levels left. -/
inductive Procedure (limits : Limits) : ∀ {α : Type}, Reader α → Prop where
  | program : Procedure limits (program limits)
  | statement : Procedure limits (statement limits)
  | statementHere : Procedure limits (statementHere (expression limits))
  | strategy : Procedure limits (strategy (expression limits))
  | conditionalHead (left : Nat) :
    Procedure limits (conditionalHead (levels limits left).expression)
  | expression (left : Nat) : Procedure limits (levels limits left).expression
  | power (left : Nat) : Procedure limits (levels limits left).power
  | unary (left : Nat) : Procedure limits (levels limits left).unary
  | category (category : Category) (left : Nat) :
    Procedure limits (category.reader limits (levels limits left))
  | arguments (left : Nat) : Procedure limits (arguments (levels limits left))

/-- Every procedure of a reading takes a token, and not the end of the source. -/
theorem Procedure.advances {reader : Reader α} (hreader : Procedure limits reader) :
    Advances reader := by
  cases hreader with
  | program =>
    refine .of_stays (fun tokens hend => program_stays hend limits) fun s => ?_
    apply (program_sound limits s).mono fun _ h => h
    rintro program later ⟨outline, hfound, -⟩
    exact hfound.length_lt
  | statement =>
    refine .of_stays (fun tokens hend => statement_stays hend limits) fun s => ?_
    apply (statement_sound limits s).mono fun _ h => h
    rintro node later ⟨statement, hfound, -⟩
    exact hfound.length_lt
  | statementHere =>
    refine .of_stays (fun tokens hend =>
      statementHere_stays hend (levels_stays hend _).expression) fun s => ?_
    apply (statementHere_sound (expression_sound limits) s).mono fun _ h => h
    rintro node later ⟨statement, hfound, -⟩
    exact hfound.length_lt
  | strategy =>
    refine .of_stays (fun tokens hend =>
      strategy_stays hend (levels_stays hend _).expression) fun s => ?_
    apply (strategy_sound (expression_sound limits) s).mono fun _ h => h
    rintro node later ⟨statement, hfound, -⟩
    exact hfound.length_lt
  | conditionalHead left =>
    refine .of_stays (fun tokens hend =>
      conditionalHead_stays hend (levels_stays hend left).expression) fun s => ?_
    apply (conditionalHead_sound (levels_sound left).1 s).mono fun _ h => h
    exact fun head later hfound => hfound.length_lt
  | expression left =>
    exact .of_stays (fun tokens hend => (levels_stays hend left).expression)
      (levels_sound left).1.shorter
  | power left =>
    exact .of_stays (fun tokens hend => (levels_stays hend left).power)
      (levels_sound left).2.1.shorter
  | unary left =>
    exact .of_stays (fun tokens hend => (levels_stays hend left).unary)
      (levels_sound left).2.2.shorter
  | category category left =>
    exact .of_stays (fun tokens hend => category.reader_stays hend (levels_stays hend left))
      (Category.reader_sound limits left category).shorter
  | arguments left =>
    refine .of_stays (fun tokens hend => arguments_stays hend (levels_stays hend left))
      fun s => ?_
    apply (arguments_sound (levels_sound left).1 s).mono fun _ h => h
    rintro nodes later ⟨phrases, -, -, -, hterminals, -⟩
    rw [hterminals]
    simp only [List.length_append, List.length_cons]
    omega

/-- A reading that is taken back takes tokens and warnings back, and not the nesting. -/
theorem LineStep.keepsNesting {reader : Reader α} (hreader : LineStep reader) :
    KeepsNesting reader := by
  cases hreader <;> exact fun _ => rfl

/-- Every procedure of a reading comes back to its nesting level, whether it has a result or not. -/
theorem Procedure.keepsNesting {reader : Reader α} (hreader : Procedure limits reader) :
    KeepsNesting reader := by
  have hlevels := @levels_announces limits
  have hsteps : Compositional limits limits fun _ one other => one = other ∧ KeepsNesting one :=
    .ofProperty (fun hstep => (Announces.step hstep).keepsNesting) KeepsNesting.bind
  have hlines : ∀ {α : Type} {reader : Reader α}, LineStep reader →
      reader = reader ∧ KeepsNesting reader := fun hline => ⟨rfl, hline.keepsNesting⟩
  have hexpression := (expression_announces limits).keepsNesting
  cases hreader with
  | program => exact (hsteps.program hlines ⟨rfl, hexpression⟩).2
  | statement => exact (hsteps.statement hlines ⟨rfl, hexpression⟩).2
  | statementHere => exact (hsteps.statementHere hlines ⟨rfl, hexpression⟩).2
  | strategy => exact (hsteps.strategy hlines ⟨rfl, hexpression⟩).2
  | conditionalHead left =>
    exact (conditionalHead_announces (hlevels left).expression).keepsNesting
  | expression left => exact (hlevels left).expression.keepsNesting
  | power left => exact (hlevels left).power.keepsNesting
  | unary left => exact (hlevels left).unary.keepsNesting
  | category category left =>
    exact ((Announces.compositional limits).reader (hlevels left).related category).2.keepsNesting
  | arguments left =>
    exact ((Announces.compositional limits).arguments (hlevels left).related).2.keepsNesting

end Candlewick.Grammar
