import Candlewick.Proofs.Grammar.Leads
import Candlewick.Source
import Mathlib.Data.List.Basic
import Mathlib.Data.List.TakeWhile

namespace Candlewick.Grammar

variable {α β : Type} {tokens : List Token}

/-- An error at one of some tokens. A token that its message names is that one. -/
def AtToken (tokens : List Token) (e : ParseError) : Prop :=
  ∃ token ∈ tokens, e.place = token.place ∧
    ∀ wanted found, e.fault = .expected wanted found → found = token

/-- The tokens ahead are the back of a token list, and not used up. -/
structure Inside (tokens : List Token) (s : State) : Prop where
  isSuffix : s.tokens <:+ tokens
  ne_nil : s.tokens ≠ []

/-- A reader that stays inside of a token list, or refuses it at one of its tokens. -/
def Stays (tokens : List Token) (reader : Reader α) : Prop :=
  ∀ s, Inside tokens s → Leads (AtToken tokens) reader s fun _ later => Inside tokens later

theorem Inside.ahead_mem {s : State} (hs : Inside tokens s) : s.ahead ∈ tokens := by
  obtain ⟨token, rest, hcons⟩ := List.exists_cons_of_ne_nil hs.ne_nil
  have hahead : s.ahead = token := by rw [State.ahead, hcons, List.headD_cons]
  rw [hahead]
  exact hs.isSuffix.subset (by rw [hcons]; exact List.mem_cons_self)

/-- An error at the token ahead, for a reason that names no other token. -/
theorem Inside.atToken {s : State} (hs : Inside tokens s) {fault : ParseFault}
    (hfault : ∀ wanted found, fault = .expected wanted found → found = s.ahead) :
    AtToken tokens ⟨fault, s.ahead.place⟩ :=
  ⟨s.ahead, hs.ahead_mem, rfl, hfault⟩

/-- The last token ahead is always the last one of the list. -/
theorem Inside.getLast?_eq {s : State} (hs : Inside tokens s) :
    s.tokens.getLast? = tokens.getLast? := by
  obtain ⟨front, hfront⟩ := hs.isSuffix
  rw [← hfront, List.getLast?_append_of_ne_nil front hs.ne_nil]

namespace Stays

theorem pure (value : α) : Stays tokens (pure value) :=
  fun _ hs => hs

theorem bind {reader : Reader β} {next : β → Reader α} (hreader : Stays tokens reader)
    (hnext : ∀ value, Stays tokens (next value)) : Stays tokens (reader >>= next) := by
  intro s hs
  rw [leads_bind]
  exact (hreader s hs).mono (fun _ h => h) fun value later hlater => hnext value later hlater

theorem ite {condition : Prop} [Decidable condition] {one other : Reader α}
    (hone : Stays tokens one) (hother : Stays tokens other) :
    Stays tokens (if condition then one else other) := by
  split
  · exact hone
  · exact hother

/-- What is done with the result of a reader. -/
theorem map {reader : Reader β} (hreader : Stays tokens reader) (f : β → α) :
    Stays tokens (reader >>= fun value => Pure.pure (f value)) :=
  hreader.bind fun value => pure (f value)

theorem remaining : Stays tokens remaining :=
  fun _ hs => hs

theorem warn (warning : Warning) : Stays tokens (warn warning) :=
  fun _ hs => ⟨hs.isSuffix, hs.ne_nil⟩

/-- A refusal that names no token is at the place of the token ahead. -/
theorem refuse {fault : ParseFault} (hfault : ∀ wanted found, fault ≠ .expected wanted found) :
    Stays tokens (refuse fault : Reader α) :=
  fun _ hs => hs.atToken fun wanted found h => absurd h (hfault wanted found)

/-- An unexpected token is named as the token ahead, which is one of the list. -/
theorem unexpected (wanted : Wanted) : Stays tokens (unexpected wanted : Reader α) := by
  intro s hs
  refine hs.atToken fun _ _ h => ?_
  cases h
  rfl

/-- A tree that is too deep is refused at the token ahead. -/
theorem joinedDepth (limits : Limits) (known : Option Nat) (left right : Node) :
    Stays tokens (joinedDepth limits known left right) :=
  .ite (.refuse (by simp)) (.pure _)

theorem nested (limits : Limits) {reader : Reader α} (hreader : Stays tokens reader) :
    Stays tokens (nested limits reader) := by
  intro s hs
  rw [leads_nested]
  split
  · exact hs.atToken (by simp)
  · have hinner : Inside tokens { s with nesting := s.nesting + 1 } := ⟨hs.isSuffix, hs.ne_nil⟩
    refine (hreader _ hinner).mono (fun _ h => h) fun _ later hlater => ?_
    exact ⟨hlater.isSuffix, hlater.ne_nil⟩

end Stays

/-- The readers of one level stay inside of a token list. -/
structure Deeper.Stays (tokens : List Token) (deeper : Deeper) : Prop where
  expression : Grammar.Stays tokens deeper.expression
  power : Grammar.Stays tokens deeper.power
  unary : Grammar.Stays tokens deeper.unary

/-- The second terminal is the first one behind the next. -/
theorem kind_first_tail {terminals : List Terminal} {kind : TokenKind}
    (hsecond : terminals[1]?.map (·.kind) = some kind) : (first terminals.tail).kind = kind := by
  rcases terminals with _ | ⟨terminal, _ | ⟨next, rest⟩⟩
  · cases hsecond
  · cases hsecond
  · exact Option.some.inj hsecond

section

variable (hend : ∀ token ∈ tokens.getLast?, token.kind = .sourceEnd)
include hend

/-- Behind a token that is not the end there is another one. -/
theorem Inside.skipped {s : State} (hs : Inside tokens s)
    (hkind : (first s.terminals).kind ≠ .sourceEnd) : Inside tokens s.skipped := by
  refine ⟨(List.tail_suffix _).trans hs.isSuffix, fun hempty => hkind ?_⟩
  obtain ⟨token, rest, hcons⟩ := List.exists_cons_of_ne_nil hs.ne_nil
  obtain rfl : rest = [] := by simpa [State.skipped, hcons] using hempty
  have hlast := hend token
  rw [← hs.getLast?_eq, hcons] at hlast
  rw [← State.kind_ahead, State.ahead, hcons]
  exact hlast rfl

/-- Behind ends of lines a token is left, for the last one is none. -/
theorem Inside.behindLineEnds {s : State} (hs : Inside tokens s) :
    Inside tokens s.behindLineEnds := by
  refine ⟨(List.dropWhile_suffix _).trans hs.isSuffix, fun hempty => ?_⟩
  simp only [State.behindLineEnds, List.dropWhile_eq_nil_iff] at hempty
  have hlast := List.getLast?_eq_some_getLast hs.ne_nil
  have hline := hempty _ (List.getLast_mem hs.ne_nil)
  rw [hs.getLast?_eq] at hlast
  rw [hend _ hlast] at hline
  cases hline

/-- A token that is not the end is taken, and the reading goes on. -/
theorem Inside.leads_skip {s : State} (hs : Inside tokens s)
    (hkind : (first s.terminals).kind ≠ .sourceEnd) {next : Unit → Reader α}
    (hnext : Stays tokens (next ())) :
    Leads (AtToken tokens) (skip >>= next) s fun _ later => Inside tokens later :=
  hnext s.skipped (hs.skipped hend hkind)

theorem Stays.skipLineEnds : Stays tokens skipLineEnds :=
  fun _ hs => hs.behindLineEnds hend

/-- A token that is no end of the source may be taken, as there is one behind it. -/
theorem Stays.accept {kind : TokenKind} (hkind : kind ≠ .sourceEnd) :
    Stays tokens (accept kind) := by
  intro s hs
  rw [leads_accept]
  split
  · rename_i hfirst
    exact hs.skipped hend (hfirst ▸ hkind)
  · exact hs

theorem Stays.expectSign (sign : Punctuation) : Stays tokens (expectSign sign) :=
  (Stays.accept hend (by simp)).bind fun _ => .ite (.pure _) (.unexpected _)

theorem Stays.expectWord (keyword : Keyword) : Stays tokens (expectWord keyword) :=
  (Stays.accept hend (by simp)).bind fun _ => .ite (.pure _) (.unexpected _)

variable {limits : Limits} {deeper : Deeper} {expression : Reader Node}

/-- A call that has no end is refused at the end of the source, and not behind it. -/
theorem argumentsFrom_stays (hexpression : Stays tokens expression) (fuel : Nat) :
    Stays tokens (argumentsFrom outOfRounds expression fuel) := by
  induction fuel with
  | zero => exact .refuse (by simp)
  | succ fuel ih =>
    refine hexpression.bind fun argument => (Stays.accept hend (by simp)).bind fun _ => ?_
    exact .ite (ih.map _) ((Stays.expectSign hend _).map _)

theorem arguments_stays (hdeeper : deeper.Stays tokens) : Stays tokens (arguments deeper) := by
  refine (Stays.expectSign hend _).bind fun _ => (Stays.accept hend (by simp)).bind fun _ => ?_
  exact .ite (.pure _) <| Stays.remaining.bind fun fuel =>
    argumentsFrom_stays hend hdeeper.expression (fuel + 1)

/-- The arguments of a call if a bracket comes next, and else another reader. -/
theorem call_stays (hdeeper : deeper.Stays tokens) (f : List Node → Node) {other : Reader Node}
    (hother : Stays tokens other) :
    Stays tokens (do
      if (← peekKind) = .punctuation .leftParen then
        return f (← arguments deeper)
      else
        other) := by
  intro s hs
  simp only [leads_bind, leads_peekKind]
  exact Stays.ite ((arguments_stays hend hdeeper).map f) hother s hs

theorem primary_stays (hdeeper : deeper.Stays tokens) : Stays tokens (primary deeper) := by
  intro s hs
  simp only [primary, leads_bind, leads_peek, State.kind_ahead]
  split
  case h_6 hkind =>
    exact hs.leads_skip hend (by simp [hkind]) (call_stays hend hdeeper _ (.unexpected _))
  case h_7 hkind =>
    exact hs.leads_skip hend (by simp [hkind]) (call_stays hend hdeeper _ (.pure _))
  case h_8 hkind =>
    refine hs.leads_skip hend (by simp [hkind]) ?_
    exact hdeeper.expression.bind fun inner => (Stays.expectSign hend _).map _
  case h_9 => exact Stays.refuse (by simp) s hs
  case h_10 => exact Stays.unexpected _ s hs
  all_goals
    rename_i hkind
    exact hs.leads_skip hend (by simp [hkind]) (.pure _)

theorem postfixFrom_stays (hdeeper : deeper.Stays tokens) (fuel : Nat) (known : Option Nat)
    (object : Node) : Stays tokens (postfixFrom outOfRounds limits deeper fuel known object) := by
  induction fuel generalizing known object with
  | zero => exact .refuse (by simp)
  | succ fuel ih =>
    refine (Stays.accept hend (by simp)).bind fun _ => .ite ?_ (.pure _)
    refine hdeeper.expression.bind fun offset => (Stays.expectSign hend _).bind fun _ => ?_
    exact (Stays.joinedDepth limits known object offset).bind fun _ => ih _ _

theorem indexed_stays (hdeeper : deeper.Stays tokens) : Stays tokens (indexed limits deeper) :=
  (primary_stays hend hdeeper).bind fun object => Stays.remaining.bind fun fuel =>
    postfixFrom_stays hend hdeeper (fuel + 1) none object

theorem unary_stays (hdeeper : deeper.Stays tokens) : Stays tokens (unary limits deeper) := by
  intro s hs
  simp only [unary, leads_bind, leads_peekKind]
  split
  case h_1 hkind => exact hs.leads_skip hend (by simp [hkind]) (hdeeper.unary.map _)
  case h_2 hkind => exact hs.leads_skip hend (by simp [hkind]) (hdeeper.unary.map _)
  case h_3 => exact indexed_stays hend hdeeper s hs

theorem power_stays (hdeeper : deeper.Stays tokens) : Stays tokens (power limits deeper) :=
  (unary_stays hend hdeeper).bind fun base => (Stays.accept hend (by simp)).bind fun _ =>
    .ite (hdeeper.power.map _) (.pure _)

/-- The end of the source is no operator, so a chain stops there at the latest. -/
theorem chainFrom_stays {operators : Operators} (hoperators : operators .sourceEnd = none)
    {operand : Reader Node} (hoperand : Stays tokens operand) (fuel : Nat) (known : Option Nat)
    (left : Node) :
    Stays tokens (chainFrom outOfRounds limits operators operand fuel known left) := by
  induction fuel generalizing known left with
  | zero => exact .refuse (by simp)
  | succ fuel ih =>
    intro s hs
    simp only [chainFrom, leads_bind, leads_peekKind]
    split
    · exact hs
    · rename_i operator hoperator
      have hkind : (first s.terminals).kind ≠ .sourceEnd := by
        intro hkind
        rw [hkind, hoperators] at hoperator
        cases hoperator
      refine hs.leads_skip hend hkind (hoperand.bind fun right => ?_)
      exact (Stays.joinedDepth limits known left right).bind fun _ => ih _ _

theorem chains_stays (hdeeper : deeper.Stays tokens) {ranks : List Operators}
    (hranks : ∀ operators ∈ ranks, operators .sourceEnd = none) :
    Stays tokens (chains limits deeper ranks) := by
  induction ranks with
  | nil => exact power_stays hend hdeeper
  | cons operators tighter ih =>
    obtain ⟨hoperators, htighter⟩ := List.forall_mem_cons.1 hranks
    exact (ih htighter).bind fun left => Stays.remaining.bind fun fuel =>
      chainFrom_stays hend hoperators (ih htighter) (fuel + 1) none left

theorem conditionalHead_stays (hexpression : Stays tokens expression) :
    Stays tokens (conditionalHead expression) := by
  refine (Stays.expectWord hend _).bind fun _ => hexpression.bind fun condition => ?_
  refine (Stays.expectWord hend _).bind fun _ => ?_
  refine (Stays.accept hend (by simp)).bind fun _ => .ite (.pure _) ?_
  refine (Stays.accept hend (by simp)).bind fun _ => .ite (.pure _) fun s hs => ?_
  simp only [leads_bind, leads_peekKind, leads_pure]
  exact hexpression s hs

theorem conditionalEnd_stays (hexpression : Stays tokens expression) (condition consequent : Node)
    (nestedIf : Bool) : Stays tokens (conditionalEnd expression condition consequent nestedIf) := by
  intro s hs
  simp only [conditionalEnd, leads_bind, leads_peek]
  apply (Stays.accept hend (by simp) s hs).mono fun _ h => h
  intro hasElse later hlater
  exact Stays.ite (hexpression.map _) (.ite ((Stays.warn _).map _) (.pure _)) later hlater

theorem conditional_stays (hexpression : Stays tokens expression) :
    Stays tokens (conditional expression) := by
  intro s hs
  simp only [conditional, leads_bind, leads_peek]
  apply (conditionalHead_stays hend hexpression s hs).mono fun _ h => h
  rintro ⟨condition, consequent⟩ later hlater
  cases consequent with
  | buy | sell => exact hs.atToken (by simp)
  | expression consequent nestedIf =>
    exact conditionalEnd_stays hend hexpression condition consequent nestedIf later hlater

theorem expressionHere_stays (hdeeper : deeper.Stays tokens) :
    Stays tokens (expressionHere limits deeper) := by
  intro s hs
  simp only [expressionHere, leads_bind, leads_peekKind, leads_peekSecond?]
  split
  case h_1 => exact conditional_stays hend hdeeper.expression s hs
  case h_2 hname hassign =>
    rw [leads_bind, leads_skip]
    refine (hs.skipped hend (by simp [hname])).leads_skip hend ?_ (hdeeper.expression.map _)
    simp [kind_first_tail hassign]
  case h_3 =>
    exact chains_stays hend hdeeper (by simp [chainOperators]) s hs

/-- The readers of all levels stay inside, by induction on the levels that are left. -/
theorem levels_stays (left : Nat) : (levels limits left).Stays tokens := by
  induction left with
  | zero => exact ⟨.refuse (by simp), .refuse (by simp), .refuse (by simp)⟩
  | succ left ih =>
    exact ⟨.nested limits (expressionHere_stays hend ih), .nested limits (power_stays hend ih),
      .nested limits (unary_stays hend ih)⟩

/-- A reading that is taken back goes on where it began. -/
theorem rules_stays (hexpression : Stays tokens expression) (fuel : Nat) :
    Stays tokens (rules outOfRounds expression fuel) := by
  induction fuel with
  | zero => exact .refuse (by simp)
  | succ fuel ih =>
    intro s hs
    simp only [rules, leads_bind, leads_get, leads_skipLineEnds, leads_peekKind, leads_ite,
      leads_modify, leads_pure]
    split
    · apply (conditionalHead_stays hend hexpression _ (hs.behindLineEnds hend)).mono fun _ h => h
      rintro ⟨condition, consequent⟩ later hlater
      cases consequent with
      | buy | sell => exact ih.map _ later hlater
      | expression => exact ⟨hs.isSuffix, hs.ne_nil⟩
    · exact ⟨hs.isSuffix, hs.ne_nil⟩

theorem strategy_stays (hexpression : Stays tokens expression) :
    Stays tokens (strategy expression) := by
  refine (Stays.expectWord hend _).bind fun _ => (Stays.expectSign hend _).bind fun _ s hs => ?_
  simp only [leads_bind, leads_peekKind]
  split
  · rename_i hkind
    refine hs.leads_skip hend (by simp [hkind]) ?_
    exact (Stays.expectSign hend _).bind fun _ => Stays.remaining.bind fun fuel =>
      (rules_stays hend hexpression (fuel + 1)).map _
  · exact Stays.unexpected _ s hs

theorem statementHere_stays (hexpression : Stays tokens expression) :
    Stays tokens (statementHere expression) := by
  intro s hs
  simp only [statementHere, leads_bind, leads_peekKind]
  split
  · exact strategy_stays hend hexpression s hs
  · simp only [leads_bind]
    apply (conditionalHead_stays hend hexpression s hs).mono fun _ h => h
    rintro ⟨condition, consequent⟩ later hlater
    cases consequent with
    | buy | sell => exact hlater
    | expression consequent nestedIf =>
      exact conditionalEnd_stays hend hexpression condition consequent nestedIf later hlater
  · exact hexpression s hs

theorem statement_stays (limits : Limits) : Stays tokens (statement limits) := by
  intro s hs
  simp only [statement, leads_bind, leads_peek, leads_ite, leads_throw, leads_pure]
  apply (statementHere_stays hend (levels_stays hend _).expression s hs).mono fun _ h => h
  intro node later hlater
  split
  · exact hs.atToken (by simp)
  · exact hlater

/-- Statements are read up to the end of the source and no further. -/
theorem statements_stays (limits : Limits) (fuel : Nat) :
    Stays tokens (statements outOfRounds limits fuel) := by
  induction fuel with
  | zero => exact .refuse (by simp)
  | succ fuel ih =>
    intro s hs
    simp only [statements, leads_bind, leads_peekKind, leads_ite, leads_pure]
    split
    · exact hs
    · apply (statement_stays hend limits s hs).mono fun _ h => h
      intro node later hlater
      split
      · exact (Stays.skipLineEnds hend).bind (fun _ => ih.map _) later hlater
      · exact ih.map _ later hlater
      · exact (Stays.unexpected _).bind (fun _ => ih.map _) later hlater

theorem program_stays (limits : Limits) : Stays tokens (program limits) := by
  refine (Stays.skipLineEnds hend).bind fun _ => Stays.remaining.bind fun fuel => ?_
  refine (statements_stays hend limits (fuel + 1)).bind fun nodes => ?_
  split
  · exact .refuse (by simp)
  · exact .pure _

end

/-- If anything, an end is put behind a token list. -/
theorem exists_closed_eq_append (tokens : List Token) :
    ∃ rest, closed tokens = tokens ++ rest := by
  unfold closed
  split
  · rename_i hnone
    rw [List.getLast?_eq_none_iff.1 hnone]
    exact ⟨_, rfl⟩
  · split
    · exact ⟨[], (List.append_nil _).symm⟩
    · exact ⟨_, rfl⟩

/-- A token list that says where the source ends is read as it is. -/
theorem closed_eq_self (hne : tokens ≠ [])
    (hend : ∀ token ∈ tokens.getLast?, token.kind = .sourceEnd) : closed tokens = tokens := by
  obtain ⟨last, hlast⟩ := Option.isSome_iff_exists.1 (List.getLast?_isSome.2 hne)
  rw [closed, hlast]
  exact if_pos (hend last hlast)

/-- A list of tokens with the end of the source behind them is refused at one of them, or at its
    end. -/
theorem atToken_of_parse_error {limits : Limits} {e : ParseError} (hne : tokens ≠ [])
    (hend : ∀ token ∈ tokens.getLast?, token.kind = .sourceEnd)
    (hparse : (parseTokensWithin limits tokens).result = .error e) : AtToken tokens e := by
  have hstays := program_stays hend limits { tokens := tokens } ⟨List.suffix_rfl, hne⟩
  unfold Leads at hstays
  rw [parseTokensWithin, closed_eq_self hne hend] at hparse
  cases hrun : program limits { tokens := tokens } with
  | ok program later =>
    rw [hrun] at hparse
    cases hparse
  | error refused later =>
    rw [hrun] at hparse hstays
    cases hparse
    exact hstays

end Candlewick.Grammar
