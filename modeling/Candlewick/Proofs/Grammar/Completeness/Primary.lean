import Candlewick.Proofs.Grammar.Completeness.Continuing

namespace Candlewick.Grammar

/-- Behind the first terminal, the others are ahead. -/
theorem behind_skipped {s : State} {terminal : Terminal} {rest : List Terminal}
    (hterminals : s.terminals = terminal :: rest) : Behind s rest s.skipped :=
  ⟨by rw [State.terminals_skipped, hterminals, List.tail_cons], rfl⟩

/-- Behind a part that has been read, a token more. -/
theorem Behind.skipped {s later : State} {terminal : Terminal} {rest : List Terminal}
    (hbehind : Behind s (terminal :: rest) later) : Behind s rest later.skipped :=
  ⟨by rw [State.terminals_skipped, hbehind.terminals, List.tail_cons], hbehind.nesting⟩

/-- Being behind what has been read is passed on from state to state. -/
theorem Behind.trans {s later last : State} {middle rest : List Terminal}
    (hlater : Behind s middle later) (hlast : Behind later rest last) : Behind s rest last :=
  ⟨hlast.terminals, hlast.nesting.trans hlater.nesting⟩

variable {limits : Limits}

/-- A phrase of a single token, which is not followed by arguments. -/
theorem complete_single {kind : TokenKind} {phrase : Phrase}
    (hterminals : phrase.terminals = [.plain kind]) (hnesting : phrase.nesting = 0)
    (hreads : ∀ (deeper : Deeper) (refused : ParseError → Prop) (s : State)
      (arrived : Node → State → Prop), (first s.terminals).kind = kind →
      (first s.skipped.terminals).kind ≠ .punctuation .leftParen →
      arrived phrase.node s.skipped → Leads refused (primary deeper) s arrived) :
    Complete limits .primary phrase := by
  intro fits s rest arrived hahead harrived
  have hs : s.terminals = .plain kind :: rest := by
    rw [hahead.terminals, hterminals]
    rfl
  have hbehind : Behind s rest s.skipped := behind_skipped hs
  apply hreads
  · rw [hs]
    rfl
  · intro hparen
    have hends : reach (first rest).kind < 11 := hahead.ends
    rw [hbehind.terminals] at hparen
    rw [hparen] at hends
    exact absurd hends (by decide)
  · have hlevel := hahead.level
    exact harrived s.skipped hbehind (by omega)

/-- The arguments of a call up to the closing bracket. -/
theorem leads_argumentsFrom {alarm : ParseFault} {level : Nat} (hlevel : level ≤ limits.nesting) {fits : Prop}
    {phrases : List Phrase} (hne : phrases ≠ [])
    (hcomplete : ∀ phrase ∈ phrases, Complete limits .expression phrase)
    (hfits : fits → ∀ phrase ∈ phrases, Fits limits (level + 1) phrase) {rest : List Terminal}
    {fuel : Nat} {s : State} {arrived : List Node → State → Prop} (hnesting : s.nesting = level)
    (hterminals : s.terminals = Phrase.listed phrases ++ .sign .rightParen :: rest)
    (hfuel : s.terminals.length ≤ fuel)
    (harrived : ∀ later, Behind s rest later → level + Phrase.nestings phrases ≤ limits.nesting →
      arrived (Phrase.nodes phrases) later) :
    Leads (TooDeep fits) (argumentsFrom alarm (deeperAt limits level).expression fuel) s arrived := by
  induction phrases generalizing fuel s arrived with
  | nil => exact absurd rfl hne
  | cons phrase more ih =>
    obtain ⟨hphrase, hmore⟩ := List.forall_mem_cons.1 hcomplete
    have hphraseFits : fits → Fits limits (level + 1) phrase := fun h =>
      (List.forall_mem_cons.1 (hfits h)).1
    have hmoreFits : fits → ∀ phrase ∈ more, Fits limits (level + 1) phrase := fun h =>
      (List.forall_mem_cons.1 (hfits h)).2
    cases fuel with
    | zero =>
      rw [hterminals] at hfuel
      simp at hfuel
    | succ fuel =>
      simp only [argumentsFrom, leads_bind, leads_accept, leads_ite, if_true, Bool.false_eq_true,
        if_false, leads_expectSign, leads_pure, deeperAt_expression hlevel]
      cases more with
      | nil =>
        apply hphrase.below hnesting hterminals (ends_cons (by decide) _) (by simp) hphraseFits
        intro later hbehind hphraseNesting
        rw [hbehind.terminals]
        simp only [first_cons, Terminal.kind_sign, if_true, reduceCtorEq, if_false,
          TokenKind.punctuation.injEq]
        apply harrived _ hbehind.skipped
        simp only [Phrase.nestings]
        omega
      | cons next more =>
        have hs : s.terminals = phrase.terminals ++ .sign .comma ::
            (Phrase.listed (next :: more) ++ .sign .rightParen :: rest) := by
          rw [hterminals, Phrase.listed, List.append_assoc, List.cons_append]
        apply hphrase.below hnesting hs (ends_cons (by decide) _) (by simp) hphraseFits
        intro later hbehind hphraseNesting
        rw [hbehind.terminals]
        simp only [first_cons, Terminal.kind_sign, if_true]
        rw [← deeperAt_expression hlevel]
        have hskipped := hbehind.skipped
        refine ih (List.cons_ne_nil _ _) hmore hmoreFits (hskipped.nesting.trans hnesting)
          hskipped.terminals ?_ ?_
        · rw [hs, List.length_append, List.length_cons] at hfuel
          rw [hskipped.terminals]
          omega
        · intro last hlast hmoreNesting
          apply harrived last ⟨hlast.terminals, hlast.nesting.trans hskipped.nesting⟩
          simp only [Phrase.nestings] at hmoreNesting ⊢
          omega

/-- A call behind its name. -/
theorem leads_arguments {level : Nat} (hlevel : level ≤ limits.nesting) {fits : Prop}
    {phrases : List Phrase} (hderives : ∀ phrase ∈ phrases, Derives .expression phrase)
    (hcomplete : ∀ phrase ∈ phrases, Complete limits .expression phrase)
    (hfits : fits → ∀ phrase ∈ phrases, Fits limits (level + 1) phrase) {rest : List Terminal}
    {s : State} {arrived : List Node → State → Prop} (hnesting : s.nesting = level)
    (hterminals : s.terminals =
      .sign .leftParen :: (Phrase.listed phrases ++ .sign .rightParen :: rest))
    (harrived : ∀ later, Behind s rest later → level + Phrase.nestings phrases ≤ limits.nesting →
      arrived (Phrase.nodes phrases) later) :
    Leads (TooDeep fits) (arguments (deeperAt limits level)) s arrived := by
  have hbehind := behind_skipped hterminals
  simp only [arguments, leads_bind, leads_expectSign, leads_accept, leads_ite, if_true,
    Bool.false_eq_true, if_false, leads_pure, leads_remaining, hterminals, first_cons,
    Terminal.kind_sign, hbehind.terminals]
  cases phrases with
  | nil =>
    simp only [Phrase.listed, List.nil_append, first_cons, Terminal.kind_sign, if_true]
    exact harrived _ hbehind.skipped (by simpa [Phrase.nestings] using hlevel)
  | cons phrase more =>
    have hfirst : (first (Phrase.listed (phrase :: more) ++ .sign .rightParen :: rest)).kind ≠
        .punctuation .rightParen := by
      have hphrase := (List.forall_mem_cons.1 hderives).1
      cases more with
      | nil => exact hphrase.first_kind_ne (by decide) _
      | cons next more =>
        rw [Phrase.listed, List.append_assoc]
        exact hphrase.first_kind_ne (by decide) _
    rw [if_neg hfirst]
    refine leads_argumentsFrom hlevel (List.cons_ne_nil _ _) hcomplete hfits hnesting
      hbehind.terminals ?_ ?_
    · exact hbehind.terminals ▸ Nat.le_succ _
    · intro later hlater
      exact harrived later ⟨hlater.terminals, hlater.nesting⟩

/-- A call is read if its arguments are. -/
theorem complete_call {callee : Callee} {arguments : List Phrase}
    (hderives : ∀ argument ∈ arguments, Derives .expression argument)
    (hcomplete : ∀ argument ∈ arguments, Complete limits .expression argument) :
    Complete limits .primary (.call callee arguments) := by
  intro fits s rest arrived hahead harrived
  have hterminals : s.terminals = callee.terminal ::
      (.sign .leftParen :: (Phrase.listed arguments ++ .sign .rightParen :: rest)) := by
    rw [hahead.terminals, Phrase.terminals]
    simp
  have hbehind := behind_skipped hterminals
  have harguments : Leads (TooDeep fits) (Grammar.arguments (deeperAt limits s.nesting)) s.skipped
      fun nodes later => arrived (.call callee.name nodes) later := by
    refine leads_arguments hahead.level hderives hcomplete (fun h => (hahead.fits h).arguments)
      rfl hbehind.terminals ?_
    intro later hlater hnesting
    exact harrived later ⟨hlater.terminals, hlater.nesting⟩ hnesting
  have hkind : s.ahead.kind = callee.terminal.kind := by
    rw [State.kind_ahead, hterminals, first_cons]
  have hparen : (first s.skipped.terminals).kind = .punctuation .leftParen := by
    rw [hbehind.terminals]
    rfl
  cases callee with
  | word name =>
    simp only [Category.reader, primary, leads_bind, leads_peek, hkind, Callee.terminal,
      Terminal.kind_plain, leads_skip, leads_peekKind, leads_ite, hparen, if_true, leads_pure]
    exact harguments
  | function builtin spelling =>
    have hspelling : s.ahead.lexeme = spelling := by
      have hterminal : s.ahead.terminal = ⟨.keyword (.function builtin), spelling⟩ := by
        rw [State.terminal_ahead, hterminals]
        rfl
      rw [Token.terminal, hkind] at hterminal
      exact congrArg Terminal.spelling hterminal
    simp only [Category.reader, primary, leads_bind, leads_peek, hkind, Callee.terminal,
      leads_skip, leads_peekKind, leads_ite, hparen, if_true, leads_pure, hspelling]
    exact harguments

/-- An expression in brackets is read if the expression is. -/
theorem complete_group {inner : Phrase} (hcomplete : Complete limits .expression inner) :
    Complete limits .primary (.group inner) := by
  intro fits s rest arrived hahead harrived
  have hterminals : s.terminals = .sign .leftParen ::
      (inner.terminals ++ .sign .rightParen :: rest) := by
    rw [hahead.terminals, Phrase.terminals]
    simp
  have hbehind := behind_skipped hterminals
  simp only [Category.reader, primary, leads_bind, leads_peek, State.kind_ahead, hterminals,
    first_cons, Terminal.kind_sign, leads_skip, leads_expectSign, leads_pure,
    deeperAt_expression hahead.level]
  apply hcomplete.below hbehind.nesting hbehind.terminals (ends_cons (by decide) _) (by simp)
    fun h => (hahead.fits h).inner
  intro later hlater hnesting
  rw [hlater.terminals, first_cons, Terminal.kind_sign, if_pos rfl]
  apply harrived _ ⟨hlater.skipped.terminals, hlater.nesting⟩
  simp only [Phrase.nesting]
  omega

end Candlewick.Grammar
