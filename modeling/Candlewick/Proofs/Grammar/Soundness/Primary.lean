import Candlewick.Proofs.Grammar.Consequents
import Candlewick.Proofs.Grammar.Readers

namespace Candlewick.Grammar

/-- A phrase of a category stands at the front of what is ahead in a state and has been read in a
    later one, with its warnings. An `else` that comes next was not there to take. -/
structure Found (category : Category) (s later : State) (phrase : Phrase) : Prop where
  derives : Derives category phrase
  elseNearest : phrase.ElseNearest
  terminals : s.terminals = phrase.terminals ++ later.terminals
  closed : phrase.isOpen = true → (first later.terminals).kind ≠ .keyword .elseWord
  warnings : later.warnings.length = s.warnings.length + phrase.warned

/-- A reader that gives nothing but the trees of phrases of a category. -/
def Sound (category : Category) (reader : Reader Node) : Prop :=
  ∀ s, Leads (fun _ => True) reader s fun node later =>
    ∃ phrase, Found category s later phrase ∧ phrase.node = node

/-- A reader gives the same trees one level deeper. -/
theorem Sound.nested {category : Category} {reader : Reader Node} (hreader : Sound category reader)
    (limits : Limits) : Sound category (nested limits reader) := by
  intro s
  rw [leads_nested]
  split
  · trivial
  · apply (hreader _).mono fun _ h => h
    rintro node later ⟨phrase, hfound, hnode⟩
    exact ⟨phrase, ⟨hfound.derives, hfound.elseNearest, hfound.terminals, hfound.closed,
      hfound.warnings⟩, hnode⟩

theorem Found.tighter {inner : Category} {s later : State} {phrase : Phrase}
    (hfound : Found inner s later phrase) (category : Category) (hinner : category.tighter = inner)
    (hprimary : category ≠ .primary) : Found category s later phrase :=
  ⟨.tighter hprimary (hinner ▸ hfound.derives), hfound.elseNearest, hfound.terminals, hfound.closed,
    hfound.warnings⟩

variable {limits : Limits} {deeper : Deeper}

/-- The phrases of some arguments stand at the front, with a closing bracket behind them. -/
structure FoundArguments (s later : State) (phrases : List Phrase) : Prop where
  derives : ∀ phrase ∈ phrases, Derives .expression phrase
  elseNearest : ∀ phrase ∈ phrases, phrase.ElseNearest
  terminals : s.terminals = Phrase.listed phrases ++ .sign .rightParen :: later.terminals
  warnings : later.warnings.length = s.warnings.length + Phrase.warnedOf phrases

/-- What is read as arguments, from the first of them on, are arguments with commas between them and
    a bracket behind. -/
theorem argumentsFrom_sound (alarm : ParseFault)
    (hexpression : Sound .expression deeper.expression) (fuel : Nat) (s : State) :
    Leads (fun _ => True) (argumentsFrom alarm deeper.expression fuel) s fun nodes later =>
      ∃ phrases, phrases ≠ [] ∧ FoundArguments s later phrases ∧ Phrase.nodes phrases = nodes := by
  induction fuel generalizing s with
  | zero => trivial
  | succ fuel ih =>
    simp only [argumentsFrom, leads_bind, leads_accept, leads_ite, if_true, Bool.false_eq_true,
      if_false, leads_expectSign, leads_pure]
    apply (hexpression s).mono fun _ h => h
    rintro node later ⟨phrase, hfound, rfl⟩
    by_cases hcomma : (first later.terminals).kind = .punctuation .comma
    · rw [if_pos hcomma]
      apply (ih later.skipped).mono fun _ h => h
      rintro nodes last ⟨phrases, hne, hrest, rfl⟩
      refine ⟨phrase :: phrases, List.cons_ne_nil _ _, ⟨?_, ?_, ?_, ?_⟩, rfl⟩
      · exact List.forall_mem_cons.2 ⟨hfound.derives, hrest.derives⟩
      · exact List.forall_mem_cons.2 ⟨hfound.elseNearest, hrest.elseNearest⟩
      · obtain ⟨next, more, rfl⟩ := List.exists_cons_of_ne_nil hne
        rw [hfound.terminals, State.terminals_eq_sign hcomma, hrest.terminals]
        simp [Phrase.listed]
      · rw [hrest.warnings, State.warnings_skipped, hfound.warnings, Phrase.warnedOf_cons,
          Nat.add_assoc]
    · rw [if_neg hcomma]
      by_cases hparen : (first later.terminals).kind = .punctuation .rightParen
      · rw [if_pos hparen]
        refine ⟨[phrase], List.cons_ne_nil _ _, ⟨?_, ?_, ?_, ?_⟩, rfl⟩
        · simpa using hfound.derives
        · simpa using hfound.elseNearest
        · rw [hfound.terminals, State.terminals_eq_sign hparen, Phrase.listed]
        · simpa using hfound.warnings
      · rw [if_neg hparen]
        trivial

/-- What is read as the arguments of a call are expressions, in brackets and with commas between
    them. -/
theorem arguments_sound (hexpression : Sound .expression deeper.expression) (s : State) :
    Leads (fun _ => True) (arguments deeper) s fun nodes later =>
      ∃ phrases, (∀ phrase ∈ phrases, Derives .expression phrase) ∧
        (∀ phrase ∈ phrases, phrase.ElseNearest) ∧ Phrase.nodes phrases = nodes ∧
        s.terminals = .sign .leftParen :: (Phrase.listed phrases ++ [.sign .rightParen]) ++
          later.terminals ∧
        later.warnings.length = s.warnings.length + Phrase.warnedOf phrases := by
  simp only [arguments, leads_bind, leads_expectSign, leads_accept, leads_ite, if_true,
    Bool.false_eq_true, if_false, leads_pure, leads_remaining]
  by_cases hopen : (first s.terminals).kind = .punctuation .leftParen
  · rw [if_pos hopen]
    have hopen := State.terminals_eq_sign hopen
    by_cases hclose : (first s.skipped.terminals).kind = .punctuation .rightParen
    · rw [if_pos hclose]
      have hclose := State.terminals_eq_sign hclose
      exact ⟨[], by simp, by simp, rfl, by rw [hopen, hclose]; rfl, rfl⟩
    · rw [if_neg hclose]
      apply (argumentsFrom_sound _ hexpression _ _).mono fun _ h => h
      rintro nodes later ⟨phrases, _, hfound, rfl⟩
      refine ⟨phrases, hfound.derives, hfound.elseNearest, rfl, ?_, hfound.warnings⟩
      rw [hopen, hfound.terminals]
      simp
  · rw [if_neg hopen]
    trivial

/-- A phrase that a single token makes. -/
theorem found_single {s : State} {kind : TokenKind} {phrase : Phrase}
    (hkind : (first s.terminals).kind = kind) (hend : kind ≠ .sourceEnd)
    (hfunction : ∀ builtin, kind ≠ .keyword (.function builtin))
    (hderives : Derives .primary phrase) (helse : phrase.ElseNearest)
    (hterminals : phrase.terminals = [.plain kind]) (hopen : phrase.isOpen = false)
    (hwarned : phrase.warned = 0) : Found .primary s s.skipped phrase := by
  refine ⟨hderives, helse, ?_, by simp [hopen], by rw [hwarned]; rfl⟩
  rw [hterminals]
  exact State.terminals_eq_plain hkind hend hfunction

/-- What is read as an undivided expression is a terminal, a call or an expression in brackets. -/
theorem primary_sound (hexpression : Sound .expression deeper.expression) :
    Sound .primary (primary deeper) := by
  intro s
  simp only [primary, leads_bind, leads_peek, State.kind_ahead]
  split
  case h_1 value hkind =>
    exact ⟨_, found_single hkind (by simp) (by simp) (.number value) trivial rfl rfl rfl, rfl⟩
  case h_2 content hkind =>
    exact ⟨_, found_single hkind (by simp) (by simp) (.text content) trivial rfl rfl rfl, rfl⟩
  case h_3 hkind =>
    exact ⟨_, found_single hkind (by simp) (by simp) (.truth true) trivial rfl rfl rfl, rfl⟩
  case h_4 hkind =>
    exact ⟨_, found_single hkind (by simp) (by simp) (.truth false) trivial rfl rfl rfl, rfl⟩
  case h_5 field hkind =>
    exact ⟨_, found_single hkind (by simp) (by simp) (.price field) trivial rfl rfl rfl, rfl⟩
  case h_6 builtin hkind =>
    simp only [leads_bind, leads_skip, leads_peekKind, leads_ite, leads_unexpected, leads_pure]
    split
    · apply (arguments_sound hexpression _).mono fun _ h => h
      rintro nodes later ⟨phrases, hderives, helse, rfl, hterminals, hwarnings⟩
      refine ⟨.call (.function builtin s.ahead.lexeme) phrases,
        ⟨.call hderives, ?_, ?_, ?_, hwarnings⟩, rfl⟩
      · exact Phrase.eachElseNearest_iff.2 helse
      · rw [State.terminals_eq_function hkind, hterminals]
        rfl
      · intro hopen
        cases hopen
    · trivial
  case h_7 name hkind =>
    simp only [leads_bind, leads_skip, leads_peekKind, leads_ite, leads_pure]
    split
    · apply (arguments_sound hexpression _).mono fun _ h => h
      rintro nodes later ⟨phrases, hderives, helse, rfl, hterminals, hwarnings⟩
      refine ⟨.call (.word name) phrases, ⟨.call hderives, ?_, ?_, ?_, hwarnings⟩, rfl⟩
      · exact Phrase.eachElseNearest_iff.2 helse
      · rw [State.terminals_eq_plain hkind (by simp) (by simp), hterminals]
        rfl
      · intro hopen
        cases hopen
    · exact ⟨_, found_single hkind (by simp) (by simp) (.name name) trivial rfl rfl rfl, rfl⟩
  case h_8 hkind =>
    simp only [leads_bind, leads_skip, leads_expectSign, leads_pure]
    apply (hexpression s.skipped).mono fun _ h => h
    rintro node later ⟨phrase, hfound, rfl⟩
    by_cases hclose : (first later.terminals).kind = .punctuation .rightParen
    · rw [if_pos hclose]
      refine ⟨.group phrase,
        ⟨.group hfound.derives, hfound.elseNearest, ?_, ?_, hfound.warnings⟩, rfl⟩
      · rw [State.terminals_eq_sign hkind, hfound.terminals, State.terminals_eq_sign hclose]
        simp [Phrase.terminals]
      · intro hopen
        cases hopen
    · rw [if_neg hclose]
      trivial
  case h_9 | h_10 => trivial

end Candlewick.Grammar
