import Candlewick.Proofs.Grammar.Links

namespace Candlewick.Grammar

/-- A phrase stops where the terminals go on like this. -/
structure Stops (category : Category) (phrase : Phrase) (rest : List Terminal) : Prop where
  elseNearest : phrase.ElseNearest
  ends : Ends category rest
  closed : phrase.isOpen = true → (first rest).kind ≠ .keyword .elseWord

/-- The only phrase of a category with these terminals, however they go on. -/
structure Unique (category : Category) (phrase : Phrase) : Prop where
  derives : Derives category phrase
  only : ∀ ⦃other : Phrase⦄ ⦃rest rest' : List Terminal⦄, Derives category other →
    Stops category phrase rest → Stops category other rest' →
    phrase.terminals ++ rest = other.terminals ++ rest' → phrase = other ∧ rest = rest'

theorem Stops.tighter {category : Category} {phrase : Phrase} {rest : List Terminal}
    (hstops : Stops category phrase rest) (hprimary : category ≠ .primary) :
    Stops category.tighter phrase rest :=
  ⟨hstops.elseNearest, hstops.ends.tighter hprimary, hstops.closed⟩

/-- A phrase stops in front of a token that does not take it further. -/
theorem stops_cons {category : Category} {phrase : Phrase} {terminal : Terminal}
    (helse : phrase.ElseNearest) (hreach : reach terminal.kind < category.rank)
    (hkind : terminal.kind ≠ .keyword .elseWord) (rest : List Terminal) :
    Stops category phrase (terminal :: rest) :=
  ⟨helse, hreach, fun _ => hkind⟩

/-- What cannot end with a conditional stops in front of an `else` as well. -/
theorem Derives.stops {category : Category} {phrase : Phrase} {rest : List Terminal}
    (hderives : Derives category phrase) (helse : phrase.ElseNearest) (hrank : 2 ≤ category.rank)
    (hends : Ends category rest) : Stops category phrase rest := by
  refine ⟨helse, hends, fun hopen => ?_⟩
  rw [hderives.isOpen_eq_false hrank] at hopen
  cases hopen

/-- A phrase of a single token. -/
theorem unique_single {phrase : Phrase} {terminal : Terminal} (hderives : Derives .primary phrase)
    (hterminals : phrase.terminals = [terminal]) (hsingle : single? terminal = some phrase) :
    Unique .primary phrase := by
  refine ⟨hderives, fun other rest rest' hother hstops hstops' heq => ?_⟩
  rw [hterminals, List.singleton_append] at heq
  obtain ⟨terminal', hterminals', hsingle'⟩ | ⟨callee, arguments, rfl, harguments⟩ |
    ⟨inner, rfl, hinner⟩ := hother.primary_cases
  · rw [hterminals', List.singleton_append] at heq
    obtain ⟨rfl, rfl⟩ := List.cons.inj heq
    exact ⟨Option.some.inj (hsingle.symm.trans hsingle'), rfl⟩
  · have hrest := (List.cons.inj heq).2
    have hends : Ends .primary rest := hstops.ends
    rw [hrest] at hends
    exact absurd hends (by simp [Ends, reach, Category.rank])
  · obtain ⟨rfl, -⟩ := List.cons.inj heq
    cases hsingle

/-- A function is known by the name it is called by. -/
theorem Callee.terminal_injective {callee callee' : Callee}
    (heq : callee.terminal = callee'.terminal) : callee = callee' := by
  cases callee <;> cases callee' <;> cases heq <;> rfl

/-- What comes behind the first of several arguments. -/
def behindArgument (more : List Phrase) (rest : List Terminal) : List Terminal :=
  match more with
  | [] => .sign .rightParen :: rest
  | next :: more => .sign .comma :: (Phrase.listed (next :: more) ++ .sign .rightParen :: rest)

/-- Behind the first argument come the others, or the closing bracket. -/
theorem listed_cons (argument : Phrase) (more : List Phrase) (rest : List Terminal) :
    Phrase.listed (argument :: more) ++ .sign .rightParen :: rest =
      argument.terminals ++ behindArgument more rest := by
  cases more with
  | nil => rfl
  | cons next more => rw [Phrase.listed, List.append_assoc]; rfl

/-- An argument stops in front of a comma and in front of the closing bracket. -/
theorem stops_behindArgument {argument : Phrase} (helse : argument.ElseNearest)
    (more : List Phrase) (rest : List Terminal) :
    Stops .expression argument (behindArgument more rest) := by
  cases more with
  | nil => exact stops_cons helse (by decide) (by simp) _
  | cons next more => exact stops_cons helse (by decide) (by simp) _

/-- The arguments of a call are determined up to the closing bracket. -/
theorem listed_unique {arguments arguments' : List Phrase} {rest rest' : List Terminal}
    (hunique : ∀ argument ∈ arguments, Unique .expression argument)
    (helse : ∀ argument ∈ arguments, argument.ElseNearest)
    (hderives' : ∀ argument ∈ arguments', Derives .expression argument)
    (helse' : ∀ argument ∈ arguments', argument.ElseNearest)
    (heq : Phrase.listed arguments ++ .sign .rightParen :: rest =
      Phrase.listed arguments' ++ .sign .rightParen :: rest') :
    arguments = arguments' ∧ rest = rest' := by
  have hclose : ∀ (argument : Phrase) (rest : List Terminal), Derives .expression argument →
      (first (argument.terminals ++ rest)).kind ≠ .punctuation .rightParen :=
    fun argument rest hderives => hderives.first_kind_ne (by decide) rest
  induction arguments generalizing arguments' with
  | nil =>
    cases arguments' with
    | nil => exact ⟨rfl, (List.cons.inj heq).2⟩
    | cons argument' more' =>
      rw [listed_cons] at heq
      have hfirst := hclose argument' (behindArgument more' rest') (hderives' _ (by simp))
      rw [← heq] at hfirst
      exact absurd rfl hfirst
  | cons argument more ih =>
    obtain ⟨hargument, hmore⟩ := List.forall_mem_cons.1 hunique
    obtain ⟨hargumentElse, hmoreElse⟩ := List.forall_mem_cons.1 helse
    rw [listed_cons] at heq
    cases arguments' with
    | nil =>
      have hfirst := hclose argument (behindArgument more rest) hargument.derives
      rw [heq] at hfirst
      exact absurd rfl hfirst
    | cons argument' more' =>
      obtain ⟨hargument', hmore'⟩ := List.forall_mem_cons.1 hderives'
      obtain ⟨hargumentElse', hmoreElse'⟩ := List.forall_mem_cons.1 helse'
      rw [listed_cons] at heq
      obtain ⟨rfl, hbehind⟩ := hargument.only hargument'
        (stops_behindArgument hargumentElse more rest)
        (stops_behindArgument hargumentElse' more' rest') heq
      cases more with
      | nil =>
        cases more' with
        | nil => exact ⟨rfl, (List.cons.inj hbehind).2⟩
        | cons => cases (List.cons.inj hbehind).1
      | cons next more =>
        cases more' with
        | nil => cases (List.cons.inj hbehind).1
        | cons next' more' =>
          obtain ⟨hmores, hrest⟩ := ih hmore hmoreElse hmore' hmoreElse' (List.cons.inj hbehind).2
          exact ⟨by rw [hmores], hrest⟩

/-- A call is determined if its arguments are. -/
theorem unique_call {callee : Callee} {arguments : List Phrase}
    (hunique : ∀ argument ∈ arguments, Unique .expression argument) :
    Unique .primary (.call callee arguments) := by
  have hderives : Derives .primary (.call callee arguments) :=
    .call fun argument hmem => (hunique argument hmem).derives
  refine ⟨hderives, fun other rest rest' hother hstops hstops' heq => ?_⟩
  obtain ⟨terminal', hterminals', hsingle'⟩ | ⟨callee', arguments', rfl, harguments'⟩ |
    ⟨inner, rfl, hinner⟩ := hother.primary_cases
  · rw [hterminals', List.singleton_append, Phrase.terminals, List.cons_append] at heq
    have hends : Ends .primary rest' := hstops'.ends
    rw [← (List.cons.inj heq).2] at hends
    exact absurd hends (by simp [Ends, reach, Category.rank])
  · simp only [Phrase.terminals, List.cons_append, List.append_assoc, List.cons.injEq,
      true_and] at heq
    obtain ⟨hcallee, hlisted⟩ := heq
    obtain ⟨rfl, hrest⟩ := listed_unique hunique (Phrase.eachElseNearest_iff.1 hstops.elseNearest)
      harguments' (Phrase.eachElseNearest_iff.1 hstops'.elseNearest) hlisted
    exact ⟨by rw [Callee.terminal_injective hcallee], hrest⟩
  · have hkind : callee.terminal.kind = .punctuation .leftParen :=
      congrArg Terminal.kind (List.cons.inj heq).1
    cases callee <;> cases hkind

/-- An expression in brackets is determined if the expression is. -/
theorem unique_group {inner : Phrase} (hunique : Unique .expression inner) :
    Unique .primary (.group inner) := by
  refine ⟨.group hunique.derives, fun other rest rest' hother hstops hstops' heq => ?_⟩
  obtain ⟨terminal', hterminals', hsingle'⟩ | ⟨callee', arguments', rfl, harguments'⟩ |
    ⟨inner', rfl, hinner'⟩ := hother.primary_cases
  · rw [hterminals', List.singleton_append] at heq
    rw [← (List.cons.inj heq).1] at hsingle'
    cases hsingle'
  · have hkind : .punctuation .leftParen = callee'.terminal.kind :=
      congrArg Terminal.kind (List.cons.inj heq).1
    cases callee' <;> cases hkind
  · simp only [Phrase.terminals, List.cons_append, List.append_assoc, List.nil_append,
      List.cons.injEq, true_and] at heq
    have helse : inner.ElseNearest := hstops.elseNearest
    have helse' : inner'.ElseNearest := hstops'.elseNearest
    have hinnerStops : Stops .expression inner (.sign .rightParen :: rest) :=
      stops_cons helse (by decide) (by simp) rest
    have hinnerStops' : Stops .expression inner' (.sign .rightParen :: rest') :=
      stops_cons helse' (by decide) (by simp) rest'
    obtain ⟨rfl, hrest⟩ := hunique.only hinner' hinnerStops hinnerStops' heq
    exact ⟨rfl, (List.cons.inj hrest).2⟩

end Candlewick.Grammar
