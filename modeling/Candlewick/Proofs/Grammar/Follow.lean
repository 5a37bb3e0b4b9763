import Candlewick.Proofs.Grammar.Derivation
import Candlewick.Proofs.Grammar.Leads

namespace Candlewick.Grammar

/-- The rank of the tightest category with a phrase that begins with a token of the kind; zero if no
    phrase does. -/
def opening : TokenKind → Nat
  | .number _ | .text _ | .identifier _ | .punctuation .leftParen => 11
  | .keyword .trueWord | .keyword .falseWord | .keyword (.price _) | .keyword (.function _) => 11
  | .mark .minus | .keyword .notWord => 9
  | .keyword .ifWord => 1
  | _ => 0

/-- The rank of the category in which a token of the kind takes a phrase further; zero if it does so
    in none. -/
def reach : TokenKind → Nat
  | .mark .assign => 1
  | .keyword .orWord => 2
  | .keyword .andWord => 3
  | .mark .equalEqual | .mark .notEqual => 4
  | .mark .greater | .mark .greaterEqual | .mark .less | .mark .lessEqual => 5
  | .mark .plus | .mark .minus => 6
  | .mark .star | .mark .slash | .mark .percent => 7
  | .mark .caret => 8
  | .punctuation .leftBracket => 10
  | .punctuation .leftParen => 11
  | _ => 0

/-- A phrase of the category ends where the terminals go on like this: the next one can at most take
    a phrase of a looser category further. -/
def Ends (category : Category) (rest : List Terminal) : Prop :=
  reach (first rest).kind < category.rank

/-- Where a phrase of a category ends, every phrase of a tighter category does. -/
theorem Ends.of_rank_le {category other : Category} {rest : List Terminal}
    (hends : Ends category rest) (hrank : category.rank ≤ other.rank) : Ends other rest :=
  Nat.lt_of_lt_of_le hends hrank

theorem Ends.tighter {category : Category} {rest : List Terminal} (hends : Ends category rest)
    (hprimary : category ≠ .primary) : Ends category.tighter rest :=
  hends.of_rank_le (by rw [Category.rank_tighter hprimary]; omega)

/-- A token ends the phrases of a category if it takes only phrases of looser ones further. -/
theorem ends_cons {category : Category} {terminal : Terminal}
    (hreach : reach terminal.kind < category.rank) (rest : List Terminal) :
    Ends category (terminal :: rest) :=
  hreach

/-- An operator takes phrases of the category further that it belongs to. -/
theorem reach_binaryTerminal (operator : BinaryOperator) :
    reach (binaryTerminal operator).kind = (operatorCategory operator).rank := by
  cases operator <;> rfl

/-- The operands of an operator end in front of it. -/
theorem ends_binaryTerminal {operator : BinaryOperator} {category : Category}
    (hrank : (operatorCategory operator).rank < category.rank) (rest : List Terminal) :
    Ends category (binaryTerminal operator :: rest) := by
  rw [Ends, first_cons, reach_binaryTerminal]
  exact hrank

/-- A phrase begins with a token that can begin phrases of its category. -/
theorem Derives.opening_le {category : Category} {phrase : Phrase}
    (hderives : Derives category phrase) :
    ∃ terminal rest, phrase.terminals = terminal :: rest ∧
      category.rank ≤ opening terminal.kind := by
  induction hderives with
  | number | text | price | name => exact ⟨_, _, rfl, Nat.le_refl _⟩
  | truth value => cases value <;> exact ⟨_, _, rfl, Nat.le_refl _⟩
  | @call callee _ _ => cases callee <;> exact ⟨_, _, rfl, Nat.le_refl _⟩
  | group => exact ⟨_, _, rfl, Nat.le_refl _⟩
  | @unary operator _ _ => cases operator <;> exact ⟨_, _, rfl, Nat.le_refl _⟩
  | assign => exact ⟨_, _, rfl, (by decide : 1 ≤ 11)⟩
  | ifThen | ifThenElse => exact ⟨_, _, rfl, Nat.le_refl _⟩
  | past _ _ ihobject =>
    obtain ⟨terminal, rest, hterminals, hrank⟩ := ihobject
    exact ⟨terminal, _, by rw [Phrase.terminals, hterminals]; rfl, hrank⟩
  | power _ _ ihbase =>
    obtain ⟨terminal, rest, hterminals, hrank⟩ := ihbase
    exact ⟨terminal, _, by rw [Phrase.terminals, hterminals]; rfl, Nat.le_of_succ_le hrank⟩
  | joined _ _ _ _ ihleft =>
    obtain ⟨terminal, rest, hterminals, hrank⟩ := ihleft
    exact ⟨terminal, _, by rw [Phrase.terminals, hterminals]; rfl, hrank⟩
  | tighter hprimary _ ih =>
    obtain ⟨terminal, rest, hterminals, hrank⟩ := ih
    rw [Category.rank_tighter hprimary] at hrank
    exact ⟨terminal, rest, hterminals, Nat.le_of_succ_le hrank⟩

/-- No token of a kind that begins no phrase of the category comes first. -/
theorem Derives.first_kind_ne {category : Category} {phrase : Phrase} {kind : TokenKind}
    (hderives : Derives category phrase) (hkind : opening kind < category.rank)
    (rest : List Terminal) : (first (phrase.terminals ++ rest)).kind ≠ kind := by
  obtain ⟨terminal, more, hterminals, hrank⟩ := hderives.opening_le
  rw [hterminals, List.cons_append, first_cons]
  rintro rfl
  omega

/-- A consequent does not begin with a trading action. -/
theorem Derives.not_action {consequent : Phrase} (hderives : Derives .expression consequent)
    (rest : List Terminal) :
    (first (consequent.terminals ++ rest)).kind ≠ .keyword .buyWord ∧
      (first (consequent.terminals ++ rest)).kind ≠ .keyword .sellWord :=
  ⟨hderives.first_kind_ne (by decide) rest, hderives.first_kind_ne (by decide) rest⟩

/-- Only a conditional begins with an `if`. -/
theorem Derives.not_if {phrase : Phrase} (hderives : Derives .or phrase) (rest : List Terminal) :
    (first (phrase.terminals ++ rest)).kind ≠ .keyword .ifWord :=
  hderives.first_kind_ne (by decide) rest

/-- Only expressions end with a conditional. -/
theorem Derives.isOpen_eq_false {category : Category} {phrase : Phrase}
    (hderives : Derives category phrase) (hrank : 2 ≤ category.rank) : phrase.isOpen = false := by
  induction hderives with
  | assign | ifThen | ifThenElse => exact absurd hrank (by decide)
  | tighter hprimary _ ih =>
    rw [Category.rank_tighter hprimary] at ih
    exact ih (by omega)
  | _ => rfl

/-- The second of some terminals, if there is one, assigns. -/
def SecondAssigns (terminals : List Terminal) : Prop :=
  terminals[1]?.map (·.kind) = some (.mark .assign)

/-- Nothing is assigned behind a terminal unless the next one says so. -/
theorem not_secondAssigns_cons (terminal : Terminal) {rest : List Terminal}
    (hrest : (first rest).kind ≠ .mark .assign) : ¬ SecondAssigns (terminal :: rest) := by
  intro hsecond
  cases rest with
  | nil => cases hsecond
  | cons next more => exact hrest (Option.some.inj hsecond)

/-- Only an assignment, which is an expression, has its sign in the second place. -/
theorem Derives.not_secondAssigns {category : Category} {phrase : Phrase}
    (hderives : Derives category phrase) (hrank : 2 ≤ category.rank) {rest : List Terminal}
    (hrest : (first rest).kind ≠ .mark .assign) : ¬ SecondAssigns (phrase.terminals ++ rest) := by
  induction hderives generalizing rest with
  | number | text | price | name => exact not_secondAssigns_cons _ hrest
  | truth value => cases value <;> exact not_secondAssigns_cons _ hrest
  | call => exact not_secondAssigns_cons _ (by simp)
  | group hinner =>
    rw [Phrase.terminals, List.cons_append, List.append_assoc]
    exact not_secondAssigns_cons _ (hinner.first_kind_ne (by decide) _)
  | unary hoperand =>
    exact not_secondAssigns_cons _ (hoperand.first_kind_ne (by decide) _)
  | past _ _ ihobject =>
    rw [Phrase.terminals, List.append_assoc]
    exact ihobject (by decide) (by simp)
  | power _ _ ihbase =>
    rw [Phrase.terminals, List.append_assoc]
    exact ihbase (by decide) (by simp [binaryTerminal])
  | @joined category operator left right _ _ _ _ ihleft _ =>
    rw [Phrase.terminals, List.append_assoc]
    exact ihleft hrank (by cases operator <;> simp [binaryTerminal])
  | assign | ifThen | ifThenElse => exact absurd hrank (by decide)
  | tighter hprimary _ ih =>
    rw [Category.rank_tighter hprimary] at ih
    exact ih (by omega) hrest

/-- The terminals of a list of arguments are those of the arguments and the commas between them. -/
theorem mem_listed {phrases : List Phrase} {terminal : Terminal}
    (hmem : terminal ∈ Phrase.listed phrases) :
    terminal = .sign .comma ∨ ∃ phrase ∈ phrases, terminal ∈ phrase.terminals := by
  induction phrases with
  | nil => simp [Phrase.listed] at hmem
  | cons phrase more ih =>
    cases more with
    | nil => exact .inr ⟨phrase, List.mem_cons_self, hmem⟩
    | cons next more =>
      rw [Phrase.listed, List.mem_append, List.mem_cons] at hmem
      rcases hmem with hmem | hmem | hmem
      · exact .inr ⟨phrase, List.mem_cons_self, hmem⟩
      · exact .inl hmem
      · rcases ih hmem with hcomma | ⟨other, hother, hmem⟩
        · exact .inl hcomma
        · exact .inr ⟨other, List.mem_cons_of_mem _ hother, hmem⟩

/-- Every terminal of an argument is among those of the list. -/
theorem mem_listed_of_mem {phrases : List Phrase} {phrase : Phrase} (hphrase : phrase ∈ phrases)
    {terminal : Terminal} (hmem : terminal ∈ phrase.terminals) :
    terminal ∈ Phrase.listed phrases := by
  induction phrases with
  | nil => cases hphrase
  | cons head more ih =>
    cases more with
    | nil =>
      obtain rfl := List.mem_singleton.1 hphrase
      exact hmem
    | cons next more =>
      rw [Phrase.listed, List.mem_append, List.mem_cons]
      rcases List.mem_cons.1 hphrase with rfl | hlater
      · exact .inl hmem
      · exact .inr (.inr (ih hlater))

/-- The end of a line or of the source is no part of a phrase. -/
theorem Derives.ne_end {category : Category} {phrase : Phrase}
    (hderives : Derives category phrase) {terminal : Terminal}
    (hmem : terminal ∈ phrase.terminals) :
    terminal.kind ≠ .lineEnd ∧ terminal.kind ≠ .sourceEnd := by
  induction hderives with
  | number | text | price | name =>
    rw [List.mem_singleton.1 hmem]
    simp
  | truth value =>
    cases value <;> rw [List.mem_singleton.1 hmem] <;> simp
  | @call callee arguments _ ih =>
    simp only [Phrase.terminals, List.mem_cons, List.mem_append, List.not_mem_nil, or_false] at hmem
    rcases hmem with rfl | rfl | hlisted | rfl
    · cases callee <;> simp [Callee.terminal]
    · simp
    · rcases mem_listed hlisted with rfl | ⟨argument, hargument, hmem⟩
      · simp
      · exact ih argument hargument hmem
    · simp
  | group _ ih =>
    simp only [Phrase.terminals, List.mem_cons, List.mem_append, List.not_mem_nil, or_false] at hmem
    rcases hmem with rfl | hinner | rfl
    · simp
    · exact ih hinner
    · simp
  | past _ _ ihobject ihoffset =>
    simp only [Phrase.terminals, List.mem_cons, List.mem_append, List.not_mem_nil, or_false] at hmem
    rcases hmem with hobject | rfl | hoffset | rfl
    · exact ihobject hobject
    · simp
    · exact ihoffset hoffset
    · simp
  | @unary operator _ _ ih =>
    rcases List.mem_cons.1 hmem with rfl | hoperand
    · cases operator <;> simp [unaryTerminal]
    · exact ih hoperand
  | power _ _ ihbase ihexponent =>
    rcases List.mem_append.1 hmem with hbase | hmem
    · exact ihbase hbase
    · rcases List.mem_cons.1 hmem with rfl | hexponent
      · simp [binaryTerminal]
      · exact ihexponent hexponent
  | @joined _ operator _ _ _ _ _ _ ihleft ihright =>
    rcases List.mem_append.1 hmem with hleft | hmem
    · exact ihleft hleft
    · rcases List.mem_cons.1 hmem with rfl | hright
      · cases operator <;> simp [binaryTerminal]
      · exact ihright hright
  | assign _ ih =>
    simp only [Phrase.terminals, List.mem_cons] at hmem
    rcases hmem with rfl | rfl | hvalue
    · simp
    · simp
    · exact ih hvalue
  | ifThen _ _ ihcondition ihconsequent =>
    simp only [Phrase.terminals, List.mem_cons, List.mem_append] at hmem
    rcases hmem with rfl | hcondition | rfl | hconsequent
    · simp
    · exact ihcondition hcondition
    · simp
    · exact ihconsequent hconsequent
  | ifThenElse _ _ _ ihcondition ihconsequent ihalternative =>
    simp only [Phrase.terminals, List.mem_cons, List.mem_append] at hmem
    rcases hmem with rfl | hcondition | rfl | hconsequent | rfl | halternative
    · simp
    · exact ihcondition hcondition
    · simp
    · exact ihconsequent hconsequent
    · simp
    · exact ihalternative halternative
  | tighter _ _ ih => exact ih hmem

end Candlewick.Grammar
