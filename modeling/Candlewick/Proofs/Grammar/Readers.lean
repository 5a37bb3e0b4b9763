import Candlewick.Proofs.Grammar.Derivation
import Candlewick.Proofs.Grammar.Leads

namespace Candlewick.Grammar

namespace Category

/-- Whether the phrases of a category are chains of operators that group to the left. -/
def IsChain (category : Category) : Prop :=
  2 ≤ category.rank ∧ category.rank ≤ 7

instance (category : Category) : Decidable category.IsChain :=
  inferInstanceAs (Decidable (_ ∧ _))

/-- The operators of a category of chains, by the token that writes them. -/
def operators (category : Category) : Operators :=
  (chainOperators.drop (category.rank - 2)).headD fun _ => none

/-- The reader of a category at its nesting level. -/
def reader (limits : Limits) (deeper : Deeper) : Category → Reader Node
  | expression => expressionHere limits deeper
  | power => Grammar.power limits deeper
  | unary => Grammar.unary limits deeper
  | indexed => Grammar.indexed limits deeper
  | primary => Grammar.primary deeper
  | category => chains limits deeper (chainOperators.drop (category.rank - 2))

theorem reader_chain {category : Category} (hchain : category.IsChain) (limits : Limits)
    (deeper : Deeper) :
    category.reader limits deeper =
      chain limits category.operators (category.tighter.reader limits deeper) := by
  obtain ⟨hlower, hupper⟩ := hchain
  cases category with
  | or | and | equality | comparison | sum | product => rfl
  | expression => exact absurd hlower (by decide)
  | power | unary | indexed | primary => exact absurd hupper (by decide)

theorem ne_primary_of_isChain {category : Category} (hchain : category.IsChain) :
    category ≠ .primary := by
  rintro rfl
  exact absurd hchain.2 (by decide)

/-- Every operator but the power belongs to a category of chains. -/
theorem isChain_of_operatorCategory {operator : BinaryOperator} {category : Category}
    (hoperator : operatorCategory operator = category) (hpower : category ≠ .power) :
    category.IsChain := by
  subst hoperator
  cases operator with
  | pow => exact absurd rfl hpower
  | _ => exact ⟨by decide, by decide⟩

/-- The table of a category holds its operators and no others. -/
theorem operators_eq_some_iff {category : Category} (hchain : category.IsChain) {kind : TokenKind}
    {operator : BinaryOperator} :
    category.operators kind = some operator ↔
      kind = (binaryTerminal operator).kind ∧ operatorCategory operator = category := by
  obtain ⟨hlower, hupper⟩ := hchain
  constructor
  · intro htable
    cases category with
    | or | and | equality | comparison | sum | product =>
      simp only [operators, rank, chainOperators, Nat.reduceSub, List.drop_succ_cons,
        List.drop_zero, List.headD_cons] at htable
      split at htable <;> cases htable <;> exact ⟨rfl, rfl⟩
    | expression => exact absurd hlower (by decide)
    | power | unary | indexed | primary => exact absurd hupper (by decide)
  · rintro ⟨rfl, rfl⟩
    cases operator with
    | pow => exact absurd hupper (by decide)
    | _ => rfl

end Category

namespace State

variable {s : State}

/-- A token of a kind without spellings is the terminal of its kind. -/
theorem terminals_eq_plain {kind : TokenKind} (hkind : (first s.terminals).kind = kind)
    (hend : kind ≠ .sourceEnd) (hfunction : ∀ builtin, kind ≠ .keyword (.function builtin)) :
    s.terminals = .plain kind :: s.skipped.terminals := by
  rcases s with ⟨_ | ⟨token, tokens⟩, nesting, warnings, announced⟩
  · exact absurd hkind.symm hend
  · change token.terminal :: tokens.map Token.terminal = _ :: tokens.map Token.terminal
    congr 1
    change token.kind = kind at hkind
    unfold Token.terminal
    split
    · rename_i builtin hname
      exact absurd (hkind.symm.trans hname) (hfunction builtin)
    · rw [hkind]
      rfl

/-- Where a keyword is ahead, its terminal is the first. The names of functions are left out, as
    each of them can be written in two ways. -/
theorem terminals_eq_word {keyword : Keyword}
    (hkind : (first s.terminals).kind = .keyword keyword)
    (hfunction : ∀ builtin, keyword ≠ .function builtin) :
    s.terminals = .word keyword :: s.skipped.terminals :=
  terminals_eq_plain hkind (by simp) (by simpa using hfunction)

/-- Where a sign is ahead, its terminal is the first. -/
theorem terminals_eq_sign {sign : Punctuation}
    (hkind : (first s.terminals).kind = .punctuation sign) :
    s.terminals = .sign sign :: s.skipped.terminals :=
  terminals_eq_plain hkind (by simp) (by simp)

/-- Where an operator is ahead, its terminal is the first. -/
theorem terminals_eq_binary {operator : BinaryOperator}
    (hkind : (first s.terminals).kind = (binaryTerminal operator).kind) :
    s.terminals = binaryTerminal operator :: s.skipped.terminals := by
  rw [terminals_eq_plain hkind] <;> cases operator <;> simp [binaryTerminal, Terminal.word]

/-- The name of a function keeps its spelling. -/
theorem terminals_eq_function {builtin : Builtin}
    (hkind : (first s.terminals).kind = .keyword (.function builtin)) :
    s.terminals = (Callee.function builtin s.ahead.lexeme).terminal :: s.skipped.terminals := by
  rcases s with ⟨_ | ⟨token, tokens⟩, nesting, warnings, announced⟩
  · cases hkind
  · change token.terminal :: tokens.map Token.terminal = _ :: tokens.map Token.terminal
    congr 1
    change token.kind = _ at hkind
    rw [Token.terminal, hkind]
    rfl

end State

end Candlewick.Grammar
