import Candlewick.Proofs.Grammar.Phrase

namespace Candlewick.Grammar

variable {α β : Type}

/-- The terminals ahead. -/
def State.terminals (s : State) : List Terminal :=
  s.tokens.map Token.terminal

/-- The state behind the next token. -/
def State.skipped (s : State) : State :=
  { s with tokens := s.tokens.tail }

/-- The state after a warning. -/
def State.warned (s : State) (warning : Warning) : State :=
  { s with warnings := s.warnings ++ [warning], announced := s.announced ++ [warning] }

/-- The state behind the ends of lines that come next. -/
def State.behindLineEnds (s : State) : State :=
  { s with tokens := s.tokens.dropWhile (·.kind == .lineEnd) }

/-- The terminal that comes first; behind all others there is nothing but the end. -/
def first (terminals : List Terminal) : Terminal :=
  terminals.headD (.plain .sourceEnd)

@[simp] theorem first_cons (terminal : Terminal) (rest : List Terminal) :
    first (terminal :: rest) = terminal := rfl

@[simp] theorem first_nil : first [] = .plain .sourceEnd := rfl

/-- How many line ends come first is determined. -/
theorem lineEnds_append_inj {count count' : Nat} {rest rest' : List Terminal}
    (hfirst : (first rest).kind ≠ .lineEnd) (hfirst' : (first rest').kind ≠ .lineEnd)
    (heq : lineEnds count ++ rest = lineEnds count' ++ rest') : count = count' ∧ rest = rest' := by
  induction count generalizing count' with
  | zero =>
    cases count' with
    | zero => exact ⟨rfl, heq⟩
    | succ count' =>
      have hrest : rest = .plain .lineEnd :: (lineEnds count' ++ rest') := heq
      rw [hrest] at hfirst
      exact absurd rfl hfirst
  | succ count ih =>
    cases count' with
    | zero =>
      have hrest' : rest' = .plain .lineEnd :: (lineEnds count ++ rest) := heq.symm
      rw [hrest'] at hfirst'
      exact absurd rfl hfirst'
    | succ count' =>
      obtain ⟨rfl, hrest⟩ := ih (List.cons.inj heq).2
      exact ⟨rfl, hrest⟩

namespace State

variable (s : State)

/-- The token ahead is written with the first of the terminals ahead. -/
@[simp] theorem terminal_ahead : s.ahead.terminal = first s.terminals := by
  unfold ahead terminals
  cases s.tokens <;> rfl

@[simp] theorem kind_ahead : s.ahead.kind = (first s.terminals).kind := by
  rw [← terminal_ahead, Token.kind_terminal]

@[simp] theorem terminals_skipped : s.skipped.terminals = s.terminals.tail :=
  List.map_tail

/-- All ends of lines that come next are left behind. -/
theorem terminals_behindLineEnds :
    ∃ count, s.terminals = lineEnds count ++ s.behindLineEnds.terminals ∧
      (first s.behindLineEnds.terminals).kind ≠ .lineEnd := by
  rcases s with ⟨tokens, nesting, warnings, announced⟩
  simp only [terminals, behindLineEnds]
  induction tokens with
  | nil => exact ⟨0, rfl, by simp⟩
  | cons token tokens ih =>
    by_cases hkind : token.kind = .lineEnd
    · obtain ⟨count, hterminals, hfirst⟩ := ih
      have hterminal : token.terminal = .plain .lineEnd := by
        rw [Token.terminal, hkind]
        rfl
      have hdrop : (token :: tokens).dropWhile (·.kind == .lineEnd) =
          tokens.dropWhile (·.kind == .lineEnd) := by
        rw [List.dropWhile_cons, if_pos (by simpa using hkind)]
      rw [hdrop]
      refine ⟨count + 1, ?_, hfirst⟩
      rw [List.map_cons, hterminal, hterminals]
      rfl
    · have hdrop : (token :: tokens).dropWhile (·.kind == .lineEnd) = token :: tokens := by
        rw [List.dropWhile_cons, if_neg (by simpa using hkind)]
      rw [hdrop]
      exact ⟨0, rfl, hkind⟩

theorem behindLineEnds_of_ne (hfirst : (first s.terminals).kind ≠ .lineEnd) :
    s.behindLineEnds = s := by
  rcases s with ⟨_ | ⟨token, tokens⟩, nesting, warnings, announced⟩
  · rfl
  · have hkind : token.kind ≠ .lineEnd := hfirst
    have hdrop : (token :: tokens).dropWhile (·.kind == .lineEnd) = token :: tokens :=
      List.dropWhile_cons_of_neg (by simpa using hkind)
    exact congrArg (State.mk · nesting warnings announced) hdrop

@[simp] theorem nesting_behindLineEnds : s.behindLineEnds.nesting = s.nesting := rfl

@[simp] theorem warnings_skipped : s.skipped.warnings = s.warnings := rfl

@[simp] theorem warnings_behindLineEnds : s.behindLineEnds.warnings = s.warnings := rfl

@[simp] theorem warnings_warned (warning : Warning) :
    (s.warned warning).warnings = s.warnings ++ [warning] := rfl

/-- There is a terminal for every token ahead. -/
@[simp] theorem length_tokens : s.tokens.length = s.terminals.length :=
  (List.length_map Token.terminal).symm

end State

/-- A reader leads from a state to a result and a later state of the given kind, or to an error of
    the kind that may refuse the source. -/
def Leads (refused : ParseError → Prop) (reader : Reader α) (s : State)
    (arrived : α → State → Prop) : Prop :=
  match reader s with
  | .ok value later => arrived value later
  | .error e _ => refused e

section

variable {refused : ParseError → Prop} {s : State}

/-- A reader that leads somewhere leads wherever is further on. -/
theorem Leads.mono {refused' : ParseError → Prop} {reader : Reader α}
    {arrived arrived' : α → State → Prop} (hleads : Leads refused reader s arrived)
    (hrefused : ∀ e, refused e → refused' e)
    (harrived : ∀ value later, arrived value later → arrived' value later) :
    Leads refused' reader s arrived' := by
  unfold Leads at hleads ⊢
  cases hrun : reader s with
  | ok value later =>
    rw [hrun] at hleads
    exact harrived value later hleads
  | error e later =>
    rw [hrun] at hleads
    exact hrefused e hleads

/-- What holds of where a reader leads in two ways holds of it at once. -/
theorem Leads.and {refused' : ParseError → Prop} {reader : Reader α} {one other : α → State → Prop}
    (hone : Leads refused reader s one) (hother : Leads refused' reader s other) :
    Leads refused reader s fun value later => one value later ∧ other value later := by
  unfold Leads at hone hother ⊢
  cases hrun : reader s with
  | ok value later =>
    rw [hrun] at hone hother
    exact ⟨hone, hother⟩
  | error e later =>
    rw [hrun] at hone
    exact hone

/-- Nothing is said of where a reader leads. -/
theorem leads_trivial (reader : Reader α) (s : State) :
    Leads (fun _ => True) reader s fun _ _ => True := by
  unfold Leads
  cases reader s <;> trivial

variable {arrived : α → State → Prop}

/-- A result by itself leads on from where the reading is. -/
@[simp] theorem leads_pure {value : α} : Leads refused (pure value) s arrived ↔ arrived value s :=
  Iff.rfl

@[simp] theorem leads_throw {e : ParseError} :
    Leads refused (throw e : Reader α) s arrived ↔ refused e :=
  Iff.rfl

/-- A sequence leads where its second reader leads from wherever the first one does. -/
@[simp] theorem leads_bind {reader : Reader β} {next : β → Reader α} :
    Leads refused (reader >>= next) s arrived ↔
      Leads refused reader s fun value later => Leads refused (next value) later arrived := by
  simp only [Leads, Bind.bind, EStateM.bind]
  cases reader s <;> rfl

@[simp] theorem leads_map {reader : Reader β} {f : β → α} :
    Leads refused (f <$> reader) s arrived ↔
      Leads refused reader s fun value later => arrived (f value) later := by
  rw [map_eq_pure_bind, leads_bind]
  rfl

/-- A choice leads where the reader that is chosen leads. -/
@[simp] theorem leads_ite {condition : Prop} [Decidable condition] {one other : Reader α} :
    Leads refused (if condition then one else other) s arrived ↔
      if condition then Leads refused one s arrived else Leads refused other s arrived := by
  split <;> rfl

/-- Looking at the token ahead takes nothing. -/
@[simp] theorem leads_peek {arrived : Token → State → Prop} :
    Leads refused peek s arrived ↔ arrived s.ahead s :=
  Iff.rfl

@[simp] theorem leads_peekKind {arrived : TokenKind → State → Prop} :
    Leads refused peekKind s arrived ↔ arrived (first s.terminals).kind s := by
  rw [← State.kind_ahead]
  rfl

@[simp] theorem leads_peekSecond? {arrived : Option TokenKind → State → Prop} :
    Leads refused peekSecond? s arrived ↔ arrived (s.terminals[1]?.map (·.kind)) s := by
  rw [State.terminals, List.getElem?_map, Option.map_map]
  rfl

@[simp] theorem leads_remaining {arrived : Nat → State → Prop} :
    Leads refused remaining s arrived ↔ arrived s.terminals.length s := by
  rw [← State.length_tokens]
  rfl

@[simp] theorem leads_skip {arrived : Unit → State → Prop} :
    Leads refused skip s arrived ↔ arrived () s.skipped :=
  Iff.rfl

/-- All ends of lines ahead are passed over at once. -/
@[simp] theorem leads_skipLineEnds {arrived : Unit → State → Prop} :
    Leads refused skipLineEnds s arrived ↔ arrived () s.behindLineEnds :=
  Iff.rfl

@[simp] theorem leads_get {arrived : State → State → Prop} :
    Leads refused get s arrived ↔ arrived s s :=
  Iff.rfl

@[simp] theorem leads_modify {f : State → State} {arrived : Unit → State → Prop} :
    Leads refused (modify f) s arrived ↔ arrived () (f s) :=
  Iff.rfl

@[simp] theorem leads_warn {warning : Warning} {arrived : Unit → State → Prop} :
    Leads refused (warn warning) s arrived ↔ arrived () (s.warned warning) :=
  Iff.rfl

/-- A refusal is an error at the place of the token ahead. -/
@[simp] theorem leads_refuse {fault : ParseFault} :
    Leads refused (refuse fault : Reader α) s arrived ↔ refused ⟨fault, s.ahead.place⟩ :=
  Iff.rfl

/-- An unexpected token is named by the error. -/
@[simp] theorem leads_unexpected {wanted : Wanted} :
    Leads refused (unexpected wanted : Reader α) s arrived ↔
      refused ⟨.expected wanted s.ahead, s.ahead.place⟩ :=
  Iff.rfl

/-- A kind of token is taken if it is ahead, and otherwise nothing happens. -/
@[simp] theorem leads_accept {kind : TokenKind} {arrived : Bool → State → Prop} :
    Leads refused (accept kind) s arrived ↔
      if (first s.terminals).kind = kind then arrived true s.skipped else arrived false s := by
  simp [accept]

/-- A keyword is taken if it is ahead, and otherwise the token there is refused. -/
@[simp] theorem leads_expectWord {keyword : Keyword} {arrived : Unit → State → Prop} :
    Leads refused (expectWord keyword) s arrived ↔
      if (first s.terminals).kind = .keyword keyword then arrived () s.skipped
      else refused ⟨.expected (.word keyword) s.ahead, s.ahead.place⟩ := by
  simp [expectWord]

/-- A sign is taken if it is ahead, and otherwise the token there is refused. -/
@[simp] theorem leads_expectSign {sign : Punctuation} {arrived : Unit → State → Prop} :
    Leads refused (expectSign sign) s arrived ↔
      if (first s.terminals).kind = .punctuation sign then arrived () s.skipped
      else refused ⟨.expected (.sign sign) s.ahead, s.ahead.place⟩ := by
  simp [expectSign]

/-- A reader one level deeper is refused at the bound, and otherwise comes back to its level. -/
theorem leads_nested {limits : Limits} {reader : Reader α} :
    Leads refused (nested limits reader) s arrived ↔
      if limits.nesting ≤ s.nesting then refused ⟨.nestedTooDeeply, s.ahead.place⟩
      else Leads refused reader { s with nesting := s.nesting + 1 } fun value later =>
        arrived value { later with nesting := later.nesting - 1 } := by
  by_cases hbound : limits.nesting ≤ s.nesting
  · simp only [Leads, nested, if_pos hbound]
    rfl
  · simp only [Leads, nested, if_neg hbound]
    cases reader { s with nesting := s.nesting + 1 } <;> rfl

/-- The depth of a joined tree is refused beyond the bound. -/
theorem leads_joinedDepth {limits : Limits} {known : Option Nat} {left right : Node}
    {arrived : Nat → State → Prop} :
    Leads refused (joinedDepth limits known left right) s arrived ↔
      if limits.depth < max (known.getD left.depth) right.depth + 1 then
        refused ⟨.nestedTooDeeply, s.ahead.place⟩
      else arrived (max (known.getD left.depth) right.depth + 1) s := by
  unfold joinedDepth
  simp only [leads_ite, leads_refuse, leads_pure]

/-- At the end of the source there are no more statements. -/
theorem leads_statements_of_end {alarm : ParseFault} {limits : Limits} {fuel : Nat}
    {arrived : List Node → State → Prop} (hend : (first s.terminals).kind = .sourceEnd)
    (harrived : arrived [] s) :
    Leads refused (statements alarm limits (fuel + 1)) s arrived := by
  simp only [statements, leads_bind, leads_peekKind, hend, if_true, leads_ite, leads_pure]
  exact harrived

variable {later : State}

/-- The run of a sequence whose first reader has a result. -/
theorem bind_of_ok {reader : Reader β} {next : β → Reader α} {value : β}
    (hrun : reader s = .ok value later) : (reader >>= next) s = next value later := by
  simp only [Bind.bind, EStateM.bind, hrun]

/-- The run of a sequence whose first reader refuses. -/
theorem bind_of_error {reader : Reader β} {next : β → Reader α} {e : ParseError}
    (hrun : reader s = .error e later) : (reader >>= next) s = .error e later := by
  simp only [Bind.bind, EStateM.bind, hrun]

/-- Two readings that begin in the same way do the same if they do so wherever that leads. -/
theorem bind_congr_of_leads {reader : Reader β} {next next' : β → Reader α}
    {reached : β → State → Prop} (hleads : Leads refused reader s reached)
    (hnext : ∀ value later, reached value later → next value later = next' value later) :
    (reader >>= next) s = (reader >>= next') s := by
  unfold Leads at hleads
  cases hrun : reader s with
  | ok value later =>
    rw [hrun] at hleads
    rw [bind_of_ok hrun, bind_of_ok hrun]
    exact hnext value later hleads
  | error e later => rw [bind_of_error hrun, bind_of_error hrun]

/-- So they do behind a first reader with a result that is known. -/
theorem bind_congr_of_ok {reader : Reader β} {next next' : β → Reader α} {value : β}
    (hrun : reader s = .ok value later) (hnext : next value later = next' value later) :
    (reader >>= next) s = (reader >>= next') s := by
  rw [bind_of_ok hrun, bind_of_ok hrun, hnext]

/-- In a sequence, the first reader may be replaced by one with the same run. -/
theorem bind_congr_left {reader reader' : Reader β} (next : β → Reader α)
    (hreader : reader s = reader' s) : (reader >>= next) s = (reader' >>= next) s := by
  simp only [Bind.bind, EStateM.bind, hreader]

/-- The run of a reader that accepts a kind of token which is ahead. -/
theorem accept_of_eq {kind : TokenKind} (hkind : s.ahead.kind = kind) :
    accept kind s = .ok true s.skipped := by
  have hpeek : peekKind s = .ok s.ahead.kind s := rfl
  rw [accept, bind_of_ok hpeek, if_pos hkind]
  rfl

/-- The run of a reader that accepts a kind of token which is not ahead. -/
theorem accept_of_ne {kind : TokenKind} (hkind : s.ahead.kind ≠ kind) :
    accept kind s = .ok false s := by
  have hpeek : peekKind s = .ok s.ahead.kind s := rfl
  rw [accept, bind_of_ok hpeek, if_neg hkind]
  rfl

theorem expectSign_of_eq {sign : Punctuation} (hkind : s.ahead.kind = .punctuation sign) :
    expectSign sign s = .ok () s.skipped := by
  rw [expectSign, bind_of_ok (accept_of_eq hkind)]
  rfl

end

end Candlewick.Grammar
