import Candlewick.Proofs.Token.Written

namespace Candlewick

/-- No token but the last one can be the end of the source. -/
def OnlyLastEnds (tokens : List Token) : Prop :=
  ∀ token ∈ tokens.dropLast, token.kind ≠ .sourceEnd

/-- What holds of the last token holds of the first ones. -/
theorem OnlyLastEnds.of_isPrefix {tokens front : List Token} (hlast : OnlyLastEnds tokens)
    (hfront : front <+: tokens) : OnlyLastEnds front := by
  intro token hmem
  obtain ⟨back, rfl⟩ := hfront
  apply hlast token
  cases back with
  | nil => rwa [List.append_nil]
  | cons next back =>
    rw [List.dropLast_append_of_ne_nil (List.cons_ne_nil _ _)]
    exact List.mem_append_left _ (List.dropLast_subset _ hmem)

/-- Tokens that do not end the source may be put in front. -/
theorem OnlyLastEnds.append {front back : List Token}
    (hfront : ∀ token ∈ front, token.kind ≠ .sourceEnd) (hback : OnlyLastEnds back) :
    OnlyLastEnds (front ++ back) := by
  intro token hmem
  by_cases hempty : back = []
  · rw [hempty, List.append_nil] at hmem
    exact hfront token (List.dropLast_subset _ hmem)
  · rw [List.dropLast_append_of_ne_nil hempty, List.mem_append] at hmem
    exact hmem.elim (hfront token) (hback token)

namespace Lexer

theorem symbol?_ne_end {source written rest : List Char} {kind : TokenKind}
    (hsymbol : Lexeme.symbol? source = some (kind, written, rest)) :
    kind ≠ .lineEnd ∧ kind ≠ .sourceEnd := by
  unfold Lexeme.symbol? at hsymbol
  split at hsymbol <;> cases hsymbol <;> simp

theorem wordKind_ne_end (word : List Char) :
    wordKind word ≠ .lineEnd ∧ wordKind word ≠ .sourceEnd := by
  unfold wordKind
  split <;> simp

/-- No token that is written is the end of a line, or of the source. -/
theorem Written.ne_end {written : List Char} {kind : TokenKind} (hwritten : Written written kind) :
    kind ≠ .lineEnd ∧ kind ≠ .sourceEnd := by
  cases hwritten with
  | number => simp [numberKind]
  | text => simp
  | word => exact wordKind_ne_end _
  | symbol hsymbol => exact symbol?_ne_end hsymbol

/-- No piece is read as an end, of a line or of the source. -/
theorem piece_ne_end {c : Char} {rest : List Char} {p : Piece} {kind : TokenKind}
    (hpiece : piece c rest = .ok p) (hhead : p.head = .token kind) :
    kind ≠ .lineEnd ∧ kind ≠ .sourceEnd :=
  (written_of_piece hpiece hhead).ne_end

/-- The token of a piece may be the end of a line, but is never that of the source. -/
theorem token?_ne_sourceEnd {c : Char} {rest : List Char} {p : Piece} {place : Place}
    {depth : Nat} {token : Token} (hpiece : piece c rest = .ok p)
    (htoken : token ∈ p.token? place depth) : token.kind ≠ .sourceEnd := by
  rcases written_of_token? hpiece htoken with hline | hwritten
  · simp [hline]
  · exact hwritten.ne_end.2

/-- From any place on, a scan ends with the only token that ends the source. -/
theorem onlyLastEnds_of_scan {place : Place} {depth : Nat} {source : List Char}
    {tokens : List Token} (hscan : scan place depth source = .ok tokens) :
    tokens ≠ [] ∧ OnlyLastEnds tokens := by
  fun_induction scan place depth source generalizing tokens with
  | case1 place depth =>
    cases hscan
    exact ⟨List.cons_ne_nil _ _, by simp [OnlyLastEnds]⟩
  | case2 | case3 => cases hscan
  | case4 place depth c rest p hpiece later hrest ih =>
    cases hscan
    obtain ⟨hne, hlast⟩ := ih hrest
    refine ⟨List.append_ne_nil_of_right_ne_nil _ hne, fun token hmem => ?_⟩
    rw [List.dropLast_append_of_ne_nil hne, List.mem_append, Option.mem_toList] at hmem
    rcases hmem with hmem | hmem
    · exact token?_ne_sourceEnd hpiece hmem
    · exact hlast token hmem

end Lexer

/-- The last token of a source says that it ends, and no other one does. -/
theorem onlyLastEnds_of_tokenize {source : String} {tokens : List Token}
    (hsource : tokenize source = .ok tokens) : OnlyLastEnds tokens :=
  (Lexer.onlyLastEnds_of_scan hsource).2

end Candlewick
