import Candlewick.Proofs.Token.Piece

namespace Candlewick

namespace Lexer

/-- The text of a token and the kind it makes. -/
inductive Written : List Char → TokenKind → Prop where
  | number {c : Char} (hdigit : c.isDigit = true) (rest : List Char) :
    Written (Lexeme.number (c :: rest)).1 (numberKind (Lexeme.number (c :: rest)).1)
  | text {quote : Char} {rest : List Char} {q : Lexeme.Quoted}
    (hquoted : Lexeme.quoted quote rest = .ok q) :
    Written (quote :: q.written) (.text (String.ofList q.content))
  | word {c : Char} (hstart : Lexeme.isWordStart c = true) (rest : List Char) :
    Written (Lexeme.word (c :: rest)).1 (wordKind (Lexeme.word (c :: rest)).1)
  | symbol {source written rest : List Char} {kind : TokenKind}
    (hsymbol : Lexeme.symbol? source = some (kind, written, rest)) : Written written kind

/-- The text of a piece makes the kind of its token. -/
theorem written_of_piece {c : Char} {rest : List Char} {p : Piece} {kind : TokenKind}
    (hpiece : piece c rest = .ok p) (hhead : p.head = .token kind) : Written p.written kind := by
  cases firstPiece hpiece with
  | lineFeed | blank | comment => cases hhead
  | number hline hblank hdigit =>
    cases hhead
    exact .number hdigit rest
  | text hline hblank hdigit hquote hquoted =>
    cases hhead
    exact .text hquoted
  | word hline hblank hdigit hquote hstart =>
    cases hhead
    exact .word hstart rest
  | symbol hline hblank hcomment hdigit hquote hstart hsymbol =>
    cases hhead
    exact .symbol hsymbol

/-- The text of a token makes its kind, unless it is the end of a line. -/
theorem written_of_token? {c : Char} {rest : List Char} {p : Piece} {place : Place} {depth : Nat}
    {token : Token} (hpiece : piece c rest = .ok p) (htoken : token ∈ p.token? place depth) :
    token.kind = .lineEnd ∨ Written token.lexeme.toList token.kind := by
  unfold Piece.token? at htoken
  cases hhead : p.head with
  | skipped => simp [hhead] at htoken
  | lineFeed =>
    simp only [hhead, Option.mem_def, Option.ite_none_right_eq_some, Option.some.injEq] at htoken
    obtain ⟨-, rfl⟩ := htoken
    exact .inl rfl
  | token kind =>
    simp only [hhead, Option.mem_def, Option.some.injEq] at htoken
    obtain rfl := htoken
    rw [String.toList_ofList]
    exact .inr (written_of_piece hpiece hhead)

/-- Every token of a source but its end is made of a piece. -/
theorem exists_piece_of_mem_scan {place : Place} {depth : Nat} {source : List Char}
    {tokens : List Token} (hscan : scan place depth source = .ok tokens) {token : Token}
    (htoken : token ∈ tokens) :
    token.kind = .sourceEnd ∨ ∃ c rest p place depth, piece c rest = .ok p ∧
      token ∈ p.token? place depth := by
  fun_induction scan place depth source generalizing tokens with
  | case1 place depth =>
    cases hscan
    obtain rfl := List.mem_singleton.1 htoken
    exact .inl rfl
  | case2 | case3 => cases hscan
  | case4 place depth c rest p hpiece later hrest ih =>
    cases hscan
    rcases List.mem_append.1 htoken with hfirst | hlater
    · exact .inr ⟨c, rest, p, place, depth, hpiece, Option.mem_toList.1 hfirst⟩
    · exact ih hrest hlater

/-- The tokens of a source are ends of lines, what is written in it, and its own end. -/
theorem written_of_mem_scan {place : Place} {depth : Nat} {source : List Char}
    {tokens : List Token} (hscan : scan place depth source = .ok tokens) {token : Token}
    (htoken : token ∈ tokens) :
    token.kind = .lineEnd ∨ Written token.lexeme.toList token.kind ∨ token.kind = .sourceEnd := by
  rcases exists_piece_of_mem_scan hscan htoken with hend | ⟨c, rest, p, place, depth, hpiece, hmem⟩
  · exact .inr (.inr hend)
  · rcases written_of_token? hpiece hmem with hline | hwritten
    · exact .inl hline
    · exact .inr (.inl hwritten)

end Lexer

end Candlewick
