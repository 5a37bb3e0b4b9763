import Candlewick.Proofs.Token.Piece
import Candlewick.Proofs.Token.SourceEnd

namespace Candlewick

namespace Token

/-- A token without its place. -/
def spelled (token : Token) : TokenKind × String :=
  (token.kind, token.lexeme)

/-- The texts of some tokens with a blank between any two of them. -/
def respaced (tokens : List Token) : String :=
  " ".intercalate (tokens.map lexeme)

/-- The text of a token is written first, and a blank behind it. -/
theorem respaced_cons (token : Token) {later : List Token} (hlater : later ≠ []) :
    (respaced (token :: later)).toList =
      token.lexeme.toList ++ ' ' :: (respaced later).toList := by
  obtain ⟨next, later, rfl⟩ := List.exists_cons_of_ne_nil hlater
  simp only [respaced, String.toList_intercalate, List.map_cons]
  rw [List.intercalate_cons_cons]
  simp

end Token

namespace Lexer

/-- What a source is read as once its first piece is known. -/
theorem scan_of_piece {c : Char} {rest : List Char} {p : Piece} (hpiece : piece c rest = .ok p)
    (place : Place) (depth : Nat) :
    scan place depth (c :: rest) =
      (scan (place.after p.written) (p.openAfter depth) p.rest).map
        ((p.token? place depth).toList ++ ·) := by
  rw [scan]
  split
  · rename_i hfailure
    rw [hpiece] at hfailure
    cases hfailure
  · rename_i q hagain
    rw [hpiece] at hagain
    cases hagain
    split <;> rename_i hrest <;> rw [hrest] <;> rfl

/-- Some spelled tokens are what a source is read as, wherever it stands. -/
def ReadAs (depth : Nat) (source : List Char) (spelling : List (TokenKind × String)) : Prop :=
  ∀ place, ∃ tokens, scan place depth source = .ok tokens ∧ tokens.map Token.spelled = spelling

theorem readAs_nil (depth : Nat) : ReadAs depth [] [(.sourceEnd, "")] :=
  fun place => ⟨[Token.sourceEnd place], by rw [scan], rfl⟩

/-- A piece stands in front of what is read behind it. -/
theorem readAs_of_piece {depth : Nat} {c : Char} {rest : List Char} {p : Piece}
    {spelling : List (TokenKind × String)} (hpiece : piece c rest = .ok p)
    (hlater : ReadAs (p.openAfter depth) p.rest spelling) :
    ReadAs depth (c :: rest)
      ((p.token? .nowhere depth).toList.map Token.spelled ++ spelling) := by
  intro place
  obtain ⟨later, hscan, rfl⟩ := hlater (place.after p.written)
  have hplace : (p.token? place depth).toList.map Token.spelled =
      (p.token? .nowhere depth).toList.map Token.spelled := by
    unfold Piece.token?
    split
    · rfl
    · split <;> rfl
    · rfl
  refine ⟨(p.token? place depth).toList ++ later, ?_, by rw [List.map_append, hplace]⟩
  rw [scan_of_piece hpiece, hscan]
  rfl

variable {depth : Nat} {source : List Char} {spelling : List (TokenKind × String)}

/-- A blank in front of a source makes no difference. -/
theorem ReadAs.blank (hlater : ReadAs depth source spelling) :
    ReadAs depth (' ' :: source) spelling :=
  readAs_of_piece (piece_blank source) hlater

/-- The text of a token and a blank stand in front of what is read behind them. -/
theorem ReadAs.spells {written : List Char} {kind : TokenKind}
    (hlater : ReadAs (openAfter depth kind) source spelling) (hspells : Spells written kind) :
    ReadAs depth (written ++ ' ' :: source) ((kind, String.ofList written) :: spelling) := by
  obtain ⟨c, tail, rfl, hpiece⟩ := hspells
  exact readAs_of_piece (hpiece source) hlater.blank

/-- Outside of brackets, so do a line feed and a blank. -/
theorem ReadAs.lineFeed (hlater : ReadAs 0 source spelling) :
    ReadAs 0 (['\n'] ++ ' ' :: source) ((.lineEnd, String.ofList ['\n']) :: spelling) :=
  readAs_of_piece (piece_lineFeed (' ' :: source)) hlater.blank

/-- A first token with its text, and what is read behind it. -/
theorem ReadAs.respaced_cons {kind : TokenKind} {written : List Char} {place : Place}
    {later : List Token} (hlater : later ≠ [])
    (hread : ReadAs depth (written ++ ' ' :: (Token.respaced later).toList)
      ((kind, String.ofList written) :: later.map Token.spelled)) :
    ReadAs depth (Token.respaced (⟨kind, String.ofList written, place⟩ :: later)).toList
      ((Token.mk kind (String.ofList written) place :: later).map Token.spelled) := by
  rw [Token.respaced_cons _ hlater, String.toList_ofList]
  exact hread

/-- The tokens of a source, respaced, are read again. -/
theorem readAs_respaced {place : Place} {tokens : List Token}
    (hscan : scan place depth source = .ok tokens) :
    ReadAs depth (Token.respaced tokens).toList (tokens.map Token.spelled) := by
  fun_induction scan place depth source generalizing tokens with
  | case1 place depth =>
    cases hscan
    exact readAs_nil depth
  | case2 | case3 => cases hscan
  | case4 place depth c rest p hpiece later hrest ih =>
    cases hscan
    have hlater := ih hrest
    have hne := (onlyLastEnds_of_scan hrest).1
    cases proper_of_piece hpiece with
    | lineFeed rest =>
      by_cases hdepth : depth = 0
      · subst hdepth
        exact hlater.lineFeed.respaced_cons hne
      · have hnone : Piece.token? ⟨.lineFeed, ['\n'], rest⟩ place depth = none := if_neg hdepth
        rw [hnone]
        exact hlater
    | blank | comment => exact hlater
    | token hline hspells => exact (hlater.spells hspells).respaced_cons hne

end Lexer

/-- The tokens of a source, written with a blank between any two of them, are read again as tokens of
    the same kinds and texts. -/
theorem exists_tokenize_respaced {source : String} {tokens : List Token}
    (hsource : tokenize source = .ok tokens) :
    ∃ again, tokenize (Token.respaced tokens) = .ok again ∧
      again.map Token.spelled = tokens.map Token.spelled :=
  Lexer.readAs_respaced hsource Place.start

end Candlewick
