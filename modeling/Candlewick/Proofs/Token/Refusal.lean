import Candlewick.Proofs.Token.Cutting
import Candlewick.Proofs.Token.Respacing
import Candlewick.Proofs.Token.Tiling

namespace Candlewick

namespace Lexeme

/-- What can stand in a string: no quote like its own, no line feed, and backslashes in escapes
    only. -/
inductive Enclosed (quote : Char) : List Char → Prop where
  | nil : Enclosed quote []
  | plain {c : Char} {rest : List Char} (hquote : c ≠ quote) (hfeed : c ≠ '\n') (hslash : c ≠ '\\')
    (hrest : Enclosed quote rest) : Enclosed quote (c :: rest)
  | escape {c value : Char} {rest : List Char} (hescape : unescaped? c = some value)
    (hrest : Enclosed quote rest) : Enclosed quote ('\\' :: c :: rest)

/-- A string is not ended if the source, its line or a last backslash is all that comes. -/
theorem enclosed_of_unterminated {quote : Char} {cs : List Char}
    (hquoted : quoted quote cs = .error .unterminated) :
    ∃ body tail, cs = body ++ tail ∧ Enclosed quote body ∧
      (tail = [] ∨ tail = ['\\'] ∨ tail.head? = some '\n') := by
  fun_induction quoted quote cs with
  | case1 => exact ⟨[], [], rfl, .nil, .inl rfl⟩
  | case3 rest => exact ⟨[], '\n' :: rest, rfl, .nil, .inr (.inr rfl)⟩
  | case4 => exact ⟨[], ['\\'], rfl, .nil, .inr (.inl rfl)⟩
  | case8 escape rest value hrest hescape _ _ ih =>
    obtain ⟨body, tail, rfl, hbody, htail⟩ := ih hrest
    exact ⟨'\\' :: escape :: body, tail, rfl, .escape hescape hbody, htail⟩
  | case11 c rest hquote hfeed hslash hrest ih =>
    obtain ⟨body, tail, rfl, hbody, htail⟩ := ih hrest
    exact ⟨c :: body, tail, rfl, .plain hquote hfeed hslash hbody, htail⟩
  | _ => cases hquoted

/-- What is read up to a bad escape ends with its backslash. -/
theorem enclosed_of_badEscape {quote e : Char} {cs before : List Char}
    (hquoted : quoted quote cs = .error (.badEscape before e)) :
    ∃ body rest, before = body ++ ['\\'] ∧ cs = body ++ '\\' :: e :: rest ∧ Enclosed quote body ∧
      unescaped? e = none := by
  fun_induction quoted quote cs generalizing before e with
  | case5 escape rest hescape =>
    cases hquoted
    exact ⟨[], rest, rfl, rfl, .nil, hescape⟩
  | case7 escape rest value _ _ hrest hescape _ _ ih =>
    cases hquoted
    obtain ⟨body, behind, rfl, rfl, hbody, hbad⟩ := ih hrest
    exact ⟨'\\' :: escape :: body, behind, rfl, rfl, .escape hescape hbody, hbad⟩
  | case10 c rest hquote hfeed hslash _ _ hrest ih =>
    cases hquoted
    obtain ⟨body, behind, rfl, rfl, hbody, hbad⟩ := ih hrest
    exact ⟨c :: body, behind, rfl, rfl, .plain hquote hfeed hslash hbody, hbad⟩
  | _ => cases hquoted

/-- A text that begins with a symbol has one as its first piece, though it may be a longer one. -/
theorem symbol?_ne_none_of_append {cs written rest : List Char} {kind : TokenKind}
    (hsymbol : symbol? cs = some (kind, written, rest)) (more : List Char) :
    symbol? (written ++ more) ≠ none := by
  unfold symbol? at hsymbol
  split at hsymbol <;> cases hsymbol
  case h_12 | h_13 | h_14 =>
    -- These three may go on as a longer operator.
    by_cases hlonger : ∃ behind, more = '=' :: behind
    · obtain ⟨behind, rfl⟩ := hlonger
      exact Option.some_ne_none _
    · rw [List.singleton_append, symbol?]
      · exact Option.some_ne_none _
      · exact fun behind hmore => hlonger ⟨behind, hmore⟩
  all_goals exact Option.some_ne_none _

end Lexeme

namespace Lexer

/-- Why no token can be read: a character that begins none, a string that does not end on its line,
    or a string with an escape that stands for nothing. What was read up to the place of the fault
    is apart from the text behind that place. -/
inductive Unreadable : LexFault → List Char → List Char → Prop where
  | character {c : Char} (hshows : Text.isBlank c = false) (rest : List Char) :
    Unreadable (.unexpectedCharacter c) [] (c :: rest)
  | string {quote : Char} {body tail : List Char} (hquote : quote = '"' ∨ quote = '\'')
    (hbody : Lexeme.Enclosed quote body)
    (htail : tail = [] ∨ tail = ['\\'] ∨ tail.head? = some '\n') :
    Unreadable .unterminatedString [] (quote :: (body ++ tail))
  | escape {quote c : Char} {body : List Char} (hquote : quote = '"' ∨ quote = '\'')
    (hbody : Lexeme.Enclosed quote body) (hescape : Lexeme.unescaped? c = none)
    (rest : List Char) : Unreadable (.invalidEscape c) (quote :: (body ++ ['\\'])) (c :: rest)

variable {c : Char} {rest : List Char} {failure : Failure}

/-- What cannot be read has been read up to the place of the fault. -/
theorem unreadable_of_piece (hpiece : piece c rest = .error failure) :
    ∃ back, c :: rest = failure.before ++ back ∧ Unreadable failure.fault failure.before back := by
  cases firstPiece hpiece with
  | unterminated hline hblank hdigit hquote hquoted =>
    obtain ⟨body, tail, rfl, hbody, htail⟩ := Lexeme.enclosed_of_unterminated hquoted
    exact ⟨_, rfl, .string hquote hbody htail⟩
  | badEscape hline hblank hdigit hquote hquoted =>
    obtain ⟨body, behind, rfl, rfl, hbody, hescape⟩ := Lexeme.enclosed_of_badEscape hquoted
    exact ⟨_, by simp, .escape hquote hbody hescape behind⟩
  | unknown hline hblank => exact ⟨_, rfl, .character (eq_false_of_ne_true hblank) rest⟩

/-- No token stands in front of what cannot be read. -/
theorem Spells.not_isPrefix {lexeme : List Char} {kind : TokenKind} (hspells : Spells lexeme kind)
    (hpiece : piece c rest = .error failure) : ¬ lexeme <+: c :: rest := by
  rintro ⟨behind, hbehind⟩
  obtain ⟨first, tail, rfl, hspelled⟩ := hspells
  rw [List.cons_append, List.cons.injEq] at hbehind
  obtain ⟨rfl, rfl⟩ := hbehind
  have hread := hspelled []
  cases firstPiece hpiece with
  | unterminated hline hblank hdigit hquote hfault | badEscape hline hblank hdigit hquote hfault =>
    -- The string of the token ends, also in front of what stands behind it here.
    rw [piece_quoted hline hblank hdigit hquote] at hread
    split at hread
    · rename_i q hquoted
      have htail : q.written = tail :=
        (List.cons.inj (congrArg Piece.written (Except.ok.inj hread))).2
      rw [← htail, Lexeme.quoted_append_rest hquoted behind] at hfault
      cases hfault
    · cases hread
    · cases hread
  | unknown hline hblank hdigit hquote hstart hsymbol =>
    have hslash : first ≠ '/' := by
      rintro rfl
      cases hsymbol
    have hcomment : ¬ (first = '/' ∧ (tail ++ [' ']).head? = some '/') :=
      fun hboth => hslash hboth.1
    rw [piece_symbol? hline hblank hcomment hdigit hquote hstart] at hread
    split at hread <;> cases hread
    rename_i hlexeme
    exact Lexeme.symbol?_ne_none_of_append hlexeme behind hsymbol

/-- Skipped text joins the gap behind it. -/
theorem Proper.gap {p : Piece} (hproper : Proper p) (hhead : ∀ kind, p.head ≠ .token kind)
    {gap behind : List Char} (hrest : p.rest = gap ++ behind) (hgap : Gap behind gap) :
    Gap behind (p.written ++ gap) := by
  cases hproper with
  | lineFeed rest => exact .blank (by decide) hgap
  | blank hblank hline rest => exact .blank hblank hgap
  | comment htext hend =>
    simp only at hrest
    subst hrest
    exact .comment htext hend hgap
  | token => exact absurd rfl (hhead _)

/-- A token of a piece is its text, at the place where it begins. -/
theorem stop_of_token? {before : List Char} {depth : Nat} {p : Piece} {token : Token}
    (htoken : p.token? (Place.behind before) depth = some token) :
    token.stop = (Place.behind (before ++ p.written)).offset := by
  have hparts : token.lexeme = String.ofList p.written ∧ token.place = Place.behind before := by
    unfold Piece.token? at htoken
    split at htoken
    · cases htoken
    · split at htoken <;> cases htoken
      exact ⟨rfl, rfl⟩
    · cases htoken
      exact ⟨rfl, rfl⟩
  rw [Token.stop, hparts.1, hparts.2, Place.offset_behind_append]

/-- A source that is cut off somewhere behind a piece has the token of the piece, and the tokens of
    what is left of the rest. -/
theorem scan_cut {p : Piece} (hpiece : piece c rest = .ok p) {kept : List Char}
    (hkept : kept <+: p.rest) {place : Place} {depth : Nat} {tokens : List Token}
    (hscan : scan (place.after p.written) (p.openAfter depth) kept = .ok tokens) :
    scan place depth (p.written ++ kept) = .ok ((p.token? place depth).toList ++ tokens) := by
  obtain ⟨tail, hwritten, hcut⟩ := piece_cut hpiece hkept
  have happend : c :: (tail ++ kept) = p.written ++ kept := by rw [hwritten, List.cons_append]
  have hscanned := scan_of_piece hcut place depth
  rw [happend] at hscanned
  exact hscanned.trans (congrArg (Except.map _) hscan)

/-- Tokens behind `before`, the last of which ends with `front`; without tokens there is nothing in
    `front`. -/
def EndWith (before front : List Char) (tokens : List Token) : Prop :=
  (front = [] ∧ tokens = []) ∨
    ∃ last ∈ tokens.getLast?, last.stop = (Place.behind (before ++ front)).offset

/-- A token that stands in front of some tokens. -/
theorem EndWith.cons {before written front : List Char} {tokens : List Token} {token : Token}
    (hends : EndWith (before ++ written) front tokens)
    (hstop : token.stop = (Place.behind (before ++ written)).offset) :
    EndWith before (written ++ front) (token :: tokens) := by
  right
  rcases hends with ⟨rfl, rfl⟩ | ⟨last, hlast, hend⟩
  · exact ⟨token, rfl, by rw [hstop, List.append_nil]⟩
  · refine ⟨last, ?_, by rw [hend, List.append_assoc]⟩
    rw [List.getLast?_cons, Option.mem_def.1 hlast]
    rfl

/-- Where a source, of which `before` has been read, has no tokens. Behind `front`, the tokens of
    which can be read, there is a gap, and then `read` and `back`, in front of which no token stands.
    The fault lies between the two. -/
structure RefusedAt (before : List Char) (depth : Nat) (source : List Char) (e : LexError)
    (front gap read back : List Char) : Prop where
  source_eq : source = front ++ (gap ++ (read ++ back))
  place_eq : e.place = Place.behind (before ++ (front ++ gap ++ read))
  unreadable : Unreadable e.fault read back
  noToken : ∀ lexeme kind, Spells lexeme kind → ¬ lexeme <+: read ++ back
  isGap : Gap (read ++ back) gap
  scanned : ∃ tokens, scan (Place.behind before) depth (front ++ gap) =
      .ok (tokens ++ [Token.sourceEnd (Place.behind (before ++ (front ++ gap)))]) ∧
    EndWith before front tokens

/-- A piece in front of a source that is refused makes a token, or joins the gap. -/
theorem RefusedAt.behindPiece {before front gap read back : List Char} {depth : Nat} {p : Piece}
    {e : LexError}
    (hrefused : RefusedAt (before ++ p.written) (p.openAfter depth) p.rest e front gap read back)
    (hpiece : piece c rest = .ok p) :
    ∃ front gap read back, RefusedAt before depth (p.written ++ p.rest) e front gap read back := by
  obtain ⟨hsource, hplace, hunreadable, hnone, hgap, tokens, hscan, hends⟩ := hrefused
  have hkept : front ++ gap <+: p.rest := ⟨read ++ back, by rw [hsource, List.append_assoc]⟩
  rw [Place.behind_append] at hscan
  have hagain := scan_cut hpiece hkept hscan
  rw [List.append_assoc] at hplace hagain
  cases htoken : p.token? (Place.behind before) depth with
  | some token =>
    rw [htoken] at hagain
    refine ⟨p.written ++ front, gap, read, back, ?_, ?_, hunreadable, hnone, hgap, token :: tokens,
      ?_, hends.cons (stop_of_token? htoken)⟩
    · rw [hsource, List.append_assoc]
    · rw [hplace, List.append_assoc, List.append_assoc, List.append_assoc]
    · rw [List.append_assoc]
      exact hagain
  | none =>
    rw [htoken] at hagain
    rcases hends with ⟨rfl, rfl⟩ | ⟨last, hlast, hstop⟩
    · -- No token lies between the piece and the gap.
      have hhead : ∀ kind, p.head ≠ .token kind := by
        intro kind hhead
        rw [Piece.token?, hhead] at htoken
        cases htoken
      rw [List.nil_append] at hsource
      have hjoined := (proper_of_piece hpiece).gap hhead hsource hgap
      refine ⟨[], p.written ++ gap, read, back, ?_, ?_, hunreadable, hnone, hjoined, [], hagain,
        .inl ⟨rfl, rfl⟩⟩
      · rw [hsource, List.nil_append, List.append_assoc]
      · rw [hplace, List.nil_append, List.nil_append, List.append_assoc]
    · rw [List.append_assoc] at hstop
      refine ⟨p.written ++ front, gap, read, back, ?_, ?_, hunreadable, hnone, hgap, tokens, ?_,
        .inr ⟨last, hlast, hstop⟩⟩
      · rw [hsource, List.append_assoc]
      · rw [hplace, List.append_assoc, List.append_assoc, List.append_assoc]
      · rw [List.append_assoc]
        exact hagain

/-- From any place on, a scan that fails does so where no token can be read. -/
theorem refusedAt_of_scan {before source : List Char} {depth : Nat} {e : LexError}
    (hscan : scan (Place.behind before) depth source = .error e) :
    ∃ front gap read back, RefusedAt before depth source e front gap read back := by
  generalize hplace : Place.behind before = place at hscan
  fun_induction scan place depth source generalizing before e with
  | case1 | case4 => cases hscan
  | case2 place depth c rest failure hpiece =>
    cases hscan
    subst hplace
    obtain ⟨back, hback, hunreadable⟩ := unreadable_of_piece hpiece
    refine ⟨[], [], failure.before, back, hback, ?_, hunreadable, ?_, .nil, [], ?_, .inl ⟨rfl, rfl⟩⟩
    · exact (Place.behind_append before failure.before).symm
    · intro lexeme kind hspells
      rw [← hback]
      exact hspells.not_isPrefix hpiece
    · rw [List.append_nil, scan]
      simp
  | case3 place depth c rest p hpiece refused hrest ih =>
    cases hscan
    subst hplace
    obtain ⟨front, gap, read, back, hrefused⟩ := ih (Place.behind_append before p.written) hrest
    rw [← (piece_append hpiece).1]
    exact hrefused.behindPiece hpiece

end Lexer

end Candlewick
