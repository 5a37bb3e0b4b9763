import Candlewick.Proofs.Token.Piece
import Candlewick.Proofs.Token.Position
import Candlewick.Proofs.Token.SourceEnd

namespace Candlewick

namespace Lexer

/-- Text between two tokens: blanks, and comments up to the end of their line. The text in front of
    which it stands decides whether a comment in it is over. -/
inductive Gap (behind : List Char) : List Char → Prop where
  | nil : Gap behind []
  | blank {c : Char} {gap : List Char} (hblank : Text.isBlank c = true) (hgap : Gap behind gap) :
    Gap behind (c :: gap)
  | comment {text gap : List Char} (htext : '\n' ∉ text)
    (hend : ∀ c ∈ (gap ++ behind).head?, c = '\n') (hgap : Gap behind gap) :
    Gap behind ('/' :: '/' :: text ++ gap)

/-- Tokens that cut a source, of which `before` has been read, with `depth` brackets open: they
    follow the scanner from a place inside of a source on. Outside of brackets no gap has a line
    feed, for there it is a token. -/
inductive Tiled : List Char → Nat → List Char → List Token → Prop where
  | last {before gap : List Char} {depth : Nat} (hgap : Gap [] gap)
    (hlines : depth = 0 → '\n' ∉ gap) :
    Tiled before depth gap [Token.sourceEnd (Place.behind (before ++ gap))]
  | more {before gap lexeme rest : List Char} {depth : Nat} {kind : TokenKind}
    {later : List Token} (hgap : Gap (lexeme ++ rest) gap) (hlines : depth = 0 → '\n' ∉ gap)
    (hlexeme : lexeme ≠ []) (hkind : kind ≠ .sourceEnd)
    (hfeed : '\n' ∈ lexeme ∨ kind = .lineEnd → lexeme = ['\n'] ∧ kind = .lineEnd ∧ depth = 0)
    (hlater : Tiled (before ++ gap ++ lexeme) (Lexer.openAfter depth kind) rest later) :
    Tiled before depth (gap ++ (lexeme ++ rest))
      (⟨kind, String.ofList lexeme, Place.behind (before ++ gap)⟩ :: later)

/-- Skipped text in front of a tiled source joins its first gap. -/
theorem Tiled.skip {before skipped rest : List Char} {depth : Nat} {tokens : List Token}
    (htiled : Tiled (before ++ skipped) depth rest tokens)
    (hskipped : ∀ gap behind, rest = gap ++ behind → Gap behind gap → Gap behind (skipped ++ gap))
    (hlines : depth = 0 → '\n' ∉ skipped) : Tiled before depth (skipped ++ rest) tokens := by
  have hjoined : ∀ {gap : List Char}, (depth = 0 → '\n' ∉ gap) → depth = 0 →
      '\n' ∉ skipped ++ gap :=
    fun hgap hdepth hmem => (List.mem_append.1 hmem).elim (hlines hdepth) (hgap hdepth)
  cases htiled with
  | last hgap hfeeds =>
    rw [List.append_assoc]
    exact .last (hskipped _ _ (List.append_nil _).symm hgap) (hjoined hfeeds)
  | more hgap hfeeds hlexeme hkind hfeed hlater =>
    rw [List.append_assoc before] at hlater ⊢
    rw [← List.append_assoc skipped]
    exact .more (hskipped _ _ rfl hgap) (hjoined hfeeds) hlexeme hkind hfeed hlater

/-- A token without a gap in front of it. -/
theorem Tiled.token {before lexeme rest : List Char} {depth : Nat} {kind : TokenKind}
    {later : List Token} (hlater : Tiled (before ++ lexeme) (Lexer.openAfter depth kind) rest later)
    (hlexeme : lexeme ≠ []) (hkind : kind ≠ .sourceEnd)
    (hfeed : '\n' ∈ lexeme ∨ kind = .lineEnd → lexeme = ['\n'] ∧ kind = .lineEnd ∧ depth = 0) :
    Tiled before depth (lexeme ++ rest)
      (⟨kind, String.ofList lexeme, Place.behind before⟩ :: later) := by
  have hnext := @Tiled.more before [] lexeme rest depth kind later .nil
    (fun _ => List.not_mem_nil) hlexeme hkind hfeed (by rwa [List.append_nil])
  rwa [List.append_nil] at hnext

/-- A piece in front of a tiled source makes a token, or joins the first gap. -/
theorem Tiled.behindPiece {before : List Char} {depth : Nat} {p : Piece} {later : List Token}
    (hlater : Tiled (before ++ p.written) (p.openAfter depth) p.rest later) (hproper : Proper p)
    (hwritten : p.written ≠ [])
    (hends : ∀ kind, p.head = .token kind → kind ≠ .lineEnd ∧ kind ≠ .sourceEnd) :
    Tiled before depth (p.written ++ p.rest)
      ((p.token? (Place.behind before) depth).toList ++ later) := by
  cases hproper with
  | lineFeed rest =>
    by_cases hdepth : depth = 0
    · subst hdepth
      exact hlater.token hwritten nofun fun _ => ⟨rfl, rfl, rfl⟩
    · have hnone : Piece.token? ⟨.lineFeed, ['\n'], rest⟩ (Place.behind before) depth = none :=
        if_neg hdepth
      rw [hnone]
      exact hlater.skip (fun _ _ _ => .blank (by decide)) fun hzero => absurd hzero hdepth
  | blank hblank hline =>
    exact hlater.skip (fun _ _ _ => .blank hblank)
      fun _ hmem => hline (List.mem_singleton.1 hmem).symm
  | comment htext hend =>
    refine hlater.skip (fun gap behind hrest hgap => ?_) fun _ hmem => htext (by simpa using hmem)
    simp only at hrest
    subst hrest
    exact .comment htext hend hgap
  | token hline hspells =>
    obtain ⟨hlineEnd, hsourceEnd⟩ := hends _ rfl
    refine hlater.token hwritten hsourceEnd fun hfeed => ?_
    exact hfeed.elim (absurd · hline) (absurd · hlineEnd)

/-- The scanner cuts a source. -/
theorem tiled_of_scan {before source : List Char} {depth : Nat} {tokens : List Token}
    (hscan : scan (Place.behind before) depth source = .ok tokens) :
    Tiled before depth source tokens := by
  generalize hplace : Place.behind before = place at hscan
  fun_induction scan place depth source generalizing before tokens with
  | case1 place depth =>
    cases hscan
    subst hplace
    have hend := @Tiled.last before [] depth .nil (fun _ => List.not_mem_nil)
    rwa [List.append_nil] at hend
  | case2 | case3 => cases hscan
  | case4 place depth c rest p hpiece later hrest ih =>
    cases hscan
    subst hplace
    obtain ⟨happend, hwritten⟩ := piece_append hpiece
    rw [← happend]
    exact (ih (Place.behind_append before p.written) hrest).behindPiece (proper_of_piece hpiece)
      hwritten fun _ => piece_ne_end hpiece

/-- The scanner fails at a place of the source. -/
theorem place_of_scan_error {before source : List Char} {depth : Nat} {e : LexError}
    (hscan : scan (Place.behind before) depth source = .error e) :
    ∃ front back, source = front ++ back ∧ e.place = Place.behind (before ++ front) := by
  generalize hplace : Place.behind before = place at hscan
  fun_induction scan place depth source generalizing before e with
  | case1 | case4 => cases hscan
  | case2 place depth c rest failure hpiece =>
    cases hscan
    subst hplace
    obtain ⟨behind, hbehind⟩ := before_append_of_failure hpiece
    exact ⟨failure.before, behind, hbehind, (Place.behind_append before failure.before).symm⟩
  | case3 place depth c rest p hpiece _ hrest ih =>
    cases hscan
    subst hplace
    obtain ⟨front, back, hsource, he⟩ := ih (Place.behind_append before p.written) hrest
    refine ⟨p.written ++ front, back, ?_, by rw [he, List.append_assoc]⟩
    rw [← (piece_append hpiece).1, hsource, List.append_assoc]

/-- A token in a tiled source: it is a stretch of the source at its place, and between it and the token
    in front of it lies a gap. -/
theorem Tiled.tile {before source : List Char} {depth : Nat} {tokens : List Token}
    (htiled : Tiled before depth source tokens) {earlier later : List Token} {token : Token}
    (htokens : tokens = earlier ++ token :: later) :
    ∃ front gap back, source = front ++ (gap ++ (token.lexeme.toList ++ back)) ∧
      (Place.behind (before ++ front)).offset =
        (earlier.getLast?.map Token.stop).getD (Place.behind before).offset ∧
      Gap (token.lexeme.toList ++ back) gap ∧
      token.place = Place.behind (before ++ front ++ gap) := by
  induction htiled generalizing earlier with
  | @last before gap depth hgap =>
    obtain ⟨rfl, hlast⟩ : earlier = [] ∧ Token.sourceEnd (Place.behind (before ++ gap)) = token := by
      cases earlier <;> simp_all
    subst hlast
    exact ⟨[], gap, [], by simp [Token.sourceEnd], by simp, by simpa [Token.sourceEnd] using hgap,
      by simp [Token.sourceEnd]⟩
  | @more before gap lexeme rest depth kind later' hgap _ _ _ _ _ ih =>
    cases earlier with
    | nil =>
      obtain ⟨rfl, rfl⟩ := List.cons.inj htokens
      simp only [String.toList_ofList]
      exact ⟨[], gap, rest, rfl, by simp, hgap, by simp⟩
    | cons first earlier =>
      obtain ⟨rfl, hlater⟩ := List.cons.inj htokens
      obtain ⟨front, between, back, hrest, hoffset, hbetween, hplace⟩ := ih hlater
      refine ⟨gap ++ lexeme ++ front, between, back, by simp [hrest], ?_, hbetween,
        by simpa using hplace⟩
      have hstop : Token.stop ⟨kind, String.ofList lexeme, Place.behind (before ++ gap)⟩ =
          (Place.behind (before ++ gap ++ lexeme)).offset :=
        (Place.offset_behind_append _ _).symm
      rw [List.getLast?_cons, Option.map_some, Option.getD_some]
      rw [← List.append_assoc, ← List.append_assoc, hoffset]
      cases earlier.getLast? with
      | none => exact hstop.symm
      | some => rfl

/-- No token of a tiled source lies in what has been read. -/
theorem Tiled.offset_le {before source : List Char} {depth : Nat} {tokens : List Token}
    (htiled : Tiled before depth source tokens) {token : Token} (hmem : token ∈ tokens) :
    (Place.behind before).offset ≤ token.place.offset := by
  have hle : ∀ front back, (Place.behind front).offset ≤ (Place.behind (front ++ back)).offset := by
    intro front back
    rw [Place.offset_behind_append]
    exact Nat.le_add_right _ _
  induction htiled with
  | last =>
    obtain rfl := List.mem_singleton.1 hmem
    exact hle _ _
  | @more before gap lexeme _ _ _ _ _ _ _ _ _ _ ih =>
    rcases List.mem_cons.1 hmem with rfl | hmem
    · exact hle _ _
    · refine Nat.le_trans (hle before (gap ++ lexeme)) ?_
      rw [← List.append_assoc]
      exact ih hmem

/-- Each token of a tiled source ends before the next one begins. -/
theorem Tiled.ordered {before source : List Char} {depth : Nat} {tokens : List Token}
    (htiled : Tiled before depth source tokens) :
    tokens.Pairwise fun token next => token.stop ≤ next.place.offset := by
  induction htiled with
  | last => exact List.pairwise_singleton _ _
  | more _ _ _ _ _ hlater ih =>
    refine List.pairwise_cons.2 ⟨fun next hmem => ?_, ih⟩
    rw [Token.stop, ← Place.offset_behind_append]
    exact hlater.offset_le hmem

/-- The tokens of a tiled source stand at different places, in their order. -/
theorem Tiled.ascending {before source : List Char} {depth : Nat} {tokens : List Token}
    (htiled : Tiled before depth source tokens) :
    tokens.Pairwise fun token next => token.place.offset < next.place.offset := by
  induction htiled with
  | last => exact List.pairwise_singleton _ _
  | more _ _ hlexeme _ _ hlater ih =>
    refine List.pairwise_cons.2 ⟨fun next hmem => ?_, ih⟩
    exact Nat.lt_of_lt_of_le (Place.offset_behind_lt hlexeme) (hlater.offset_le hmem)

/-- The last token of a tiled source, and no other one, is its end. -/
theorem Tiled.end_eq {before source : List Char} {depth : Nat} {tokens : List Token}
    (htiled : Tiled before depth source tokens) :
    ∃ body, tokens = body ++ [Token.sourceEnd (Place.behind (before ++ source))] ∧
      ∀ token ∈ body, token.kind ≠ .sourceEnd := by
  induction htiled with
  | last => exact ⟨[], rfl, fun _ hmem => absurd hmem List.not_mem_nil⟩
  | @more before gap lexeme _ _ kind _ _ _ _ hkind _ _ ih =>
    obtain ⟨body, htokens, hbody⟩ := ih
    exact ⟨⟨kind, String.ofList lexeme, Place.behind (before ++ gap)⟩ :: body, by simp [htokens],
      List.forall_mem_cons.2 ⟨hkind, hbody⟩⟩

/-- Only a line feed is the end of a line. -/
theorem Tiled.lexeme_lineEnd {before source : List Char} {depth : Nat} {tokens : List Token}
    (htiled : Tiled before depth source tokens) {token : Token} (hmem : token ∈ tokens)
    (hkind : token.kind = .lineEnd) : token.lexeme = "\n" := by
  induction htiled with
  | last =>
    obtain rfl := List.mem_singleton.1 hmem
    cases hkind
  | more _ _ _ _ hfeed _ ih =>
    rcases List.mem_cons.1 hmem with rfl | hmem
    · exact congrArg String.ofList (hfeed (.inr hkind)).1
    · exact ih hmem

/-- The number of open brackets behind some tokens. -/
def openBehind (depth : Nat) (tokens : List Token) : Nat :=
  tokens.foldl (fun depth token => Lexer.openAfter depth token.kind) depth

/-- The tokens in front of a place. -/
def tokensBefore (place : Place) (tokens : List Token) : List Token :=
  tokens.filter fun token => token.place.offset < place.offset

theorem tokensBefore_eq_nil {place : Place} {tokens : List Token}
    (hlater : ∀ token ∈ tokens, place.offset ≤ token.place.offset) :
    tokensBefore place tokens = [] :=
  List.filter_eq_nil_iff.2 fun token hmem hbefore =>
    absurd (of_decide_eq_true hbefore) (Nat.not_lt_of_le (hlater token hmem))

/-- A line feed in brackets, in front of all tokens, is none of them. -/
theorem lineFeed_iff_of_lt {place : Place} {depth : Nat} {tokens : List Token} (hdepth : depth ≠ 0)
    (hlater : ∀ token ∈ tokens, place.offset < token.place.offset) :
    (∃ token ∈ tokens, token.kind = .lineEnd ∧ token.place = place) ↔
      openBehind depth (tokensBefore place tokens) = 0 := by
  rw [tokensBefore_eq_nil fun token hmem => Nat.le_of_lt (hlater token hmem)]
  refine iff_of_false ?_ hdepth
  rintro ⟨token, hmem, -, rfl⟩
  exact Nat.lt_irrefl _ (hlater token hmem)

/-- A token that begins before a line feed counts for its brackets. -/
theorem lineFeed_iff_cons (first : Token) {place : Place} {depth : Nat} {later : List Token}
    (hbefore : first.place.offset < place.offset)
    (hlater : (∃ token ∈ later, token.kind = .lineEnd ∧ token.place = place) ↔
      openBehind (Lexer.openAfter depth first.kind) (tokensBefore place later) = 0) :
    (∃ token ∈ first :: later, token.kind = .lineEnd ∧ token.place = place) ↔
      openBehind depth (tokensBefore place (first :: later)) = 0 := by
  have hne : first.place ≠ place := by
    rintro rfl
    exact Nat.lt_irrefl _ hbefore
  have htokens : tokensBefore place (first :: later) = first :: tokensBefore place later :=
    List.filter_cons_of_pos (decide_eq_true hbefore)
  rw [htokens]
  simp only [List.mem_cons, exists_eq_or_imp, hne, and_false, false_or]
  exact hlater

/-- A character of two joined texts lies in the first or in the second one. -/
theorem append_eq_append_cons {first second front back : List Char} {c : Char}
    (hjoined : first ++ second = front ++ c :: back) :
    (∃ middle, first = front ++ c :: middle) ∨
      ∃ middle, front = first ++ middle ∧ second = middle ++ c :: back := by
  rcases List.append_eq_append_iff.1 hjoined with ⟨middle, hfront, hsecond⟩ | ⟨middle, hfirst, hback⟩
  · exact .inr ⟨middle, hfront, hsecond⟩
  · cases middle with
    | nil => exact .inr ⟨[], by simpa using hfirst.symm, by simpa using hback.symm⟩
    | cons next middle =>
      obtain ⟨rfl, -⟩ := List.cons.inj hback
      exact .inl ⟨middle, hfirst⟩

/-- A line feed of a tiled source is a token if and only if no bracket is open where it stands. -/
theorem Tiled.lineFeed_iff {before source : List Char} {depth : Nat} {tokens : List Token}
    (htiled : Tiled before depth source tokens) {front back : List Char}
    (hsource : source = front ++ '\n' :: back) :
    (∃ token ∈ tokens, token.kind = .lineEnd ∧ token.place = Place.behind (before ++ front)) ↔
      openBehind depth (tokensBefore (Place.behind (before ++ front)) tokens) = 0 := by
  induction htiled generalizing front with
  | @last before gap depth _ hlines =>
    have hdepth : depth ≠ 0 := fun hzero => hlines hzero (by simp [hsource])
    refine lineFeed_iff_of_lt hdepth fun token hmem => ?_
    obtain rfl := List.mem_singleton.1 hmem
    rw [hsource, ← List.append_assoc]
    exact Place.offset_behind_lt (List.cons_ne_nil _ _)
  | @more before gap lexeme rest depth kind later _ hlines hlexeme _ hfeed hlater ih =>
    rcases append_eq_append_cons hsource with ⟨middle, rfl⟩ | ⟨inside, rfl, hinside⟩
    · -- The line feed lies in the gap.
      have hdepth : depth ≠ 0 := fun hzero => hlines hzero (by simp)
      have hlt : (Place.behind (before ++ front)).offset <
          (Place.behind (before ++ (front ++ '\n' :: middle))).offset := by
        rw [← List.append_assoc]
        exact Place.offset_behind_lt (List.cons_ne_nil _ _)
      refine lineFeed_iff_of_lt hdepth (List.forall_mem_cons.2 ⟨hlt, fun token hmem => ?_⟩)
      exact (hlt.trans (Place.offset_behind_lt hlexeme)).trans_le (hlater.offset_le hmem)
    have hlt := @Place.offset_behind_lt (before ++ gap) lexeme hlexeme
    rcases append_eq_append_cons hinside with ⟨middle, rfl⟩ | ⟨inside, rfl, rfl⟩
    · -- The line feed is the token.
      obtain ⟨hsingle, rfl, rfl⟩ := hfeed (.inl (by simp))
      obtain ⟨rfl, -⟩ : inside = [] ∧ middle = [] := by
        simpa [List.append_eq_singleton_iff] using hsingle
      rw [List.append_nil, tokensBefore_eq_nil]
      · exact iff_of_true ⟨_, List.mem_cons_self, rfl, rfl⟩ rfl
      · refine List.forall_mem_cons.2 ⟨Nat.le_refl _, fun token hmem => ?_⟩
        exact hlt.le.trans (hlater.offset_le hmem)
    · -- The line feed lies behind the token.
      have hbefore : (Place.behind (before ++ gap)).offset <
          (Place.behind (before ++ gap ++ lexeme ++ inside)).offset := by
        rw [List.append_assoc _ lexeme]
        exact Place.offset_behind_lt (List.append_ne_nil_of_left_ne_nil hlexeme _)
      have hrest := lineFeed_iff_cons ⟨kind, String.ofList lexeme, Place.behind (before ++ gap)⟩
        hbefore (ih rfl)
      simpa only [List.append_assoc] using hrest

end Lexer

/-- The tokens of a source tile it. -/
structure Tiles (source : String) (tokens : List Token) : Prop where
  /-- The source is a front, a gap, the lexeme of a token, and a rest: the front ends where the token
      before ends, and the place of the token is counted from the front and the gap. -/
  tile : ∀ earlier token later, tokens = earlier ++ token :: later →
    ∃ front gap back, source.toList = front ++ (gap ++ (token.lexeme.toList ++ back)) ∧
      (Place.behind front).offset = (earlier.getLast?.map Token.stop).getD 0 ∧
      Lexer.Gap (token.lexeme.toList ++ back) gap ∧ token.place = Place.behind (front ++ gap)
  /-- No token begins before the one in front of it ends. -/
  ordered : tokens.Pairwise fun token next => token.stop ≤ next.place.offset
  /-- A line feed is a token if no bracket in front of it is open, and only then. -/
  lineFeed_iff : ∀ front back, source.toList = front ++ '\n' :: back →
    ((∃ token ∈ tokens, token.kind = .lineEnd ∧ token.place = Place.behind front) ↔
      Lexer.openBehind 0 (Lexer.tokensBefore (Place.behind front) tokens) = 0)
  /-- The end of a line is a line feed. -/
  lexeme_lineEnd : ∀ token ∈ tokens, token.kind = .lineEnd → token.lexeme = "\n"
  /-- The last token is the end of the source, behind all of its bytes, and no other token is. -/
  end_eq : ∃ body place, tokens = body ++ [Token.sourceEnd place] ∧
    place.offset = source.utf8ByteSize ∧ ∀ token ∈ body, token.kind ≠ .sourceEnd

/-- The tokens of every source tile it. -/
theorem tiles_of_tokenize {source : String} {tokens : List Token}
    (hsource : tokenize source = .ok tokens) : Tiles source tokens := by
  have hstart : Place.start = Place.behind [] := (Place.after_start []).symm
  rw [tokenize, hstart] at hsource
  have htiled := Lexer.tiled_of_scan hsource
  obtain ⟨body, htokens, hbody⟩ := htiled.end_eq
  exact {
    tile := fun earlier token later => htiled.tile
    ordered := htiled.ordered
    lineFeed_iff := fun front back => htiled.lineFeed_iff
    lexeme_lineEnd := fun token => htiled.lexeme_lineEnd
    end_eq := ⟨body, _, htokens, Place.offset_behind_toList source, hbody⟩ }

/-- The last token of a source is its end. -/
theorem last_of_tokenize {source : String} {tokens : List Token}
    (hsource : tokenize source = .ok tokens) :
    tokens ≠ [] ∧ ∀ token ∈ tokens.getLast?, token.kind = .sourceEnd := by
  obtain ⟨body, place, rfl, -⟩ := (tiles_of_tokenize hsource).end_eq
  refine ⟨by simp, fun token hlast => ?_⟩
  rw [List.getLast?_concat, Option.mem_def, Option.some.injEq] at hlast
  rw [← hlast]
  rfl

/-- No two tokens of a source stand at one place. -/
theorem index_eq_of_place_eq {source : String} {tokens : List Token}
    (hsource : tokenize source = .ok tokens) {j k : Nat} {one other : Token}
    (hone : tokens[j]? = some one) (hother : tokens[k]? = some other)
    (hplace : one.place = other.place) : j = k := by
  have hstart : Place.start = Place.behind [] := (Place.after_start []).symm
  rw [tokenize, hstart] at hsource
  have hascending := List.pairwise_iff_getElem.1 (Lexer.tiled_of_scan hsource).ascending
  obtain ⟨hj, rfl⟩ := List.getElem?_eq_some_iff.1 hone
  obtain ⟨hk, rfl⟩ := List.getElem?_eq_some_iff.1 hother
  rcases Nat.lt_trichotomy j k with hlt | rfl | hlt
  · have hoffset := hascending j k hj hk hlt
    rw [hplace] at hoffset
    omega
  · rfl
  · have hoffset := hascending k j hk hj hlt
    rw [hplace] at hoffset
    omega

/-- The tokens of a source tile it. A source that has no tokens is refused at a place between two of
    its characters. -/
theorem tokenize_tiles (source : String) :
    match tokenize source with
    | .ok tokens => Tiles source tokens
    | .error e => ∃ front back, source.toList = front ++ back ∧ e.place = Place.behind front := by
  have hstart : Place.start = Place.behind [] := (Place.after_start []).symm
  split
  · rename_i tokens hsource
    exact tiles_of_tokenize hsource
  · rename_i e hsource
    rw [tokenize, hstart] at hsource
    exact Lexer.place_of_scan_error hsource

end Candlewick
