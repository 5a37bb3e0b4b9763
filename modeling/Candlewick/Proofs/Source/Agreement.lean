import Candlewick.Proofs.Grammar.Leads
import Candlewick.Proofs.Token.Respacing
import Candlewick.Source

namespace Candlewick

namespace Lexer

/-- A blank is a piece of its own, and opens no bracket. -/
theorem piece_of_isBlank {c : Char} (hblank : Text.isBlank c = true) (rest : List Char) :
    piece c rest = .ok ⟨.lineFeed, [c], rest⟩ ∨ piece c rest = .ok ⟨.skipped, [c], rest⟩ := by
  by_cases hline : c = '\n'
  · exact .inl (if_pos hline)
  · exact .inr ((if_neg hline).trans (if_pos hblank))

/-- Of a source of blanks there are only ends of lines left. -/
theorem exists_scan_of_blank {source : List Char} (hblank : source.all Text.isBlank = true)
    (place : Place) (depth : Nat) :
    ∃ lines finish, scan place depth source = .ok (lines ++ [Token.sourceEnd finish]) ∧
      ∀ token ∈ lines, token.kind = .lineEnd := by
  induction source generalizing place with
  | nil => exact ⟨[], place, by rw [scan]; rfl, by simp⟩
  | cons c rest ih =>
    rw [List.all_cons, Bool.and_eq_true] at hblank
    obtain ⟨lines, finish, hscan, hlines⟩ := ih hblank.2 (place.after [c])
    rcases piece_of_isBlank hblank.1 rest with hpiece | hpiece
    · by_cases hdepth : depth = 0
      · refine ⟨⟨.lineEnd, String.ofList [c], place⟩ :: lines, finish, ?_,
          List.forall_mem_cons.2 ⟨rfl, hlines⟩⟩
        rw [scan_of_piece hpiece]
        simp only [Piece.openAfter, Piece.token?, if_pos hdepth, hscan]
        rfl
      · refine ⟨lines, finish, ?_, hlines⟩
        rw [scan_of_piece hpiece]
        simp only [Piece.openAfter, Piece.token?, if_neg hdepth, hscan]
        rfl
    · refine ⟨lines, finish, ?_, hlines⟩
      rw [scan_of_piece hpiece]
      simp only [Piece.openAfter, Piece.token?, hscan]
      rfl

end Lexer

/-- Ends of lines are no program, and are refused where the source ends. -/
theorem parseTokens_lineEnds {lines : List Token} (hlines : ∀ token ∈ lines, token.kind = .lineEnd)
    (finish : Place) :
    (parseTokens (lines ++ [Token.sourceEnd finish])).result = .error ⟨.noStatements, finish⟩ := by
  have hclosed : Grammar.closed (lines ++ [Token.sourceEnd finish]) =
      lines ++ [Token.sourceEnd finish] := by
    simp [Grammar.closed, Token.sourceEnd]
  let start : Grammar.State := { tokens := lines ++ [Token.sourceEnd finish] }
  have hbehind : start.behindLineEnds = { tokens := [Token.sourceEnd finish] } := by
    have hdrop : (lines ++ [Token.sourceEnd finish]).dropWhile (·.kind == .lineEnd) =
        [Token.sourceEnd finish].dropWhile (·.kind == .lineEnd) :=
      List.dropWhile_append_of_pos fun token hmem => by simp [hlines token hmem]
    simp only [Grammar.State.behindLineEnds, start, hdrop]
    rfl
  have hleads : Grammar.Leads (· = ⟨.noStatements, finish⟩) (Grammar.program .standard) start
      fun _ _ => False := by
    simp only [Grammar.program, Grammar.leads_bind, Grammar.leads_skipLineEnds,
      Grammar.leads_remaining, hbehind]
    exact Grammar.leads_statements_of_end rfl rfl
  obtain ⟨later, hrun⟩ : ∃ later, Grammar.program .standard
      { tokens := lines ++ [Token.sourceEnd finish] } = .error ⟨.noStatements, finish⟩ later := by
    unfold Grammar.Leads at hleads
    cases hrun : Grammar.program .standard start with
    | ok program later =>
      rw [hrun] at hleads
      exact absurd hleads id
    | error e later =>
      rw [hrun] at hleads
      exact ⟨later, congrArg (EStateM.Result.error · later) hleads⟩
  rw [parseTokens, parseTokensWithin, hclosed, hrun]

/-- A source of blanks can be cut into tokens, and they are no program. -/
theorem exists_tokenize_of_allBlank {source : String} (hblank : Text.allBlank source = true) :
    ∃ tokens finish, tokenize source = .ok tokens ∧
      (parseTokens tokens).result = .error ⟨.noStatements, finish⟩ := by
  obtain ⟨lines, finish, hscan, hlines⟩ := Lexer.exists_scan_of_blank hblank Place.start 0
  exact ⟨_, finish, hscan, parseTokens_lineEnds hlines finish⟩

/-- How the reading of a source ends, whatever it is read for. -/
inductive Reading (source : String) : Prop where
  | blank {tokens : List Token} {e : ParseError} (hblank : Text.allBlank source = true)
    (htokens : tokenize source = .ok tokens) (hparse : (parseTokens tokens).result = .error e)
  | uncut {e : LexError} (hblank : Text.allBlank source = false)
    (htokens : tokenize source = .error e)
  | refused {tokens : List Token} {e : ParseError} (hblank : Text.allBlank source = false)
    (htokens : tokenize source = .ok tokens) (hparse : (parseTokens tokens).result = .error e)
  | read {tokens : List Token} {parsed : Parsed} (hblank : Text.allBlank source = false)
    (htokens : tokenize source = .ok tokens) (hparse : (parseTokens tokens).result = .ok parsed)

theorem reading (source : String) : Reading source := by
  cases hblank : Text.allBlank source with
  | true =>
    obtain ⟨tokens, finish, htokens, hparse⟩ := exists_tokenize_of_allBlank hblank
    exact .blank hblank htokens hparse
  | false =>
    cases htokens : tokenize source with
    | error e => exact .uncut hblank htokens
    | ok tokens =>
      cases hparse : (parseTokens tokens).result with
      | error e => exact .refused hblank htokens hparse
      | ok parsed => exact .read hblank htokens hparse

namespace Verdict

variable {message : String} {announced : List Warning}

@[simp] theorem program_refused : (refused message announced).program = none := rfl

@[simp] theorem errors_refused : (refused message announced).errors = [message] := rfl

@[simp] theorem warnings_refused : (refused message announced).warnings = [] := rfl

@[simp] theorem isOk_refused : (refused message announced).isOk = false := rfl

end Verdict

variable {source : String} {tokens : List Token}

theorem parse_of_tokenize (htokens : tokenize source = .ok tokens) :
    parse source = parseTokens tokens := by
  rw [parse, htokens]

/-- A source without tokens is refused for the same fault at the same place. -/
theorem parse_of_uncut {e : LexError} (htokens : tokenize source = .error e) :
    parse source = ⟨.error e.toParseError, []⟩ := by
  rw [parse, htokens]

/-- The verdict looks for a source of blanks before anything else. -/
theorem check_of_blank (hblank : Text.allBlank source = true) :
    check source = .refused "Empty code provided" [] :=
  if_pos hblank

theorem check_of_uncut {e : LexError} (hblank : Text.allBlank source = false)
    (htokens : tokenize source = .error e) : check source = .refused e.diagnostic.display [] := by
  rw [check, if_neg (by simp [hblank]), htokens]

/-- Where the parse is refused, the verdict has that single error, and no warning. -/
theorem check_of_refused {e : ParseError} (hblank : Text.allBlank source = false)
    (htokens : tokenize source = .ok tokens) (hparse : (parseTokens tokens).result = .error e) :
    check source = .refused e.diagnostic.display (parseTokens tokens).announced := by
  rw [check, if_neg (by simp [hblank]), htokens]
  simp only [hparse]

/-- Where the parse succeeds, the verdict has the program and the warnings. -/
theorem check_of_read {parsed : Parsed} (hblank : Text.allBlank source = false)
    (htokens : tokenize source = .ok tokens) (hparse : (parseTokens tokens).result = .ok parsed) :
    check source = ⟨some parsed.program, [], parsed.warnings.map Warning.display,
      (parseTokens tokens).announced⟩ := by
  rw [check, if_neg (by simp [hblank]), htokens]
  simp only [hparse]

theorem loadSource_of_uncut {e : LexError} (htokens : tokenize source = .error e) :
    (loadSource source).1 = .error (.lexing e) := by
  rw [loadSource, htokens]

theorem loadSource_of_refused {e : ParseError} (htokens : tokenize source = .ok tokens)
    (hparse : (parseTokens tokens).result = .error e) :
    (loadSource source).1 = .error (.parsing e) := by
  rw [loadSource, htokens]
  simp only [hparse]

/-- Where the parse succeeds, so does the load, with the same program. -/
theorem loadSource_of_read {parsed : Parsed} (htokens : tokenize source = .ok tokens)
    (hparse : (parseTokens tokens).result = .ok parsed) :
    (loadSource source).1 = .ok parsed.program := by
  rw [loadSource, htokens]
  simp only [hparse]

/-- The parse, the verdict and the load of a source agree. They give the same program, or none of
    them gives one, and the verdict lists the warnings of the parse. A verdict on a source that is no
    program has one error and no warnings. Unless the source is blank that error is what the load
    fails with: where the source cannot be cut into tokens, or where its tokens are no program. None
    of them gives a program for a source of blanks. -/
theorem entry_points_agree (source : String) :
    (∀ program,
      ((parse source).result.map Parsed.program = .ok program ↔
        (check source).isOk = true ∧ (check source).program = some program) ∧
      ((parse source).result.map Parsed.program = .ok program ↔
        (loadSource source).1 = .ok program)) ∧
    (∀ parsed, (parse source).result = .ok parsed →
      (check source).warnings = parsed.warnings.map Warning.display) ∧
    (∀ e, (parse source).result = .error e →
      (check source).program = none ∧ (∃ message, (check source).errors = [message]) ∧
        (check source).warnings = []) ∧
    (Text.allBlank source = false →
      (∀ e, tokenize source = .error e →
        (check source).errors = [(SourceError.lexing e).diagnostic.display] ∧
          (loadSource source).1 = .error (.lexing e)) ∧
      ∀ tokens e, tokenize source = .ok tokens → (parseTokens tokens).result = .error e →
        (check source).errors = [(SourceError.parsing e).diagnostic.display] ∧
          (loadSource source).1 = .error (.parsing e)) ∧
    (Text.allBlank source = true →
      (∃ e, (parse source).result = .error e) ∧ (check source).isOk = false ∧
        ∃ e, (loadSource source).1 = .error e) := by
  cases reading source with
  | blank hblank htokens hparse =>
    rw [parse_of_tokenize htokens, check_of_blank hblank, loadSource_of_refused htokens hparse,
      hparse]
    exact ⟨by simp [Except.map], by simp, by simp, by simp [hblank], by simp⟩
  | uncut hblank htokens =>
    rw [parse_of_uncut htokens, check_of_uncut hblank htokens, loadSource_of_uncut htokens]
    refine ⟨by simp [Except.map], by simp, by simp, fun _ => ⟨?_, by simp [htokens]⟩,
      by simp [hblank]⟩
    intro e htokens'
    cases htokens.symm.trans htokens'
    exact ⟨rfl, rfl⟩
  | refused hblank htokens hparse =>
    rw [parse_of_tokenize htokens, check_of_refused hblank htokens hparse,
      loadSource_of_refused htokens hparse, hparse]
    refine ⟨by simp [Except.map], by simp, by simp, fun _ => ⟨by simp [htokens], ?_⟩,
      by simp [hblank]⟩
    intro tokens e htokens' hparse'
    cases htokens.symm.trans htokens'
    cases hparse.symm.trans hparse'
    exact ⟨rfl, rfl⟩
  | read hblank htokens hparse =>
    rw [parse_of_tokenize htokens, check_of_read hblank htokens hparse,
      loadSource_of_read htokens hparse, hparse]
    refine ⟨by simp [Except.map, Verdict.isOk], by simp, by simp,
      fun _ => ⟨by simp [htokens], ?_⟩, by simp [hblank]⟩
    intro tokens e htokens' hparse'
    cases htokens.symm.trans htokens'
    cases hparse.symm.trans hparse'

end Candlewick
