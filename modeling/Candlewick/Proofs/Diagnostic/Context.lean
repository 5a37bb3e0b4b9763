import Candlewick.Proofs.Grammar.Places
import Candlewick.Proofs.Text.Lines
import Candlewick.Proofs.Token.Refusal
import Mathlib

namespace Candlewick

namespace Diagnostic

/-- A report on the place between two parts of a source: its offset in bytes, its line and its
    column, and below the line a caret under the column, and the message. -/
structure PointsAt (report : Diagnostic) (source : String) (front back : List Char) : Prop where
  source_eq : source.toList = front ++ back
  offset_eq : report.place.offset = (String.ofList front).utf8ByteSize
  line_eq : report.place.line = 1 + front.count '\n'
  column_eq : report.place.column = 1 + (front.rtakeWhile (· ≠ '\n')).length
  inContext_eq : report.inContext source =
    String.ofList (Text.lineAround front back) ++ "\n" ++
      String.ofList (List.replicate (report.place.column - 1) ' ') ++ "^\n" ++ report.display

theorem pushn_eq_ofList (c : Char) (count : Nat) :
    "".pushn c count = String.ofList (List.replicate count c) := by
  rw [String.pushn_eq_repeat_push]
  induction count with
  | zero => rfl
  | succ count ih =>
    rw [Nat.repeat, ih, List.replicate_succ', String.ofList_append]
    apply String.toList_injective
    simp

/-- A report whose place is counted from the front of a source points behind that front. -/
theorem pointsAt {report : Diagnostic} {source : String} {front back : List Char}
    (hsource : source.toList = front ++ back) (hplace : report.place = Place.behind front) :
    report.PointsAt source front back := by
  have hline : Text.lineAt source report.place.line =
      String.ofList (Text.lineAround front back) := by
    rw [Text.lineAt, hplace, hsource, ← Text.getD_lines_count, Place.behind,
      Nat.add_sub_cancel_left]
  refine ⟨hsource, by rw [hplace]; rfl, by rw [hplace]; rfl, by rw [hplace]; rfl, ?_⟩
  rw [inContext, hline, pushn_eq_ofList]

/-- A report at the place of a token points at the text of the token. -/
theorem exists_pointsAt_of_mem {report : Diagnostic} {source : String} {tokens : List Token}
    (htokens : tokenize source = .ok tokens) {token : Token} (hmem : token ∈ tokens)
    (hplace : report.place = token.place) :
    ∃ front back, report.PointsAt source front (token.lexeme.toList ++ back) := by
  obtain ⟨earlier, later, hsplit⟩ := List.append_of_mem hmem
  obtain ⟨front, gap, back, hsource, -, -, htoken⟩ :=
    (tiles_of_tokenize htokens).tile earlier token later hsplit
  refine ⟨front ++ gap, back, pointsAt ?_ (hplace.trans htoken)⟩
  rw [hsource, List.append_assoc]

end Diagnostic

/-- A source without tokens is refused where no token can be read. -/
theorem refusedAt_of_tokenize {source : String} {e : LexError}
    (hsource : tokenize source = .error e) :
    ∃ front gap read back, Lexer.RefusedAt [] 0 source.toList e front gap read back := by
  have hstart : Place.start = Place.behind [] := (Place.after_start []).symm
  rw [tokenize, hstart] at hsource
  exact Lexer.refusedAt_of_scan hsource

/-- The tokens of a source are refused at one of them. -/
theorem atToken_of_parseTokens {source : String} {tokens : List Token} {e : ParseError}
    (htokens : tokenize source = .ok tokens) (hparse : (parseTokens tokens).result = .error e) :
    Grammar.AtToken tokens e := by
  obtain ⟨hne, hend⟩ := last_of_tokenize htokens
  exact Grammar.atToken_of_parse_error hne hend hparse

/-- Errors point into the source. A source that has no tokens is refused where one should begin, or
    behind the backslash of a bad escape. Any other source that is no program is refused where one
    of its tokens begins, and a token that the message names is that one. -/
theorem errors_point_at_source (source : String) :
    (∀ e, tokenize source = .error e →
      ∃ front gap read back, Lexer.RefusedAt [] 0 source.toList e front gap read back ∧
        e.diagnostic.PointsAt source (front ++ gap ++ read) back) ∧
    ∀ e, (parse source).result = .error e →
      (∃ lexical, tokenize source = .error lexical ∧ e = lexical.toParseError ∧
        ∃ front gap read back, Lexer.RefusedAt [] 0 source.toList lexical front gap read back ∧
          e.diagnostic.PointsAt source (front ++ gap ++ read) back) ∨
      ∃ tokens token, tokenize source = .ok tokens ∧ token ∈ tokens ∧ e.place = token.place ∧
        (∀ wanted found, e.fault = .expected wanted found → found = token) ∧
        ∃ front back, e.diagnostic.PointsAt source front (token.lexeme.toList ++ back) := by
  have hlexical : ∀ e, tokenize source = .error e → ∀ report : Diagnostic, report.place = e.place →
      ∃ front gap read back, Lexer.RefusedAt [] 0 source.toList e front gap read back ∧
        report.PointsAt source (front ++ gap ++ read) back := by
    intro e he report hreport
    obtain ⟨front, gap, read, back, hrefused⟩ := refusedAt_of_tokenize he
    have hplace := hreport.trans hrefused.place_eq
    refine ⟨front, gap, read, back, hrefused, Diagnostic.pointsAt ?_ hplace⟩
    rw [hrefused.source_eq, List.append_assoc, List.append_assoc]
  refine ⟨fun e he => hlexical e he e.diagnostic rfl, fun e he => ?_⟩
  cases htokens : tokenize source with
  | error lexical =>
    rw [parse, htokens] at he
    cases he
    exact .inl ⟨lexical, rfl, rfl, hlexical lexical htokens _ rfl⟩
  | ok tokens =>
    rw [parse, htokens] at he
    obtain ⟨token, hmem, hplace, hnamed⟩ := atToken_of_parseTokens htokens he
    exact .inr ⟨tokens, token, rfl, hmem, hplace, hnamed,
      Diagnostic.exists_pointsAt_of_mem htokens hmem hplace⟩

/-- A character that begins no token on a second line, and a bracket out of place behind a letter of
    two bytes. -/
theorem errors_point_at_question_mark_and_bracket :
    let lexical : LexError := ⟨.unexpectedCharacter '?', ⟨13, 2, 3⟩⟩
    let bracket : Token := ⟨.punctuation .rightParen, ")", ⟨9, 1, 9⟩⟩
    let error : ParseError := ⟨.expected .lineEnd bracket, ⟨9, 1, 9⟩⟩
    (tokenize "a := 'é'\r\nb ? c" = .error lexical ∧
      lexical.diagnostic.inContext "a := 'é'\r\nb ? c" =
        "b ? c\n  ^\nlex error at line 2, column 3: unexpected character '?'" ∧
      ∃ front gap read back,
        Lexer.RefusedAt [] 0 "a := 'é'\r\nb ? c".toList lexical front gap read back ∧
          lexical.diagnostic.PointsAt "a := 'é'\r\nb ? c" (front ++ gap ++ read) back) ∧
    (parse "x = 'é' )\r\ny\n").result = .error error ∧
      error.diagnostic.inContext "x = 'é' )\r\ny\n" =
        "x = 'é' )\n        ^\nparse error at line 1, column 9: expected end of line, found ')'" ∧
      ∃ tokens token, tokenize "x = 'é' )\r\ny\n" = .ok tokens ∧ token ∈ tokens ∧
        error.place = token.place ∧ bracket = token ∧
        ∃ front back, error.diagnostic.PointsAt "x = 'é' )\r\ny\n" front
          (token.lexeme.toList ++ back) := by
  intro lexical bracket error
  have hlexical : tokenize "a := 'é'\r\nb ? c" = .error lexical := by cbv
  have hparse : (parse "x = 'é' )\r\ny\n").result = .error error := by cbv
  refine ⟨⟨hlexical, by decide +kernel, (errors_point_at_source _).1 _ hlexical⟩, hparse,
    by decide +kernel, ?_⟩
  rcases (errors_point_at_source _).2 _ hparse with ⟨refused, -, hlex, -⟩ | hfound
  · cases congrArg ParseError.fault hlex
  · obtain ⟨tokens, token, htokens, hmem, hplace, hnamed, hpoints⟩ := hfound
    exact ⟨tokens, token, htokens, hmem, hplace, hnamed _ _ rfl, hpoints⟩

end Candlewick
