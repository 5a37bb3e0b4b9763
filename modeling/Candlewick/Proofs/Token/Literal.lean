import Candlewick.Proofs.Token.Respacing
import Mathlib

namespace Candlewick

namespace Lexeme

/-- The characters that make an escape behind a backslash, with what they stand for. -/
def escapes : List (Char × Char) :=
  [('n', '\n'), ('t', '\t'), ('r', '\r'), ('\\', '\\'), ('"', '"'), ('\'', '\'')]

theorem mem_escapes_iff {escape c : Char} :
    (escape, c) ∈ escapes ↔ unescaped? escape = some c := by
  constructor
  · intro hmem
    simp only [escapes, List.mem_cons, Prod.mk.injEq, List.not_mem_nil, or_false] at hmem
    rcases hmem with ⟨rfl, rfl⟩ | ⟨rfl, rfl⟩ | ⟨rfl, rfl⟩ | ⟨rfl, rfl⟩ | ⟨rfl, rfl⟩ | ⟨rfl, rfl⟩ <;> rfl
  · intro hescape
    unfold unescaped? at hescape
    split at hescape <;> cases hescape <;> simp [escapes]

/-- What can be written for some content between two quotes: each character as an escape that stands
    for it, or as it is. A quote, a backslash or a line feed cannot stand as it is. -/
inductive Writes (quote : Char) : List Char → List Char → Prop where
  | nil : Writes quote [] []
  | plain {c : Char} {content written : List Char} (hquote : c ≠ quote) (hslash : c ≠ '\\')
    (hfeed : c ≠ '\n') (hrest : Writes quote content written) :
    Writes quote (c :: content) (c :: written)
  | escape {escape c : Char} {content written : List Char} (hescape : (escape, c) ∈ escapes)
    (hrest : Writes quote content written) :
    Writes quote (c :: content) ('\\' :: escape :: written)

/-- Some content with no more escapes than it needs. -/
def escaped (quote : Char) : List Char → List Char
  | [] => []
  | c :: rest =>
    if c = '\n' then
      '\\' :: 'n' :: escaped quote rest
    else if c = quote ∨ c = '\\' then
      '\\' :: c :: escaped quote rest
    else
      c :: escaped quote rest

variable {quote : Char}

/-- Every content can be written. -/
theorem writes_escaped (hquote : quote = '"' ∨ quote = '\'') (content : List Char) :
    Writes quote content (escaped quote content) := by
  fun_induction escaped quote content with
  | case1 => exact .nil
  | case2 rest ih => exact .escape (by decide) ih
  | case3 c rest _ hspecial ih =>
    refine .escape ?_ ih
    rcases hspecial with rfl | rfl
    · rcases hquote with rfl | rfl <;> decide
    · decide
  | case4 c rest hfeed hplain ih =>
    obtain ⟨hquote, hslash⟩ := not_or.1 hplain
    exact .plain hquote hslash hfeed ih

/-- What is written stands for one content only. -/
theorem Writes.unique {content other written : List Char} (hwrites : Writes quote content written)
    (hother : Writes quote other written) : content = other := by
  induction hwrites generalizing other with
  | nil =>
    cases hother
    rfl
  | plain _ hslash _ _ ih =>
    cases hother with
    | plain _ _ _ hrest => rw [ih hrest]
    | escape => exact absurd rfl hslash
  | escape hescape _ ih =>
    cases hother with
    | plain _ hslash => exact absurd rfl hslash
    | escape hagain hrest =>
      rw [mem_escapes_iff] at hescape hagain
      rw [ih hrest, Option.some.inj (hescape.symm.trans hagain)]

/-- What is written for some content is read as that content, up to the quote behind it. -/
theorem quoted_of_writes (hquote : quote ≠ '\\') {content written : List Char}
    (hwrites : Writes quote content written) (rest : List Char) :
    quoted quote (written ++ quote :: rest) = .ok ⟨content, written ++ [quote], rest⟩ := by
  induction hwrites with
  | nil =>
    rw [List.nil_append, quoted.eq_def]
    simp
  | plain hdiffers hslash hfeed _ ih =>
    rw [List.cons_append, quoted.eq_def]
    simp only [hdiffers, hslash, hfeed, if_false, ih, List.cons_append]
  | escape hescape _ ih =>
    rw [mem_escapes_iff] at hescape
    have hfeed : '\\' ≠ '\n' := by decide
    rw [List.cons_append, List.cons_append, quoted.eq_def]
    simp only [Ne.symm hquote, hfeed, if_false, if_true, hescape, ih, List.cons_append]

/-- What is read as a string was written for its content. -/
theorem writes_of_quoted {cs : List Char} {q : Quoted} (hquoted : quoted quote cs = .ok q) :
    ∃ written, q.written = written ++ [quote] ∧ Writes quote q.content written := by
  fun_induction quoted quote cs generalizing q with
  | case2 rest =>
    cases hquoted
    exact ⟨[], rfl, .nil⟩
  | case6 escape rest value tail htail hescape _ _ ih =>
    cases hquoted
    obtain ⟨written, htaken, hwrites⟩ := ih htail
    refine ⟨'\\' :: escape :: written, by rw [htaken]; rfl, .escape ?_ hwrites⟩
    exact mem_escapes_iff.2 hescape
  | case9 c rest hdiffers hfeed hslash tail htail ih =>
    cases hquoted
    obtain ⟨written, htaken, hwrites⟩ := ih htail
    exact ⟨c :: written, by rw [htaken]; rfl, .plain hdiffers hslash hfeed hwrites⟩
  | _ => cases hquoted

end Lexeme

namespace Lexer

open Lexeme (Writes)

/-- A literal for some content: what is written for it, between quotes. -/
def literal (quote : Char) (written : List Char) : List Char :=
  quote :: (written ++ [quote])

variable {quote : Char}

/-- A literal is read as a token with the content that it was written for, whatever follows it. -/
theorem piece_literal (hquote : quote = '"' ∨ quote = '\'') {content written : List Char}
    (hwrites : Writes quote content written) (rest : List Char) :
    piece quote (written ++ quote :: rest) =
      .ok ⟨.token (.text (String.ofList content)), literal quote written, rest⟩ := by
  have hquoted := Lexeme.quoted_of_writes (by rcases hquote with rfl | rfl <;> decide) hwrites rest
  rw [piece_quoted _ _ _ hquote, hquoted]
  · rfl
  all_goals rcases hquote with rfl | rfl <;> decide

/-- A literal is read as one token, wherever it stands, and reading goes on behind it. -/
theorem scan_literal (hquote : quote = '"' ∨ quote = '\'') {content : String}
    {written : List Char} (hwrites : Writes quote content.toList written) (rest : List Char)
    (place : Place) (depth : Nat) :
    scan place depth (literal quote written ++ rest) =
      (scan (place.after (literal quote written)) depth rest).map
        (⟨.text content, String.ofList (literal quote written), place⟩ :: ·) := by
  have hsource : literal quote written ++ rest = quote :: (written ++ quote :: rest) := by
    simp [literal]
  rw [hsource, scan_of_piece (piece_literal hquote hwrites rest), String.ofList_toList]
  rfl

/-- The token of a string is a literal for its content. -/
theorem literal_of_mem_scan {place : Place} {depth : Nat} {source : List Char}
    {tokens : List Token} (hscan : scan place depth source = .ok tokens) {token : Token}
    (htoken : token ∈ tokens) {content : String} (hkind : token.kind = .text content) :
    ∃ quote written, (quote = '"' ∨ quote = '\'') ∧
      token.lexeme.toList = literal quote written ∧ Writes quote content.toList written := by
  rcases exists_piece_of_mem_scan hscan htoken with hend | ⟨c, rest, p, place, depth, hpiece, hmem⟩
  · rw [hend] at hkind
    cases hkind
  · have hhead : p.head = .token (.text content) ∧ token.lexeme.toList = p.written := by
      unfold Piece.token? at hmem
      split at hmem
      · cases hmem
      · split at hmem
        · cases hmem
          cases hkind
        · cases hmem
      · rename_i kind hhead
        cases hmem
        obtain rfl : kind = .text content := hkind
        exact ⟨hhead, String.toList_ofList⟩
    obtain ⟨hhead, hlexeme⟩ := hhead
    rw [hlexeme]
    cases firstPiece hpiece with
    | @text q hline hblank hdigit hquote hquoted =>
      cases hhead
      obtain ⟨written, hwritten, hwrites⟩ := Lexeme.writes_of_quoted hquoted
      rw [String.toList_ofList]
      exact ⟨c, written, hquote, by rw [hwritten]; rfl, hwrites⟩
    | lineFeed | blank | comment | number => cases hhead
    | word =>
      rw [wordKind] at hhead
      split at hhead <;> cases hhead
    | symbol _ _ _ _ _ _ hsymbol =>
      cases hhead
      unfold Lexeme.symbol? at hsymbol
      split at hsymbol <;> cases hsymbol

end Lexer

open Lexeme Lexer

/-- Strings are read as they were written. Every string has a literal with either quote; wherever a
    literal stands, it is read as one token with the string that it was written for, and reading goes
    on behind it. And every token of a string is a literal, for the string that the token has and for
    no other. -/
theorem literals_are_read_back :
    (∀ quote, quote = '"' ∨ quote = '\'' → ∀ content : String,
      Writes quote content.toList (escaped quote content.toList) ∧
      ∀ written, Writes quote content.toList written → ∀ rest place depth,
        scan place depth (literal quote written ++ rest) =
          (scan (place.after (literal quote written)) depth rest).map
            (⟨.text content, String.ofList (literal quote written), place⟩ :: ·)) ∧
    ∀ source tokens, tokenize source = .ok tokens → ∀ token ∈ tokens, ∀ content,
      token.kind = .text content → ∃ quote written, (quote = '"' ∨ quote = '\'') ∧
        token.lexeme.toList = literal quote written ∧ Writes quote content.toList written ∧
        ∀ other, Writes quote other written → other = content.toList := by
  refine ⟨fun quote hquote content => ⟨writes_escaped hquote _, ?_⟩, ?_⟩
  · exact fun written hwrites rest place depth => scan_literal hquote hwrites rest place depth
  · intro source tokens hsource token htoken content hkind
    obtain ⟨quote, written, hquote, hlexeme, hwrites⟩ := literal_of_mem_scan hsource htoken hkind
    exact ⟨quote, written, hquote, hlexeme, hwrites, fun other hother => hother.unique hwrites⟩

/-- A tab, a backslash, a line feed and both quotes in single quotes. The double quote is written as
    an escape and the tab is not; neither has to be the one or the other. -/
theorem literals_are_read_back_both_quotes :
    let content := "\t\\\n'\""
    let written := ['\t', '\\', '\\', '\\', 'n', '\\', '\'', '\\', '"']
    let token : Token := ⟨.text content, String.ofList (literal '\'' written), Place.start⟩
    Writes '\'' content.toList written ∧
      scan Place.start 0 (literal '\'' written ++ ['[', '1']) =
        (scan (Place.start.after (literal '\'' written)) 0 ['[', '1']).map (token :: ·) ∧
      tokenize "'\t\\\\\\n\\'\\\"'" = .ok [token, .sourceEnd ⟨11, 1, 12⟩] ∧
      ∃ quote written, (quote = '"' ∨ quote = '\'') ∧
        token.lexeme.toList = literal quote written ∧ Writes quote content.toList written ∧
        ∀ other, Writes quote other written → other = content.toList := by
  intro content written token
  have hcontent : content.toList = ['\t', '\\', '\n', '\'', '"'] := by decide
  have hwrites : Writes '\'' content.toList written := by
    rw [hcontent]
    exact .plain (by decide) (by decide) (by decide) <| .escape (by decide) <|
      .escape (by decide) <| .escape (by decide) <| .escape (by decide) .nil
  have hsource : tokenize "'\t\\\\\\n\\'\\\"'" = .ok [token, .sourceEnd ⟨11, 1, 12⟩] := by cbv
  obtain ⟨hread, hdecoded⟩ := literals_are_read_back
  exact ⟨hwrites, (hread '\'' (.inr rfl) content).2 written hwrites _ _ _, hsource,
    hdecoded _ _ hsource token List.mem_cons_self content rfl⟩

end Candlewick
