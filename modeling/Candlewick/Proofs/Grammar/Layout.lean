import Candlewick.Proofs.Grammar.Exactness
import Candlewick.Proofs.Token.Layout

namespace Candlewick.Grammar

open Layout

/-- Whether a terminal is the end of a line. -/
def Terminal.isLineEnd (terminal : Terminal) : Bool :=
  terminal == .plain .lineEnd

theorem Terminal.not_isLineEnd {terminal : Terminal} (hkind : terminal.kind ≠ .lineEnd) :
    ¬ terminal.isLineEnd = true := by
  intro hend
  rw [eq_of_beq hend] at hkind
  exact hkind rfl

section

variable {rest other : List Terminal}

/-- Terminals are ends of lines, or there are some in front of something else. -/
theorem lineEnds_cases (terminals : List Terminal) :
    (∃ count, terminals = lineEnds count) ∨
      ∃ count next more, terminals = lineEnds count ++ next :: more ∧ ¬ next.isLineEnd = true := by
  induction terminals with
  | nil => exact .inl ⟨0, rfl⟩
  | cons terminal rest ih =>
    by_cases hend : terminal.isLineEnd = true
    · rw [eq_of_beq hend]
      rcases ih with ⟨count, rfl⟩ | ⟨count, next, more, rfl, hnext⟩
      · exact .inl ⟨count + 1, rfl⟩
      · exact .inr ⟨count + 1, next, more, rfl, hnext⟩
    · exact .inr ⟨0, terminal, rest, rfl, hend⟩

/-- Ends of lines in front of something else can be passed over. -/
theorem dropWhile_lineEnds_append {next : Terminal} (hnext : ¬ next.isLineEnd = true)
    (count : Nat) :
    (lineEnds count ++ next :: rest).dropWhile Terminal.isLineEnd = next :: rest := by
  induction count with
  | zero => exact List.dropWhile_cons_of_neg hnext
  | succ count ih => exact ih

theorem squeezed_lineEnds (count : Nat) : squeezed Terminal.isLineEnd (lineEnds count) = [] := by
  induction count with
  | zero => rfl
  | succ count ih =>
    change squeezed Terminal.isLineEnd (.plain .lineEnd :: lineEnds count) = []
    rw [squeezed, ih]
    rfl

/-- Several ends of lines in front of something else count as one. -/
theorem squeezed_lineEnds_append {count : Nat} {next : Terminal} (hnext : ¬ next.isLineEnd = true) :
    squeezed Terminal.isLineEnd (lineEnds (count + 1) ++ next :: rest) =
      .plain .lineEnd :: next :: squeezed Terminal.isLineEnd rest := by
  have hrest := squeezed_cons_of_not hnext rest
  induction count with
  | zero =>
    change squeezed Terminal.isLineEnd (.plain .lineEnd :: next :: rest) = _
    rw [squeezed, hrest]
    simp [hnext]
  | succ count ih =>
    change squeezed Terminal.isLineEnd (.plain .lineEnd :: (lineEnds (count + 1) ++ _)) = _
    rw [squeezed, ih]
    rfl

/-- Terminals of one line in front of others stand in front of them in every layout. -/
theorem exists_append_of_squeezed {front : List Terminal}
    (hfront : ∀ terminal ∈ front, terminal.kind ≠ .lineEnd)
    (hsame : squeezed Terminal.isLineEnd (front ++ rest) = squeezed Terminal.isLineEnd other) :
    ∃ rest', other = front ++ rest' ∧
      squeezed Terminal.isLineEnd rest = squeezed Terminal.isLineEnd rest' := by
  induction front generalizing other with
  | nil => exact ⟨other, rfl, hsame⟩
  | cons terminal front ih =>
    obtain ⟨hline, hfront⟩ := List.forall_mem_cons.1 hfront
    have hterminal := Terminal.not_isLineEnd hline
    rw [List.cons_append, squeezed_cons_of_not hterminal] at hsame
    cases other with
    | nil => cases hsame
    | cons first other =>
      by_cases hfirst : first.isLineEnd = true
      · have hhead := squeezed_head_of_isEnd hfirst other
        rw [← hsame] at hhead
        exact absurd hhead hterminal
      · rw [squeezed_cons_of_not hfirst] at hsame
        obtain ⟨rfl, hmore⟩ := List.cons.inj hsame
        obtain ⟨rest', rfl, hrest⟩ := ih hfront hmore
        exact ⟨rest', rfl, hrest⟩

/-- Ends of lines in front of something else are ends of lines in every layout, at least one if there
    was one. -/
theorem exists_lineEnds_of_squeezed {count : Nat} {next : Terminal}
    (hnext : ¬ next.isLineEnd = true)
    (hsame : squeezed Terminal.isLineEnd (lineEnds count ++ next :: rest) =
      squeezed Terminal.isLineEnd other) :
    ∃ count' rest', other = lineEnds count' ++ rest' ∧ (count' = 0 ↔ count = 0) ∧
      squeezed Terminal.isLineEnd (next :: rest) = squeezed Terminal.isLineEnd rest' := by
  cases count with
  | zero => exact ⟨0, other, rfl, Iff.rfl, hsame⟩
  | succ count =>
    rw [squeezed_lineEnds_append hnext] at hsame
    rcases lineEnds_cases other with ⟨count', rfl⟩ | ⟨_ | count', first, more, rfl, hfirst⟩
    · rw [squeezed_lineEnds] at hsame
      cases hsame
    · change _ = squeezed Terminal.isLineEnd (first :: more) at hsame
      rw [squeezed_cons_of_not hfirst] at hsame
      rw [← (List.cons.inj hsame).1] at hfirst
      exact absurd rfl hfirst
    · rw [squeezed_lineEnds_append hfirst] at hsame
      refine ⟨count' + 1, first :: more, rfl, by simp, ?_⟩
      rw [squeezed_cons_of_not hnext, squeezed_cons_of_not hfirst]
      exact (List.cons.inj hsame).2

/-- Ends of lines behind everything else are just that in every layout. -/
theorem exists_eq_lineEnds_of_squeezed {count : Nat}
    (hsame : squeezed Terminal.isLineEnd (lineEnds count) = squeezed Terminal.isLineEnd other) :
    ∃ count', other = lineEnds count' := by
  rcases lineEnds_cases other with hother | ⟨_ | count', first, more, rfl, hfirst⟩
  · exact hother
  · change _ = squeezed Terminal.isLineEnd (first :: more) at hsame
    rw [squeezed_lineEnds, squeezed_cons_of_not hfirst] at hsame
    cases hsame
  · rw [squeezed_lineEnds, squeezed_lineEnds_append hfirst] at hsame
    cases hsame

/-- A trading rule stays on its line. -/
theorem Rule.onLine {rule : Rule} (hcondition : rule.condition.IsExpression) :
    ∀ terminal ∈ rule.terminals, terminal.kind ≠ .lineEnd := by
  intro terminal hmem
  simp only [Rule.terminals, List.mem_cons, List.mem_append, List.not_mem_nil, or_false] at hmem
  rcases hmem with rfl | hmem | rfl | rfl
  · simp
  · exact (hcondition.derives.ne_end hmem).1
  · simp
  · cases rule.action <;> simp [Action.keyword]

/-- The rules of a strategy in another layout. -/
theorem Rule.exists_relaid {rules : List (Nat × Rule)}
    (hconditions : ∀ entry ∈ rules, entry.2.condition.IsExpression)
    (hsame : squeezed Terminal.isLineEnd (Rule.listed rules ++ rest) =
      squeezed Terminal.isLineEnd other) :
    ∃ rules' rest', rules'.map Prod.snd = rules.map Prod.snd ∧
      other = Rule.listed rules' ++ rest' ∧
      squeezed Terminal.isLineEnd rest = squeezed Terminal.isLineEnd rest' := by
  induction rules generalizing other with
  | nil => exact ⟨[], other, rfl, rfl, hsame⟩
  | cons entry rules ih =>
    obtain ⟨hcondition, hconditions⟩ := List.forall_mem_cons.1 hconditions
    have hfirst : ¬ (Terminal.word .ifWord).isLineEnd = true := by decide
    rw [Rule.listed_cons, entry.2.terminals_append] at hsame
    obtain ⟨count, other, rfl, -, hrule⟩ := exists_lineEnds_of_squeezed hfirst hsame
    rw [← entry.2.terminals_append] at hrule
    obtain ⟨other, rfl, hmore⟩ := exists_append_of_squeezed (Rule.onLine hcondition) hrule
    obtain ⟨rules', rest', hrules, rfl, hrest⟩ := ih hconditions hmore
    refine ⟨(count, entry.2) :: rules', rest', by rw [List.map_cons, hrules]; rfl, ?_, hrest⟩
    rw [Rule.listed_cons]

/-- A statement without the ends of lines in front of its rules. -/
def Statement.bare : Statement → Statement
  | strategy title rules => .strategy title (rules.map fun entry => (0, entry.2))
  | rule alone => .rule alone
  | expression phrase => .expression phrase

namespace Statement

variable (statement : Statement)

/-- The expressions of a statement are the same without the ends of lines in front of its rules. -/
theorem parts_bare : statement.bare.parts = statement.parts := by
  cases statement with
  | strategy title rules => simp [bare, parts]
  | rule | expression => rfl

theorem node_bare : statement.bare.node = statement.node := by
  cases statement with
  | strategy title rules => simp [bare, node]
  | rule | expression => rfl

theorem nesting_bare : statement.bare.nesting = statement.nesting := by
  cases statement with
  | strategy title rules => simp [bare, nesting, List.foldr_map]
  | rule | expression => rfl

theorem isStrategy_bare : statement.bare.isStrategy = statement.isStrategy := by
  cases statement <;> rfl

theorem isRule_bare : statement.bare.isRule = statement.isRule := by
  cases statement <;> rfl

/-- Ends of lines in front of its rules do not decide whether a statement is derived. -/
theorem derived_bare : statement.bare.Derived ↔ statement.Derived := by
  rw [Derived, Derived, parts_bare]

theorem consequents_bare : statement.bare.consequents = statement.consequents := by
  rw [consequents, consequents, parts_bare]

theorem fits_bare (limits : Limits) : statement.bare.Fits limits ↔ statement.Fits limits := by
  constructor
  · rintro ⟨hnesting, hheight⟩
    exact ⟨statement.nesting_bare ▸ hnesting, statement.node_bare ▸ hheight⟩
  · rintro ⟨hnesting, hheight⟩
    exact ⟨statement.nesting_bare.symm ▸ hnesting, statement.node_bare.symm ▸ hheight⟩

end Statement

/-- A statement in another layout. -/
theorem Statement.exists_relaid {statement : Statement} (hderived : statement.Derived)
    (hsame : squeezed Terminal.isLineEnd (statement.terminals ++ rest) =
      squeezed Terminal.isLineEnd other) :
    ∃ (statement' : Statement) (rest' : List Terminal), statement'.bare = statement.bare ∧
      other = statement'.terminals ++ rest' ∧
      squeezed Terminal.isLineEnd rest = squeezed Terminal.isLineEnd rest' := by
  cases statement with
  | strategy title rules =>
    have hfront : ∀ terminal ∈ [Terminal.word .strategyWord, .sign .leftParen,
        .plain (.text title), .sign .rightParen], terminal.kind ≠ .lineEnd := by simp
    obtain ⟨other, rfl, hrules⟩ := exists_append_of_squeezed hfront hsame
    obtain ⟨rules', rest', hsnd, rfl, hrest⟩ := Rule.exists_relaid hderived.conditions hrules
    refine ⟨.strategy title rules', rest', ?_, rfl, hrest⟩
    have hbare := congrArg (List.map fun rule => (0, rule)) hsnd
    rw [List.map_map, List.map_map] at hbare
    exact congrArg (Statement.strategy title) hbare
  | rule alone =>
    obtain ⟨rest', rfl, hrest⟩ := exists_append_of_squeezed (Rule.onLine hderived.condition) hsame
    exact ⟨.rule alone, rest', rfl, rfl, hrest⟩
  | expression phrase =>
    have hline : ∀ terminal ∈ phrase.terminals, terminal.kind ≠ .lineEnd :=
      fun _ hmem => (hderived.phrase.derives.ne_end hmem).1
    obtain ⟨rest', rfl, hrest⟩ := exists_append_of_squeezed hline hsame
    exact ⟨.expression phrase, rest', rfl, rfl, hrest⟩

/-- The statements of a block without the ends of lines in front of their rules. -/
def Block.bare (block : Block) : List Statement :=
  block.statements.map Statement.bare

namespace Block

/-- The trees of a block are those of its bare statements. -/
theorem nodes_eq_map (block : Block) : block.nodes = block.bare.map Statement.node := by
  induction block with
  | last statement => simp [nodes, bare, statements, Statement.node_bare]
  | more statement _ _ ih =>
    rw [nodes, ih]
    simp [bare, statements, Statement.node_bare]

/-- The warnings about a block are those about its bare statements. -/
theorem warned_eq_countP (block : Block) :
    block.warned = (block.bare.flatMap Statement.consequents).countP Phrase.hasElse := by
  simp only [warned, bare, List.flatMap_map, Statement.consequents_bare]

/-- There is room for a block if there is room for each of its bare statements. -/
theorem fits_iff {limits : Limits} (block : Block) :
    block.Fits limits ↔ ∀ statement ∈ block.bare, statement.Fits limits := by
  induction block with
  | last statement => simp [Fits, bare, statements, Statement.fits_bare]
  | more statement _ _ ih =>
    rw [Fits, ih]
    simp [bare, statements, Statement.fits_bare]

theorem head?_bare (block : Block) : block.bare.head? = some block.head.bare := by
  cases block <;> rfl

end Block

/-- No block begins with the end of a line. -/
theorem Block.Derived.exists_cons {block : Block} (hderived : block.Derived) :
    ∃ next more, block.terminals = next :: more ∧ ¬ next.isLineEnd = true := by
  obtain ⟨hline, hend⟩ := hderived.first_kind []
  rw [List.append_nil] at hline hend
  cases hterminals : block.terminals with
  | nil =>
    rw [hterminals] at hend
    exact absurd rfl hend
  | cons next more =>
    rw [hterminals] at hline
    exact ⟨next, more, rfl, Terminal.not_isLineEnd hline⟩

/-- The statements of a program in another layout. -/
theorem Block.exists_relaid {block : Block} (hderived : block.Derived)
    (hsame : squeezed Terminal.isLineEnd block.terminals = squeezed Terminal.isLineEnd other) :
    ∃ block' : Block, block'.Derived ∧ block'.terminals = other ∧ block'.bare = block.bare := by
  induction block generalizing other with
  | last statement behind =>
    obtain ⟨statement', rest', hbare, rfl, hrest⟩ := Statement.exists_relaid hderived hsame
    obtain ⟨count, rfl⟩ := exists_eq_lineEnds_of_squeezed hrest
    refine ⟨.last statement' count, ?_, rfl, congrArg (fun statement => [statement]) hbare⟩
    rw [Derived, ← statement'.derived_bare, hbare, statement.derived_bare]
    exact hderived
  | more statement further rest ih =>
    obtain ⟨hstatement, hadjacent, hblock⟩ := hderived
    obtain ⟨statement', other, hbare, rfl, hbehind⟩ := Statement.exists_relaid hstatement hsame
    obtain ⟨next, more, hnext, hline⟩ := hblock.exists_cons
    rw [hnext] at hbehind
    obtain ⟨count, other, rfl, hcount, hrest⟩ := exists_lineEnds_of_squeezed hline hbehind
    rw [← hnext] at hrest
    obtain ⟨further', rfl⟩ := Nat.exists_eq_succ_of_ne_zero fun hzero => absurd (hcount.1 hzero)
      (Nat.succ_ne_zero further)
    obtain ⟨rest', hderived', rfl, hrestBare⟩ := ih hblock hrest
    refine ⟨.more statement' further' rest', ⟨?_, fun hstrategy => ?_, hderived'⟩, rfl, ?_⟩
    · rwa [← statement'.derived_bare, hbare, statement.derived_bare]
    · rw [← statement'.isStrategy_bare, hbare, statement.isStrategy_bare] at hstrategy
      have hhead : rest'.head.bare = rest.head.bare := by
        have hheads := congrArg List.head? hrestBare
        rw [rest'.head?_bare, rest.head?_bare] at hheads
        exact Option.some.inj hheads
      rw [← Statement.isRule_bare, hhead, Statement.isRule_bare]
      exact hadjacent hstrategy
    · exact congrArg₂ List.cons hbare hrestBare

end

/-- The terminal of a token with a kind and a text. -/
def spelledTerminal (entry : TokenKind × String) : Terminal :=
  (Token.mk entry.1 entry.2 .nowhere).terminal

/-- Whether a token is the end of a line is seen from its kind. -/
theorem isLineEnd_spelledTerminal (entry : TokenKind × String) :
    (spelledTerminal entry).isLineEnd = (entry.1 == .lineEnd) := by
  rcases entry with ⟨kind, text⟩
  by_cases hkind : kind = .lineEnd
  · subst hkind
    rfl
  · rw [beq_false_of_ne hkind]
    exact Bool.eq_false_iff.2 (Terminal.not_isLineEnd hkind)

/-- The content of a token list without its layout. -/
theorem squeezed_content (tokens : List Token) :
    squeezed Terminal.isLineEnd ((content tokens).dropWhile Terminal.isLineEnd) =
      (Token.withoutLayout tokens).map spelledTerminal := by
  have hcontent : content tokens =
      ((tokens.takeWhile (·.kind != .sourceEnd)).map Token.spelled).map spelledTerminal := by
    rw [content, List.map_map]
    rfl
  have hisEnd : Terminal.isLineEnd ∘ spelledTerminal = fun entry => entry.1 == .lineEnd :=
    funext isLineEnd_spelledTerminal
  rw [Token.withoutLayout, collapsed_trimmed, hcontent, List.dropWhile_map, hisEnd,
    squeezed_map spelledTerminal isLineEnd_spelledTerminal]

/-- A derivation in another layout. -/
theorem Outline.Derives.exists_relaid {tokens others : List Token} {outline : Outline}
    (hderives : outline.Derives tokens)
    (hsame : Token.withoutLayout tokens = Token.withoutLayout others) :
    ∃ outline' : Outline, outline'.Derives others ∧ outline'.block.bare = outline.block.bare := by
  obtain ⟨next, more, hnext, hline⟩ := hderives.derived.exists_cons
  have htokens : (content tokens).dropWhile Terminal.isLineEnd = outline.block.terminals := by
    rw [← hderives.terminals, Outline.terminals, hnext, dropWhile_lineEnds_append hline]
  have hsqueezed := congrArg (List.map spelledTerminal) hsame
  rw [← squeezed_content, ← squeezed_content, htokens] at hsqueezed
  obtain ⟨block, hderived, hblock, hbare⟩ := Block.exists_relaid hderives.derived hsqueezed
  obtain ⟨before, hbefore⟩ : ∃ before,
      (content others).takeWhile Terminal.isLineEnd = lineEnds before := by
    refine ⟨_, List.eq_replicate_iff.2 ⟨rfl, fun terminal hmem => ?_⟩⟩
    have hend : terminal.isLineEnd = true := List.mem_takeWhile_imp hmem
    exact eq_of_beq hend
  refine ⟨⟨before, block⟩, ⟨hderived, ?_⟩, hbare⟩
  rw [Outline.terminals, hblock, ← hbefore, List.takeWhile_append_dropWhile]

/-- What can be read can be read in another layout, as the same program and with as many warnings. -/
theorem exists_parse_relaid {limits : Limits} {tokens others : List Token} {parsed : Parsed}
    (htokens : OnlyLastEnds tokens) (hothers : OnlyLastEnds others)
    (hsame : Token.withoutLayout tokens = Token.withoutLayout others)
    (hparse : (parseTokensWithin limits tokens).result = .ok parsed) :
    ∃ parsed', (parseTokensWithin limits others).result = .ok parsed' ∧
      parsed'.program = parsed.program ∧ parsed'.warnings.length = parsed.warnings.length := by
  obtain ⟨outline, hderives, hfits, hprogram, hwarnings⟩ :=
    exists_fitting_outline_of_parse htokens hparse
  obtain ⟨outline', hderives', hbare⟩ := hderives.exists_relaid hsame
  rw [Block.fits_iff, ← hbare, ← Block.fits_iff] at hfits
  obtain ⟨parsed', hparse', hprogram', hwarnings'⟩ := hderives'.exists_parse hothers hfits
  refine ⟨parsed', hparse', ?_, ?_⟩
  · rw [hprogram', ← hprogram, Outline.program, Outline.program, Block.nodes_eq_map,
      Block.nodes_eq_map, hbare]
  · rw [hwarnings', hwarnings, Block.warned_eq_countP, Block.warned_eq_countP, hbare]

end Grammar

/-- Two readings come to the same: the same program with the same warnings, which may stand at other
    places, or a refusal. -/
def SameReading : Except ParseError Parsed → Except ParseError Parsed → Prop
  | .ok one, .ok other =>
    one.program = other.program ∧
      one.warnings.map Warning.message = other.warnings.map Warning.message
  | .error _, .error _ => True
  | _, _ => False

/-- Warnings differ in nothing but their places. -/
theorem map_message_eq {one other : List Warning} (hlength : one.length = other.length) :
    one.map Warning.message = other.map Warning.message := by
  have hmessage : Warning.message = Function.const _ (Warning.message ⟨.nowhere⟩) := rfl
  rw [hmessage, List.map_const, List.map_const, hlength]

/-- Token lists that differ in nothing but their layout are read alike. -/
theorem sameReading_of_withoutLayout_eq {tokens others : List Token}
    (htokens : OnlyLastEnds tokens) (hothers : OnlyLastEnds others)
    (hsame : Token.withoutLayout tokens = Token.withoutLayout others) :
    SameReading (parseTokens tokens).result (parseTokens others).result := by
  cases hone : (parseTokens tokens).result with
  | ok parsed =>
    obtain ⟨parsed', hother, hprogram, hlength⟩ :=
      Grammar.exists_parse_relaid htokens hothers hsame hone
    rw [parseTokens, hother]
    exact ⟨hprogram.symm, map_message_eq hlength.symm⟩
  | error e =>
    cases hother : (parseTokens others).result with
    | ok parsed =>
      obtain ⟨parsed', hagain, -⟩ := Grammar.exists_parse_relaid hothers htokens hsame.symm hother
      rw [parseTokens, hagain] at hone
      cases hone
    | error e' => trivial

/-- Layout carries no meaning. The tokens of a source, written with a blank between any two of them,
    are read again as the same kinds and texts, and sources whose tokens differ in nothing but the
    ends of empty lines are read as the same program with the same warnings, or are both refused. -/
theorem layout_carries_no_meaning :
    (∀ source tokens, tokenize source = .ok tokens →
      ∃ again, tokenize (Token.respaced tokens) = .ok again ∧
        again.map Token.spelled = tokens.map Token.spelled) ∧
    ∀ one other tokens others, tokenize one = .ok tokens → tokenize other = .ok others →
      Token.withoutLayout tokens = Token.withoutLayout others →
      SameReading (parse one).result (parse other).result := by
  refine ⟨fun source tokens => exists_tokenize_respaced, ?_⟩
  intro one other tokens others hone hother hsame
  have hreading := sameReading_of_withoutLayout_eq (onlyLastEnds_of_tokenize hone)
    (onlyLastEnds_of_tokenize hother) hsame
  rw [parse, hone, parse, hother]
  exact hreading

/-- Two lines with empty lines and a comment, and the same lines without. -/
theorem layout_carries_no_meaning_two_lines :
    ∃ tokens others, tokenize "a := b\n\n \nc // last\n" = .ok tokens ∧
      tokenize "\na:=b\nc" = .ok others ∧
      Token.withoutLayout tokens = Token.withoutLayout others ∧
      (∃ again, tokenize (Token.respaced tokens) = .ok again ∧
        again.map Token.spelled = tokens.map Token.spelled) ∧
      SameReading (parse "a := b\n\n \nc // last\n").result (parse "\na:=b\nc").result := by
  have hone : tokenize "a := b\n\n \nc // last\n" = .ok
      [⟨.identifier "a", "a", ⟨0, 1, 1⟩⟩, ⟨.mark .assign, ":=", ⟨2, 1, 3⟩⟩,
        ⟨.identifier "b", "b", ⟨5, 1, 6⟩⟩, ⟨.lineEnd, "\n", ⟨6, 1, 7⟩⟩,
        ⟨.lineEnd, "\n", ⟨7, 2, 1⟩⟩, ⟨.lineEnd, "\n", ⟨9, 3, 2⟩⟩,
        ⟨.identifier "c", "c", ⟨10, 4, 1⟩⟩, ⟨.lineEnd, "\n", ⟨19, 4, 10⟩⟩,
        .sourceEnd ⟨20, 5, 1⟩] := by cbv
  have hother : tokenize "\na:=b\nc" = .ok
      [⟨.lineEnd, "\n", ⟨0, 1, 1⟩⟩, ⟨.identifier "a", "a", ⟨1, 2, 1⟩⟩,
        ⟨.mark .assign, ":=", ⟨2, 2, 2⟩⟩, ⟨.identifier "b", "b", ⟨4, 2, 4⟩⟩,
        ⟨.lineEnd, "\n", ⟨5, 2, 5⟩⟩, ⟨.identifier "c", "c", ⟨6, 3, 1⟩⟩,
        .sourceEnd ⟨7, 3, 2⟩] := by cbv
  exact ⟨_, _, hone, hother, by rfl, layout_carries_no_meaning.1 _ _ hone,
    layout_carries_no_meaning.2 _ _ _ _ hone hother (by rfl)⟩

end Candlewick
