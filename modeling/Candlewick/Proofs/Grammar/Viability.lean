import Candlewick.Proofs.Grammar.Blame.Program
import Candlewick.Proofs.Grammar.Bounds
import Candlewick.Proofs.Grammar.Exactness
import Candlewick.Proofs.Token.Tiling
import Mathlib

namespace Candlewick

open Grammar

/-- Some tokens continue these ones to a program. -/
def Viable (front : List Token) : Prop :=
  ∃ (more : List Token) (limits : Limits) (parsed : Parsed),
    (parseTokensWithin limits (front ++ more)).result = .ok parsed

/-- A conditional runs on in the line of a strategy. It begins right behind the head of the strategy
    or the last of its rules, `head` ends with its `then`, and `part`, which follows, is no trading
    action but the beginning of an expression. -/
structure RunsOn (head part : List Token) : Prop where
  head : ∃ (outline : Outline) (condition : Phrase), outline.block.Derived ∧
    outline.block.EndsInStrategy ∧ condition.IsExpression ∧
    head.map Token.terminal = outline.terminals ++
      .word .ifWord :: (condition.terminals ++ [.word .thenWord])
  begins : Begins .expression (part.map Token.terminal)
  ne_nil : part ≠ []

namespace Grammar

/-- Looser bounds leave room for what tighter ones do. -/
theorem Statement.Fits.loosen {tight loose : Limits} {statement : Statement}
    (hfits : statement.Fits tight) (hnesting : tight.nesting ≤ loose.nesting)
    (hdepth : tight.depth ≤ loose.depth) : statement.Fits loose :=
  ⟨hfits.nesting.trans hnesting, hfits.height.trans hdepth⟩

theorem Block.Fits.loosen {tight loose : Limits} {block : Block} (hfits : block.Fits tight)
    (hnesting : tight.nesting ≤ loose.nesting) (hdepth : tight.depth ≤ loose.depth) :
    block.Fits loose := by
  induction block with
  | last => exact Statement.Fits.loosen hfits hnesting hdepth
  | more _ _ _ ih => exact ⟨hfits.1.loosen hnesting hdepth, ih hfits.2⟩

/-- Some bounds leave room for all statements of a block. -/
theorem Block.exists_fits (block : Block) : ∃ limits, block.Fits limits := by
  induction block with
  | last statement => exact ⟨⟨statement.nesting, statement.node.height⟩, Nat.le_refl _, Nat.le_refl _⟩
  | more statement further block ih =>
    obtain ⟨limits, hfits⟩ := ih
    refine ⟨⟨max statement.nesting limits.nesting, max statement.node.height limits.depth⟩,
      ⟨Nat.le_max_left _ _, Nat.le_max_left _ _⟩, ?_⟩
    exact hfits.loosen (Nat.le_max_right _ _) (Nat.le_max_right _ _)

/-- Tokens that stop within a program are viable. -/
theorem viable_of_outline {outline : Outline} (hderived : outline.block.Derived)
    {front back : List Token}
    (hterminals : outline.terminals = front.map Token.terminal ++ back.map Token.terminal) :
    Viable front := by
  have hbody : ∀ token ∈ front ++ back, token.kind ≠ .sourceEnd := by
    intro token hmem
    have hterminal : token.terminal ∈ outline.terminals := by
      rw [hterminals, ← List.map_append]
      exact List.mem_map_of_mem hmem
    exact Outline.ne_sourceEnd hderived hterminal
  have hderives : outline.Derives (front ++ (back ++ [Token.sourceEnd .nowhere])) := by
    refine ⟨hderived, ?_⟩
    rw [content, ← List.append_assoc, takeWhile_of_forall hbody, hterminals]
    simp [Token.sourceEnd]
  have hlast : OnlyLastEnds (front ++ (back ++ [Token.sourceEnd .nowhere])) := by
    rw [← List.append_assoc]
    exact .append hbody (by simp [OnlyLastEnds])
  obtain ⟨limits, hfits⟩ := outline.block.exists_fits
  obtain ⟨parsed, hparse, -⟩ := hderives.exists_parse hlast hfits
  exact ⟨_, limits, parsed, hparse⟩

/-- In the line of a strategy a rule can follow. -/
theorem Block.EndsInStrategy.exists_rule {block : Block} (hends : block.EndsInStrategy)
    (hderived : block.Derived) {rule : Rule} (hcondition : rule.condition.IsExpression) :
    ∃ longer : Block, longer.Derived ∧ longer.terminals = block.terminals ++ rule.terminals ∧
      longer.head.isRule = block.head.isRule := by
  induction block with
  | last statement behind =>
    obtain ⟨hstrategy, rfl⟩ := hends
    cases statement with
    | rule | expression => exact absurd hstrategy Bool.false_ne_true
    | strategy title rules =>
      refine ⟨.last (.strategy title (rules ++ [(0, rule)])) 0, ?_, ?_, rfl⟩
      · intro phrase hmem
        obtain ⟨entry, hentry, rfl⟩ := List.mem_map.1 hmem
        rcases List.mem_append.1 hentry with hentry | hentry
        · exact Statement.Derived.conditions hderived entry hentry
        · rwa [List.mem_singleton.1 hentry]
      · simp [Block.terminals, Statement.terminals, Rule.listed, lineEnds]
  | more statement further block ih =>
    obtain ⟨hstatement, hrule, hblock⟩ := hderived
    obtain ⟨longer, hlonger, hterminals, hhead⟩ := ih hends hblock
    refine ⟨.more statement further longer, ⟨hstatement, ?_, hlonger⟩, ?_, rfl⟩
    · rwa [hhead]
    · simp [Block.terminals, hterminals]

/-- In the line of a strategy nothing can follow that begins with `if` and is no rule. -/
theorem strategy_ne_terminals {title : String} {rules : List (Nat × Rule)}
    {behind after : List Terminal} {statement : Statement}
    (hconditions : ∀ entry ∈ rules, entry.2.condition.IsExpression)
    (hif : (first behind).kind = .keyword .ifWord) (hnone : NoRuleNext behind)
    (hderived : statement.Derived) (hline : EndsLine after)
    (hafter : statement.isStrategy = true → NoRuleNext after) :
    (Statement.strategy title rules).terminals ++ behind ≠ statement.terminals ++ after := by
  intro heq
  cases statement with
  | strategy title' rules' =>
    simp only [Statement.terminals, List.cons_append, List.cons.injEq, true_and] at heq
    obtain ⟨-, rfl⟩ := rules_unique hconditions hderived.conditions hnone (hafter rfl) heq.2
    rcases hline with hkind | hkind <;> rw [hif] at hkind <;> cases hkind
  | rule rule => cases (List.cons.inj heq).1
  | expression phrase => exact hderived.phrase.ne_strategy title rules after behind heq.symm

/-- A block that ends in a strategy, with a conditional behind it that is no rule, is no program:
    the conditional would have to stand on a line of its own. -/
theorem Block.EndsInStrategy.ne_terminals {block other : Block} {behind rest : List Terminal}
    (hends : block.EndsInStrategy) (hderived : block.Derived)
    (hif : (first behind).kind = .keyword .ifWord) (hnone : NoRuleNext behind)
    (hother : other.Derived) (hend : (first rest).kind = .sourceEnd) :
    block.terminals ++ behind ≠ other.terminals ++ rest := by
  have hline : (first rest).kind ≠ .lineEnd := by simp [hend]
  intro heq
  induction block generalizing other with
  | last statement count =>
    obtain ⟨hstrategy, rfl⟩ := hends
    cases statement with
    | rule | expression => exact absurd hstrategy Bool.false_ne_true
    | strategy title rules =>
      have hconditions := Statement.Derived.conditions hderived
      rw [Block.terminals, List.append_assoc] at heq
      cases other with
      | last statement' count' =>
        rw [Block.terminals, List.append_assoc] at heq
        exact strategy_ne_terminals hconditions hif hnone hother (endsLine_lineEnds count' hend)
          (fun _ => noRuleNext_of_end count' hend) heq
      | more statement' further' block' =>
        obtain ⟨hstatement', hrule', hblock'⟩ := hother
        rw [Block.terminals, List.append_assoc, List.append_assoc] at heq
        exact strategy_ne_terminals hconditions hif hnone hstatement' (.inl rfl)
          (fun hstrategy => hblock'.noRuleNext (hrule' hstrategy) _ _) heq
  | more statement further block ih =>
    obtain ⟨hstatement, hrule, hblock⟩ := hderived
    rw [Block.terminals, List.append_assoc, List.append_assoc] at heq
    cases other with
    | last statement' count' =>
      rw [Block.terminals, List.append_assoc] at heq
      obtain ⟨-, hbehind⟩ := statement_unique hstatement hother (.inl rfl)
        (endsLine_lineEnds count' hend) (fun hstrategy => hblock.noRuleNext (hrule hstrategy) _ _)
        (fun _ => noRuleNext_of_end count' hend) heq
      obtain ⟨-, hrest⟩ := lineEnds_append_inj (hblock.first_kind _).1 hline hbehind
      rw [← hrest] at hend
      exact absurd hend (hblock.first_kind _).2
    | more statement' further' block' =>
      obtain ⟨hstatement', hrule', hblock'⟩ := hother
      rw [Block.terminals, List.append_assoc, List.append_assoc] at heq
      obtain ⟨-, hbehind⟩ := statement_unique hstatement hstatement' (.inl rfl) (.inl rfl)
        (fun hstrategy => hblock.noRuleNext (hrule hstrategy) _ _)
        (fun hstrategy => hblock'.noRuleNext (hrule' hstrategy) _ _) heq
      obtain ⟨-, hblocks⟩ := lineEnds_append_inj (hblock.first_kind _).1 (hblock'.first_kind _).1
        hbehind
      exact ih hends hblock hblock' hblocks

/-- A phrase does not begin with a trading action. -/
theorem Begins.not_action {front : List Terminal} (hfront : Begins .expression front)
    (hne : front ≠ []) (rest : List Terminal) :
    (first (front ++ rest)).kind ≠ .keyword .buyWord ∧
      (first (front ++ rest)).kind ≠ .keyword .sellWord := by
  obtain ⟨phrase, back, hderives, -, hterminals⟩ := hfront
  obtain ⟨terminal, more, rfl⟩ := List.exists_cons_of_ne_nil hne
  have haction := hderives.not_action []
  rwa [hterminals] at haction

end Grammar

namespace RunsOn

variable {head part : List Token}

/-- Behind its `then` the conditional could still become a rule. -/
theorem viable (hruns : RunsOn head part) : Viable head := by
  obtain ⟨⟨before, block⟩, condition, hderived, hstrategy, hcondition, hhead⟩ := hruns.head
  obtain ⟨longer, hlonger, hterminals, -⟩ :=
    @Block.EndsInStrategy.exists_rule block hstrategy hderived ⟨condition, .buy⟩ hcondition
  refine @viable_of_outline ⟨before, longer⟩ hlonger head [closingWord .buyWord] ?_
  rw [hhead, Outline.terminals, hterminals]
  simp [Outline.terminals, Rule.terminals]

/-- What follows shows that it is no rule, and then no program goes on like this. -/
theorem not_viable (hruns : RunsOn head part) : ¬ Viable (head ++ part) := by
  rintro ⟨more, limits, parsed, hparse⟩
  obtain ⟨⟨before, block⟩, condition, hderived, hstrategy, hcondition, hhead⟩ := hruns.head
  obtain ⟨later, ⟨before', block'⟩, hfound, -, -⟩ := exists_foundOutline_of_parse hparse
  obtain ⟨rest, hrest⟩ := exists_closed_eq_append (head ++ part ++ more)
  rw [List.append_assoc _ more] at hrest
  have hpart : part.map Token.terminal ≠ [] := by simpa using hruns.ne_nil
  obtain ⟨hbuy, hsell⟩ := hruns.begins.not_action hpart ((more ++ rest).map Token.terminal)
  have hnone : NoRuleNext (lineEnds 0 ++ .word .ifWord :: (condition.terminals ++
      .word .thenWord :: (part.map Token.terminal ++ (more ++ rest).map Token.terminal))) :=
    noRuleNext_of_not_action 0 hcondition hbuy hsell
  have heq := hfound.terminals
  rw [State.terminals, hrest, List.map_append, List.map_append, hhead, Outline.terminals,
    Outline.terminals] at heq
  simp only [List.append_assoc, List.cons_append] at heq
  obtain ⟨-, hblocks⟩ := lineEnds_append_inj (hderived.first_kind _).1
    (hfound.derived.first_kind _).1 heq
  exact hstrategy.ne_terminals hderived rfl hnone hfound.derived hfound.finished hblocks

end RunsOn

/-- The beginning of a program is viable, or it ends with a conditional that runs on. -/
theorem viable_or_runsOn {front : List Token} (hfront : BeginsProgram (front.map Token.terminal)) :
    Viable front ∨ ∃ head part, front = head ++ part ∧ RunsOn head part := by
  obtain ⟨count, block, terminals, hderived, hreaches, hterminals⟩ := hfront
  cases hreaches with
  | within back hback =>
    refine .inl (@viable_of_outline ⟨count, block⟩ hderived front back ?_)
    rw [hterminals, Outline.terminals, hback, List.append_assoc]
  | @runOn condition part hstrategy hcondition hpart hne =>
    have hsplit : front.map Token.terminal = (lineEnds count ++ block.terminals ++
        .word .ifWord :: (condition.terminals ++ [.word .thenWord])) ++ part := by
      rw [hterminals]
      simp
    obtain ⟨head, behind, rfl, hhead, rfl⟩ := List.map_eq_append_iff.1 hsplit
    refine .inr ⟨head, behind, rfl, ⟨⟨count, block⟩, condition, hderived, hstrategy, hcondition,
      hhead⟩, hpart, ?_⟩
    rintro rfl
    exact hne rfl

/-- A source is refused at a token that viable tokens stand in front of, whatever the bounds are. Only
    in a conditional that runs on in the line of a strategy a later token is blamed: up to its `then`
    the tokens are viable, and with what follows they are not. -/
theorem errors_blame_first_misfit {source : String} {tokens : List Token}
    (hsource : tokenize source = .ok tokens) (limits : Limits) {e : ParseError}
    (hparse : (parseTokensWithin limits tokens).result = .error e) :
    ∃ k token, tokens[k]? = some token ∧ token.place = e.place ∧
      (∀ j other, tokens[j]? = some other → other.place = e.place → j = k) ∧
      (Viable (tokens.take k) ∨ ∃ head part, tokens.take k = head ++ part ∧ RunsOn head part ∧
        Viable head ∧ ¬ Viable (tokens.take k)) := by
  obtain ⟨hne, hend⟩ := last_of_tokenize hsource
  obtain ⟨front, token, later, rfl, hplace, hbegins⟩ :=
    exists_beginsProgram_of_parse_error hne hend hparse
  have htoken : (front ++ token :: later)[front.length]? = some token := by simp
  refine ⟨front.length, token, htoken, hplace.symm, fun j other hother hsame => ?_, ?_⟩
  · exact index_eq_of_place_eq hsource hother htoken (hsame.trans hplace)
  · rw [List.take_left]
    rcases viable_or_runsOn hbegins with hviable | ⟨head, part, rfl, hruns⟩
    · exact .inl hviable
    · exact .inr ⟨head, part, rfl, hruns, hruns.viable, hruns.not_viable⟩

/-- A sum without its second operand, in brackets behind `then`. -/
theorem errors_blame_first_misfit_bracket :
    ∃ tokens bracket, tokenize "if a then (b + )" = .ok tokens ∧
      (parseTokensWithin .standard tokens).result =
        .error ⟨.expected .expression bracket, bracket.place⟩ ∧
      ∃ k token, tokens[k]? = some token ∧ token.place = bracket.place ∧
        (∀ j other, tokens[j]? = some other → other.place = bracket.place → j = k) ∧
        (Viable (tokens.take k) ∨ ∃ head part, tokens.take k = head ++ part ∧ RunsOn head part ∧
          Viable head ∧ ¬ Viable (tokens.take k)) := by
  have hsource : tokenize "if a then (b + )" = .ok [⟨.keyword .ifWord, "if", ⟨0, 1, 1⟩⟩,
    ⟨.identifier "a", "a", ⟨3, 1, 4⟩⟩, ⟨.keyword .thenWord, "then", ⟨5, 1, 6⟩⟩,
    ⟨.punctuation .leftParen, "(", ⟨10, 1, 11⟩⟩, ⟨.identifier "b", "b", ⟨11, 1, 12⟩⟩,
    ⟨.mark .plus, "+", ⟨13, 1, 14⟩⟩, ⟨.punctuation .rightParen, ")", ⟨15, 1, 16⟩⟩,
    .sourceEnd ⟨16, 1, 17⟩] := by cbv
  have hparse : (parse "if a then (b + )").result = .error ⟨.expected .expression
    ⟨.punctuation .rightParen, ")", ⟨15, 1, 16⟩⟩, ⟨15, 1, 16⟩⟩ := by cbv
  rw [parse, hsource] at hparse
  exact ⟨_, _, hsource, hparse, errors_blame_first_misfit hsource .standard hparse⟩

/-- So it is not true that only viable tokens stand in front of the token that is blamed. A bracket
    opens in a conditional behind a strategy, and the end of the source is blamed for it, however
    loose the bounds are. -/
theorem run_on_blamed_late :
    ∃ tokens last, tokenize "strategy(\"s\") if a then (" = .ok tokens ∧
      tokens[8]? = some last ∧
      (∀ loose : Limits, Limits.standard.nesting ≤ loose.nesting →
        Limits.standard.depth ≤ loose.depth →
        (parseTokensWithin loose tokens).result = .error ⟨.unexpectedEnd, last.place⟩) ∧
      ¬ Viable (tokens.take 8) := by
  let head : List Token := [⟨.keyword .strategyWord, "strategy", ⟨0, 1, 1⟩⟩,
    ⟨.punctuation .leftParen, "(", ⟨8, 1, 9⟩⟩, ⟨.text "s", "\"s\"", ⟨9, 1, 10⟩⟩,
    ⟨.punctuation .rightParen, ")", ⟨12, 1, 13⟩⟩, ⟨.keyword .ifWord, "if", ⟨14, 1, 15⟩⟩,
    ⟨.identifier "a", "a", ⟨17, 1, 18⟩⟩, ⟨.keyword .thenWord, "then", ⟨19, 1, 20⟩⟩]
  let bracket : Token := ⟨.punctuation .leftParen, "(", ⟨24, 1, 25⟩⟩
  let last : Token := .sourceEnd ⟨25, 1, 26⟩
  have hsource : tokenize "strategy(\"s\") if a then (" = .ok (head ++ [bracket, last]) := by cbv
  have hparse : (parseTokensWithin .standard (head ++ [bracket, last])).result =
      .error ⟨.unexpectedEnd, last.place⟩ := by cbv
  have hruns : RunsOn head [bracket] := by
    refine ⟨⟨⟨0, .last (.strategy "s" []) 0⟩, .name "a", ?_, ⟨rfl, rfl⟩, ⟨?_, trivial⟩, rfl⟩,
      (Begins.nil .expression).group.loosen (by decide), List.cons_ne_nil _ _⟩
    · exact fun _ hmem => absurd hmem List.not_mem_nil
    · exact derives_name .expression "a"
  refine ⟨head ++ [bracket, last], last, hsource, rfl, fun loose hnesting hdepth => ?_,
    hruns.not_viable⟩
  rcases parseTokensWithin_upToDepth hnesting hdepth (head ++ [bracket, last]) with
    ⟨place, hrefused⟩ | hsame
  · cases hparse.symm.trans hrefused
  · rw [← hsame, hparse]

end Candlewick
