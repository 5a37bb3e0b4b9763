import Candlewick.Proofs.Grammar.Completeness.Program
import Candlewick.Proofs.Grammar.Soundness.Program
import Candlewick.Proofs.Token.SourceEnd
import Candlewick.Source
import Mathlib

namespace Candlewick.Grammar

/-- The terminals of a token list up to the end of the source. -/
def content (tokens : List Token) : List Terminal :=
  (tokens.takeWhile (·.kind != .sourceEnd)).map Token.terminal

/-- An outline is a derivation of a token list. The end of the source is no part of it. -/
structure Outline.Derives (outline : Outline) (tokens : List Token) : Prop where
  derived : outline.block.Derived
  terminals : outline.terminals = content tokens

/-- In front of the end of the source all tokens count. -/
theorem takeWhile_of_forall {tokens : List Token}
    (htokens : ∀ token ∈ tokens, token.kind ≠ .sourceEnd) (rest : List Token) :
    (tokens ++ rest).takeWhile (·.kind != .sourceEnd) =
      tokens ++ rest.takeWhile (·.kind != .sourceEnd) := by
  apply List.takeWhile_append_of_pos
  intro token hmem
  simpa using htokens token hmem

theorem terminal_of_sourceEnd {token : Token} (hend : token.kind = .sourceEnd) :
    token.terminal = .plain .sourceEnd := by
  rw [Token.terminal, hend]
  rfl

/-- What is read of a token list is its content and one end. -/
theorem terminals_closed {tokens : List Token} (hlast : OnlyLastEnds tokens) :
    (closed tokens).map Token.terminal = content tokens ++ [.plain .sourceEnd] := by
  rcases tokens.eq_nil_or_concat with rfl | ⟨body, last, rfl⟩
  · rfl
  · have hbody : ∀ token ∈ body, token.kind ≠ .sourceEnd := by
      rw [List.concat_eq_append] at hlast
      simpa [OnlyLastEnds] using hlast
    rw [List.concat_eq_append, content, takeWhile_of_forall hbody, closed]
    simp only [List.getLast?_concat]
    split
    · rename_i hend
      rw [List.map_append, List.map_singleton, terminal_of_sourceEnd hend,
        List.takeWhile_cons_of_neg (by simp [hend]), List.append_nil]
    · rename_i hend
      rw [List.map_append, List.map_singleton, terminal_of_sourceEnd rfl,
        List.takeWhile_cons_of_pos (by simp [hend]), List.takeWhile_nil]

/-- The end of the source is no part of the content. -/
theorem content_ne_sourceEnd {tokens : List Token} {terminal : Terminal}
    (hmem : terminal ∈ content tokens) : terminal.kind ≠ .sourceEnd := by
  obtain ⟨token, htoken, rfl⟩ := List.mem_map.1 hmem
  have hall : (tokens.takeWhile (·.kind != .sourceEnd)).all (·.kind != .sourceEnd) = true :=
    List.all_takeWhile
  simpa using List.all_eq_true.1 hall token htoken

/-- Where the source ends is determined. -/
theorem append_sourceEnd_inj {front front' rest : List Terminal}
    (hfront : ∀ terminal ∈ front, terminal.kind ≠ .sourceEnd)
    (hfront' : ∀ terminal ∈ front', terminal.kind ≠ .sourceEnd)
    (hend : (first rest).kind = .sourceEnd)
    (heq : front ++ [.plain .sourceEnd] = front' ++ rest) : front = front' := by
  induction front generalizing front' with
  | nil =>
    cases front' with
    | nil => rfl
    | cons terminal' more' =>
      have hterminal' := hfront' terminal' List.mem_cons_self
      rw [← (List.cons.inj heq).1] at hterminal'
      exact absurd rfl hterminal'
  | cons terminal more ih =>
    cases front' with
    | nil =>
      have hrest : terminal :: (more ++ [.plain .sourceEnd]) = rest := heq
      rw [← hrest] at hend
      exact absurd hend (hfront terminal List.mem_cons_self)
    | cons terminal' more' =>
      obtain ⟨rfl, hmore⟩ := List.cons.inj heq
      rw [ih (List.forall_mem_cons.1 hfront).2 (List.forall_mem_cons.1 hfront').2 hmore]

/-- An outline that is found in a token list is a derivation of it. -/
theorem FoundOutline.derives {tokens : List Token} {later : State} {outline : Outline}
    (hlast : OnlyLastEnds tokens)
    (hfound : FoundOutline { tokens := closed tokens } later outline) :
    outline.Derives tokens := by
  refine ⟨hfound.derived, ?_⟩
  have hterminals := hfound.terminals
  rw [State.terminals, terminals_closed hlast] at hterminals
  exact (append_sourceEnd_inj (fun _ => content_ne_sourceEnd)
    (fun _ => Outline.ne_sourceEnd hfound.derived) hfound.finished hterminals).symm

/-- A program that is read is the tree of an outline that is found up to the end of the source. -/
theorem exists_foundOutline_of_parse {limits : Limits} {tokens : List Token} {parsed : Parsed}
    (hparse : (parseTokensWithin limits tokens).result = .ok parsed) :
    ∃ later outline, FoundOutline { tokens := closed tokens } later outline ∧
      outline.program = parsed.program ∧ parsed.warnings = later.warnings := by
  have hsound := program_sound limits { tokens := closed tokens }
  unfold Leads at hsound
  unfold parseTokensWithin at hparse
  cases hrun : Grammar.program limits { tokens := closed tokens } with
  | ok program later =>
    rw [hrun] at hsound hparse
    cases hparse
    obtain ⟨outline, hfound, hprogram⟩ := hsound
    exact ⟨later, outline, hfound, hprogram, rfl⟩
  | error e later =>
    rw [hrun] at hparse
    cases hparse

/-- A program that is read is the tree of a derivation, and comes with one warning for each of its
    conditionals without an `else` whose consequent is a conditional with one. -/
theorem exists_warned_outline_of_parse {limits : Limits} {tokens : List Token} {parsed : Parsed}
    (hlast : OnlyLastEnds tokens)
    (hparse : (parseTokensWithin limits tokens).result = .ok parsed) :
    ∃ outline : Outline, outline.Derives tokens ∧ outline.program = parsed.program ∧
      parsed.warnings.length = outline.block.warned := by
  obtain ⟨later, outline, hfound, hprogram, hwarnings⟩ := exists_foundOutline_of_parse hparse
  refine ⟨outline, hfound.derives hlast, hprogram, ?_⟩
  rw [hwarnings, hfound.warnings, List.length_nil, Nat.zero_add]

/-- What is parsed is derived by the grammar, and the tree is that of its derivation. -/
theorem exists_outline_of_parse {limits : Limits} {tokens : List Token} {parsed : Parsed}
    (hlast : OnlyLastEnds tokens)
    (hparse : (parseTokensWithin limits tokens).result = .ok parsed) :
    ∃ outline : Outline, outline.Derives tokens ∧ outline.program = parsed.program := by
  obtain ⟨outline, hderives, hprogram, -⟩ := exists_warned_outline_of_parse hlast hparse
  exact ⟨outline, hderives, hprogram⟩

/-- What the grammar derives is read as its tree, or refused because the bounds leave no room. -/
theorem Outline.Derives.parse (limits : Limits) {tokens : List Token} {outline : Outline}
    (hderives : outline.Derives tokens) (hlast : OnlyLastEnds tokens) :
    (outline.block.Fits limits ∧ ∃ warnings,
      (parseTokensWithin limits tokens).result = .ok ⟨outline.program, warnings⟩) ∨
    (¬ outline.block.Fits limits ∧ ∃ place,
      (parseTokensWithin limits tokens).result = .error ⟨.nestedTooDeeply, place⟩) := by
  have hterminals : ({ tokens := closed tokens } : State).terminals =
      outline.terminals ++ [.plain .sourceEnd] := by
    rw [State.terminals, terminals_closed hlast, hderives.terminals]
  have hleads : Leads (TooDeep (outline.block.Fits limits)) (Grammar.program limits)
      { tokens := closed tokens } fun program _ =>
        outline.program = program ∧ outline.block.Fits limits :=
    leads_program hderives.derived (fun h => h) rfl rfl hterminals fun _ _ hfits => ⟨rfl, hfits⟩
  unfold Leads at hleads
  unfold parseTokensWithin
  cases hrun : Grammar.program limits { tokens := closed tokens } with
  | ok program later =>
    rw [hrun] at hleads
    obtain ⟨rfl, hfits⟩ := hleads
    exact .inl ⟨hfits, later.warnings, rfl⟩
  | error e later =>
    rw [hrun] at hleads
    obtain ⟨hfault, hfits⟩ := hleads
    refine .inr ⟨hfits, e.place, ?_⟩
    rw [← hfault]

/-- A token list has at most one derivation. -/
theorem Outline.Derives.unique {tokens : List Token} {one other : Outline}
    (hone : one.Derives tokens) (hother : other.Derives tokens) : one = other := by
  have hterminals : one.terminals ++ [] = other.terminals ++ [] := by
    rw [hone.terminals, hother.terminals]
  exact (outline_unique hone.derived hother.derived rfl rfl hterminals).1

/-- A program that is read is the tree of a derivation for which the bounds leave room. -/
theorem exists_fitting_outline_of_parse {limits : Limits} {tokens : List Token} {parsed : Parsed}
    (hlast : OnlyLastEnds tokens)
    (hparse : (parseTokensWithin limits tokens).result = .ok parsed) :
    ∃ outline : Outline, outline.Derives tokens ∧ outline.block.Fits limits ∧
      outline.program = parsed.program ∧ parsed.warnings.length = outline.block.warned := by
  obtain ⟨outline, hderives, hprogram, hwarnings⟩ := exists_warned_outline_of_parse hlast hparse
  obtain ⟨hfits, -⟩ | ⟨-, place, hrefused⟩ := hderives.parse limits hlast
  · exact ⟨outline, hderives, hfits, hprogram, hwarnings⟩
  · rw [hparse] at hrefused
    cases hrefused

/-- A derivation for which the bounds leave room is read. -/
theorem Outline.Derives.exists_parse {limits : Limits} {tokens : List Token} {outline : Outline}
    (hderives : outline.Derives tokens) (hlast : OnlyLastEnds tokens)
    (hfits : outline.block.Fits limits) :
    ∃ parsed, (parseTokensWithin limits tokens).result = .ok parsed ∧
      parsed.program = outline.program ∧ parsed.warnings.length = outline.block.warned := by
  obtain ⟨-, warnings, hparse⟩ | ⟨hnoRoom, -⟩ := hderives.parse limits hlast
  · obtain ⟨again, hagain, -, hwarnings⟩ := exists_warned_outline_of_parse hlast hparse
    rw [hagain.unique hderives] at hwarnings
    exact ⟨_, hparse, rfl, hwarnings⟩
  · exact absurd hfits hnoRoom

end Grammar

open Grammar

/-- The parser accepts just the grammar: unless it refuses a front part of the tokens of a source
    for its depth, a program comes out if and only if the grammar derives the tokens. It is the tree
    of their derivation, and there is no other derivation. -/
theorem parseTokens_iff_derives {source : String} {tokens front : List Token}
    (hsource : tokenize source = .ok tokens) (hfront : front <+: tokens)
    (hdepth : ∀ place, (parseTokens front).result ≠ .error ⟨.nestedTooDeeply, place⟩) :
    (∀ program, (∃ warnings, (parseTokens front).result = .ok ⟨program, warnings⟩) ↔
      ∃ outline : Outline, outline.Derives front ∧ outline.program = program) ∧
    ∀ one other : Outline, one.Derives front → other.Derives front → one = other := by
  have hlast := (onlyLastEnds_of_tokenize hsource).of_isPrefix hfront
  refine ⟨fun program => ⟨?_, ?_⟩, fun one other hone hother => hone.unique hother⟩
  · rintro ⟨warnings, hparse⟩
    exact exists_outline_of_parse hlast hparse
  · rintro ⟨outline, hderives, rfl⟩
    obtain ⟨-, warnings, hparse⟩ | ⟨-, place, hparse⟩ := hderives.parse .standard hlast
    · exact ⟨warnings, hparse⟩
    · exact absurd hparse (hdepth place)

/-- The front `a ^ b` of a source of one line. -/
theorem parseTokens_iff_derives_power :
    ∃ tokens front, tokenize "a ^ b\n" = .ok tokens ∧ front <+: tokens ∧
      (∀ place, (parseTokens front).result ≠ .error ⟨.nestedTooDeeply, place⟩) ∧
      (∀ program, (∃ warnings, (parseTokens front).result = .ok ⟨program, warnings⟩) ↔
        ∃ outline : Outline, outline.Derives front ∧ outline.program = program) ∧
      ∀ one other : Outline, one.Derives front → other.Derives front → one = other := by
  have hsource : tokenize "a ^ b\n" = .ok
      ([⟨.identifier "a", "a", ⟨0, 1, 1⟩⟩, ⟨.mark .caret, "^", ⟨2, 1, 3⟩⟩,
        ⟨.identifier "b", "b", ⟨4, 1, 5⟩⟩] ++
        [⟨.lineEnd, "\n", ⟨5, 1, 6⟩⟩, .sourceEnd ⟨6, 2, 1⟩]) := by cbv
  have hparse : (parseTokens [⟨.identifier "a", "a", ⟨0, 1, 1⟩⟩, ⟨.mark .caret, "^", ⟨2, 1, 3⟩⟩,
      ⟨.identifier "b", "b", ⟨4, 1, 5⟩⟩]).result =
        .ok ⟨.expression (.binary .pow (.name "a") (.name "b")), []⟩ := by cbv
  have hdepth : ∀ place, (parseTokens [⟨.identifier "a", "a", ⟨0, 1, 1⟩⟩,
      ⟨.mark .caret, "^", ⟨2, 1, 3⟩⟩, ⟨.identifier "b", "b", ⟨4, 1, 5⟩⟩]).result ≠
        .error ⟨.nestedTooDeeply, place⟩ := by
    intro place hrefused
    rw [hparse] at hrefused
    cases hrefused
  have hfront := List.prefix_append [⟨.identifier "a", "a", ⟨0, 1, 1⟩⟩,
    ⟨.mark .caret, "^", ⟨2, 1, 3⟩⟩, ⟨.identifier "b", "b", ⟨4, 1, 5⟩⟩]
    [⟨.lineEnd, "\n", ⟨5, 1, 6⟩⟩, Token.sourceEnd ⟨6, 2, 1⟩]
  exact ⟨_, _, hsource, hfront, hdepth, parseTokens_iff_derives hsource hfront hdepth⟩

end Candlewick
