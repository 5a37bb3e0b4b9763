import Candlewick.Proofs.Grammar.DanglingElse.Moves
import Candlewick.Proofs.Grammar.Exactness

namespace Candlewick.Grammar

open Phrase

/-- Which `if` the `else` of each conditional in some rules belongs to: the positions of both among
    terminals, of which the rules begin at `start`. -/
def Rule.elsesOf (start : Nat) : List (Nat × Rule) → List (Nat × Nat)
  | [] => []
  | (count, rule) :: rest =>
    rule.condition.elses (start + count + 1) ++
      elsesOf (start + count + rule.terminals.length) rest

namespace Statement

/-- The same for a statement. -/
def elses : Statement → List (Nat × Nat)
  | strategy _ rules => Rule.elsesOf 4 rules
  | rule alone => alone.condition.elses 1
  | expression phrase => phrase.elses 0

/-- A statement is ambiguous in where an `else` belongs: its terminals can be derived as another tree,
    in which an `else` belongs to another `if`. -/
def Ambiguous (statement : Statement) : Prop :=
  ∃ other : Statement, (∀ part ∈ other.parts, Derives .expression part) ∧
    other.terminals = statement.terminals ∧ other.node ≠ statement.node ∧
    ElseDiffers other.elses statement.elses

/-- One `else` is moved within an expression of a statement. -/
inductive Moved : Statement → Statement → Prop where
  | strategy {title : String} {before after : List (Nat × Rule)} {count : Nat}
    {condition condition' : Phrase} {action : Action} (hmoved : Phrase.Moved condition condition') :
    Moved (.strategy title (before ++ (count, ⟨condition, action⟩) :: after))
      (.strategy title (before ++ (count, ⟨condition', action⟩) :: after))
  | rule {condition condition' : Phrase} {action : Action}
    (hmoved : Phrase.Moved condition condition') :
    Moved (.rule ⟨condition, action⟩) (.rule ⟨condition', action⟩)
  | expression {phrase phrase' : Phrase} (hmoved : Phrase.Moved phrase phrase') :
    Moved (.expression phrase) (.expression phrase')

variable {statement statement' : Statement}

/-- A statement keeps its terminals when an `else` is moved in it. -/
theorem Moved.terminals_eq (hmoved : Moved statement statement') :
    statement.terminals = statement'.terminals := by
  cases hmoved with
  | strategy hmoved => simp [terminals, Rule.listed, Rule.terminals, hmoved.terminals_eq]
  | rule hmoved => simp [terminals, Rule.terminals, hmoved.terminals_eq]
  | expression hmoved => exact hmoved.terminals_eq

/-- A statement changes its tree when an `else` is moved in it. -/
theorem Moved.node_ne (hmoved : Moved statement statement') : statement.node ≠ statement'.node := by
  have hrule : ∀ {condition condition' : Phrase} (action : Action),
      Phrase.Moved condition condition' →
      (Rule.mk condition action).node ≠ (Rule.mk condition' action).node := by
    intro condition condition' action hmoved
    cases action <;> simp [Rule.node, Action.node, hmoved.node_ne]
  cases hmoved with
  | @strategy _ _ _ _ _ _ action hmoved => simp [node, hrule action hmoved]
  | @rule _ _ action hmoved => exact hrule action hmoved
  | expression hmoved => exact hmoved.node_ne

/-- A difference within the condition of one rule is a difference in the rules. -/
theorem elseDiffers_elsesOf {condition condition' : Phrase} {action : Action} {count : Nat}
    (hmoved : Phrase.Moved condition condition') (before after : List (Nat × Rule)) (start : Nat) :
    ElseDiffers (Rule.elsesOf start (before ++ (count, ⟨condition, action⟩) :: after))
      (Rule.elsesOf start (before ++ (count, ⟨condition', action⟩) :: after)) := by
  induction before generalizing start with
  | nil =>
    exact (hmoved.elseDiffers _).mono (List.subset_append_left _ _) (List.subset_append_left _ _)
  | cons first before ih =>
    exact (ih _).mono (List.subset_append_right _ _) (List.subset_append_right _ _)

/-- Where an `else` has been moved it belongs to another `if`. -/
theorem Moved.elseDiffers (hmoved : Moved statement statement') :
    ElseDiffers statement.elses statement'.elses := by
  cases hmoved with
  | strategy hmoved => exact elseDiffers_elsesOf hmoved _ _ _
  | rule hmoved => exact hmoved.elseDiffers _
  | expression hmoved => exact hmoved.elseDiffers _

/-- What is moved is one of the parts. -/
theorem Moved.exists_part (hmoved : Moved statement statement') :
    ∃ before part part' after, statement.parts = before ++ part :: after ∧
      statement'.parts = before ++ part' :: after ∧ Phrase.Moved part part' := by
  cases hmoved with
  | strategy hmoved =>
    exact ⟨_, _, _, _, by simp only [parts, List.map_append, List.map_cons]; rfl,
      by simp only [parts, List.map_append, List.map_cons], hmoved⟩
  | rule hmoved | expression hmoved => exact ⟨[], _, _, [], rfl, rfl, hmoved⟩

/-- Any part can be moved. -/
theorem exists_moved_of_part {part : Phrase} (hpart : part ∈ statement.parts) :
    ∃ before after, statement.parts = before ++ part :: after ∧
      ∀ part', ∃ other : Statement, other.parts = before ++ part' :: after ∧
        (Phrase.Moved part part' → Moved statement other) ∧
        (Phrase.Moved part' part → Moved other statement) := by
  cases statement with
  | strategy title rules =>
    obtain ⟨⟨count, condition, action⟩, hmem, rfl⟩ := List.mem_map.1 hpart
    obtain ⟨before, after, rfl⟩ := List.append_of_mem hmem
    refine ⟨before.map fun entry => entry.2.condition, after.map fun entry => entry.2.condition,
      by simp [parts], fun part' => ?_⟩
    exact ⟨.strategy title (before ++ (count, ⟨part', action⟩) :: after), by simp [parts],
      .strategy, .strategy⟩
  | rule alone =>
    obtain ⟨condition, action⟩ := alone
    obtain rfl := List.mem_singleton.1 hpart
    exact ⟨[], [], rfl, fun part' => ⟨.rule ⟨part', action⟩, rfl, .rule, .rule⟩⟩
  | expression phrase =>
    obtain rfl := List.mem_singleton.1 hpart
    exact ⟨[], [], rfl, fun part' => ⟨.expression part', rfl, .expression, .expression⟩⟩

/-- Where an `else` is not at the nearest `if`, it can be moved to a nearer one. -/
theorem exists_moved (hderives : ∀ part ∈ statement.parts, Derives .expression part)
    (hfar : ¬ statement.Derived) :
    ∃ other : Statement, Moved statement other ∧
      ∀ part ∈ other.parts, Derives .expression part := by
  simp only [Derived, not_forall] at hfar
  obtain ⟨part, hmem, hpart⟩ := hfar
  have helse : ¬ part.ElseNearest := fun helse => hpart ⟨hderives part hmem, helse⟩
  obtain ⟨part', hmoved, hpart'⟩ := (hderives part hmem).exists_moved helse
  obtain ⟨before, after, hparts, hother⟩ := exists_moved_of_part hmem
  obtain ⟨other, hotherParts, hto, -⟩ := hother part'
  rw [hparts] at hderives
  exact ⟨other, hto hmoved, hotherParts ▸ Derives.replaced hderives hpart'⟩

/-- Where a consequent could spare an `else`, this one can have been moved there. -/
theorem exists_moved_to (hderived : statement.Derived)
    (hspares : ∃ consequent ∈ statement.consequents, consequent.sparesElse = true) :
    ∃ other : Statement, Moved other statement ∧
      ∀ part ∈ other.parts, Derives .expression part := by
  obtain ⟨consequent, hconsequent, hspares⟩ := hspares
  obtain ⟨part, hmem, hconsequent⟩ := mem_consequentsOf.1 hconsequent
  have hderives : ∀ part ∈ statement.parts, Derives .expression part :=
    fun part hmem => (hderived part hmem).derives
  obtain ⟨part', hmoved, hpart'⟩ :=
    (hderives part hmem).exists_moved_to ⟨consequent, hconsequent, hspares⟩
  obtain ⟨before, after, hparts, hother⟩ := exists_moved_of_part hmem
  obtain ⟨other, hotherParts, -, hfrom⟩ := hother part'
  rw [hparts] at hderives
  exact ⟨other, hfrom hmoved, hotherParts ▸ Derives.replaced hderives hpart'⟩

/-- Before the move the consequent ends with an `else` that it could spare. -/
theorem Moved.exists_sparesElse (hmoved : Moved statement statement') :
    ∃ consequent ∈ statement'.consequents, consequent.sparesElse = true := by
  obtain ⟨before, part, part', after, -, hparts', hmoved⟩ := hmoved.exists_part
  obtain ⟨consequent, hmem, hspares⟩ := hmoved.exists_sparesElse
  have hpart' : part' ∈ statement'.parts := by
    rw [hparts']
    exact List.mem_append_right _ List.mem_cons_self
  exact ⟨consequent, mem_consequentsOf.2 ⟨part', hpart', hmem⟩, hspares⟩

/-- Every move shortens the way from a `then` to its `else`, so moving comes to an end. -/
theorem Moved.spanned_lt (hmoved : Moved statement statement') :
    spannedOf statement'.parts < spannedOf statement.parts := by
  obtain ⟨before, part, part', after, hparts, hparts', hmoved⟩ := hmoved.exists_part
  have hpart := hmoved.spanned_lt
  rw [hparts, hparts', spannedOf_append, spannedOf_append, spannedOf, spannedOf]
  omega

/-- The only derivation of a statement with every `else` at the nearest `if`. -/
theorem Derived.eq_of_terminals_eq {other : Statement} (hderived : statement.Derived)
    (hother : other.Derived) (hterminals : other.terminals = statement.terminals) :
    other = statement := by
  have hend : EndsLine [] := .inr rfl
  have hnoMore : NoRuleNext [] := noRuleNext_of_end 0 rfl
  exact (statement_unique hother hderived hend hend (fun _ => hnoMore) (fun _ => hnoMore)
    (congrArg (· ++ []) hterminals)).1

/-- From any other derivation moves lead to the one with every `else` at the nearest `if`. -/
theorem Derived.exists_last_move {other : Statement} (hderived : statement.Derived)
    (hother : ∀ part ∈ other.parts, Derives .expression part)
    (hterminals : other.terminals = statement.terminals) (hne : other ≠ statement) :
    ∃ last : Statement, Moved last statement := by
  -- Each move brings an `else` nearer to its `if`, so the moves come to an end.
  induction hspan : spannedOf other.parts using Nat.strongRecOn generalizing other with
  | ind span ih =>
    have hfar : ¬ other.Derived :=
      fun hnearest => hne (hderived.eq_of_terminals_eq hnearest hterminals)
    obtain ⟨next, hmoved, hnext⟩ := exists_moved hother hfar
    by_cases hlast : next = statement
    · exact ⟨other, hlast ▸ hmoved⟩
    · have hlt := hmoved.spanned_lt
      rw [hspan] at hlt
      exact ih _ hlt hnext (hmoved.terminals_eq.symm.trans hterminals) hlast rfl

/-- A statement is ambiguous if and only if a conditional of it has no `else` and a consequent that
    could spare one. -/
theorem Derived.ambiguous_iff_sparesElse (hderived : statement.Derived) :
    statement.Ambiguous ↔
      ∃ consequent ∈ statement.consequents, consequent.sparesElse = true := by
  constructor
  · rintro ⟨other, hother, hterminals, hnode, -⟩
    have hne : other ≠ statement := fun heq => hnode (congrArg node heq)
    obtain ⟨last, hmoved⟩ := hderived.exists_last_move hother hterminals hne
    exact hmoved.exists_sparesElse
  · intro hspares
    obtain ⟨other, hmoved, hother⟩ := exists_moved_to hderived hspares
    exact ⟨other, hother, hmoved.terminals_eq, hmoved.node_ne, hmoved.elseDiffers⟩

end Statement

/-- A consequent that could spare an `else` has it itself, or behind an assignment. -/
theorem Phrase.sparesElse_iff {phrase : Phrase} :
    phrase.sparesElse = true ↔
      phrase.hasElse = true ∨
        ∃ target value, phrase = .assign target value ∧ value.sparesElse = true := by
  cases phrase <;> simp [sparesElse, hasElse]

/-- The statements of a derived block are derived. -/
theorem Block.Derived.statements {block : Block} (hderived : block.Derived) :
    ∀ statement ∈ block.statements, statement.Derived := by
  induction block with
  | last statement => exact List.forall_mem_singleton.2 hderived
  | more statement _ rest ih => exact List.forall_mem_cons.2 ⟨hderived.1, ih hderived.2.2⟩

/-- There is a warning if and only if a consequent has the `else` itself. -/
theorem Block.warned_ne_zero_iff {block : Block} :
    block.warned ≠ 0 ↔ ∃ statement ∈ block.statements, ∃ consequent ∈ statement.consequents,
      consequent.hasElse = true := by
  rw [Block.warned, ← Nat.pos_iff_ne_zero, List.countP_pos_iff]
  constructor
  · rintro ⟨consequent, hmem, helse⟩
    obtain ⟨statement, hstatement, hconsequent⟩ := List.mem_flatMap.1 hmem
    exact ⟨statement, hstatement, consequent, hconsequent, helse⟩
  · rintro ⟨statement, hstatement, consequent, hconsequent, helse⟩
    exact ⟨consequent, List.mem_flatMap.2 ⟨statement, hstatement, hconsequent⟩, helse⟩

/-- A statement of a block is ambiguous if and only if the block is warned about, or a consequent in
    it could spare an `else` behind an assignment. -/
theorem Block.Derived.ambiguous_iff {block : Block} (hderived : block.Derived) :
    (∃ statement ∈ block.statements, statement.Ambiguous) ↔
      block.warned ≠ 0 ∨ ∃ statement ∈ block.statements,
        ∃ target value, Phrase.assign target value ∈ statement.consequents ∧
          value.sparesElse = true := by
  rw [Block.warned_ne_zero_iff]
  constructor
  · rintro ⟨statement, hmem, hambiguous⟩
    obtain ⟨consequent, hconsequent, hspares⟩ :=
      (hderived.statements statement hmem).ambiguous_iff_sparesElse.1 hambiguous
    rcases Phrase.sparesElse_iff.1 hspares with helse | ⟨target, value, rfl, hvalue⟩
    · exact .inl ⟨statement, hmem, consequent, hconsequent, helse⟩
    · exact .inr ⟨statement, hmem, target, value, hconsequent, hvalue⟩
  · have hambiguous : ∀ statement ∈ block.statements, ∀ consequent ∈ statement.consequents,
        consequent.sparesElse = true → ∃ statement ∈ block.statements, statement.Ambiguous :=
      fun statement hmem consequent hconsequent hspares => ⟨statement, hmem,
        (hderived.statements statement hmem).ambiguous_iff_sparesElse.2
          ⟨consequent, hconsequent, hspares⟩⟩
    rintro (⟨statement, hmem, consequent, hconsequent, helse⟩ |
      ⟨statement, hmem, target, value, hconsequent, hvalue⟩)
    · exact hambiguous statement hmem consequent hconsequent (Phrase.sparesElse_iff.2 (.inl helse))
    · exact hambiguous statement hmem _ hconsequent hvalue

end Candlewick.Grammar

namespace Candlewick

open Grammar

/-- In a source that is read, a statement is ambiguous in where an `else` belongs if and only if there
    is a warning, or a conditional without an `else` has an assignment for its consequent that could
    spare one. For such an assignment no warning is given. -/
theorem ambiguous_iff_warned {source : String} {parsed : Parsed}
    (hparse : (parse source).result = .ok parsed) :
    ∃ tokens outline, tokenize source = .ok tokens ∧ Outline.Derives outline tokens ∧
      outline.program = parsed.program ∧
      ((∃ statement ∈ outline.block.statements, statement.Ambiguous) ↔
        parsed.warnings ≠ [] ∨ ∃ statement ∈ outline.block.statements,
          ∃ target value, Phrase.assign target value ∈ statement.consequents ∧
            value.sparesElse = true) := by
  cases hsource : tokenize source with
  | error e =>
    rw [parse, hsource] at hparse
    cases hparse
  | ok tokens =>
    rw [parse, hsource] at hparse
    obtain ⟨outline, hderives, hprogram, hcount⟩ :=
      exists_warned_outline_of_parse (onlyLastEnds_of_tokenize hsource) hparse
    refine ⟨tokens, outline, rfl, hderives, hprogram, ?_⟩
    rw [hderives.derived.ambiguous_iff, ← hcount, Ne, List.length_eq_zero_iff]

/-- A conditional directly within a conditional. -/
theorem ambiguous_iff_warned_nested :
    ∃ parsed, (parse "if a then if b then c else d").result = .ok parsed ∧
      parsed.warnings ≠ [] ∧ ∃ tokens outline,
        tokenize "if a then if b then c else d" = .ok tokens ∧ Outline.Derives outline tokens ∧
        outline.program = parsed.program ∧
        ∃ statement ∈ outline.block.statements, statement.Ambiguous := by
  have hparse : (parse "if a then if b then c else d").result =
      .ok ⟨.expression (.ifThen (.name "a") (.ifThenElse (.name "b") (.name "c") (.name "d"))),
        [⟨⟨28, 1, 29⟩⟩]⟩ := by cbv
  obtain ⟨tokens, outline, hsource, hderives, hprogram, hiff⟩ := ambiguous_iff_warned hparse
  have hwarned := List.cons_ne_nil (Warning.mk ⟨28, 1, 29⟩) []
  exact ⟨_, hparse, hwarned, tokens, outline, hsource, hderives, hprogram, hiff.2 (.inl hwarned)⟩

/-- An assignment between the two conditionals: its `else` could belong to either, and there is no
    warning. -/
theorem ambiguous_without_warning :
    ∃ parsed tokens outline, (parse "if a then x := if b then c else d").result = .ok parsed ∧
      parsed.warnings = [] ∧ tokenize "if a then x := if b then c else d" = .ok tokens ∧
      Outline.Derives outline tokens ∧ outline.program = parsed.program ∧
      ∃ statement ∈ outline.block.statements, statement.Ambiguous := by
  have hparse : (parse "if a then x := if b then c else d").result =
      .ok ⟨.expression (.ifThen (.name "a")
        (.assign "x" (.ifThenElse (.name "b") (.name "c") (.name "d")))), []⟩ := by cbv
  have hsource : tokenize "if a then x := if b then c else d" = .ok
      [⟨.keyword .ifWord, "if", ⟨0, 1, 1⟩⟩, ⟨.identifier "a", "a", ⟨3, 1, 4⟩⟩,
        ⟨.keyword .thenWord, "then", ⟨5, 1, 6⟩⟩, ⟨.identifier "x", "x", ⟨10, 1, 11⟩⟩,
        ⟨.mark .assign, ":=", ⟨12, 1, 13⟩⟩, ⟨.keyword .ifWord, "if", ⟨15, 1, 16⟩⟩,
        ⟨.identifier "b", "b", ⟨18, 1, 19⟩⟩, ⟨.keyword .thenWord, "then", ⟨20, 1, 21⟩⟩,
        ⟨.identifier "c", "c", ⟨25, 1, 26⟩⟩, ⟨.keyword .elseWord, "else", ⟨27, 1, 28⟩⟩,
        ⟨.identifier "d", "d", ⟨32, 1, 33⟩⟩, .sourceEnd ⟨33, 1, 34⟩] := by decide +kernel
  have hname := derives_name .expression
  let inner : Phrase := .ifThenElse (.name "b") (.name "c") (.name "d")
  let whole : Phrase := .ifThen (.name "a") (.assign "x" inner)
  have hinner : Derives .expression inner := .ifThenElse (hname "b") (hname "c") (hname "d")
  have hwhole : whole.IsExpression :=
    ⟨.ifThen (hname "a") (.assign hinner), by simp [whole, inner, Phrase.ElseNearest, Phrase.isOpen]⟩
  have hderived : (Block.last (.expression whole) 0).Derived :=
    fun part hmem => (List.mem_singleton.1 hmem).symm ▸ hwhole
  have hambiguous := hderived.ambiguous_iff.2
    (.inr ⟨.expression whole, List.mem_singleton.2 rfl, "x", inner,
      by simp [Statement.consequents, Statement.parts, Phrase.consequentsOf,
        Phrase.consequents, whole], rfl⟩)
  exact ⟨_, _, ⟨0, .last (.expression whole) 0⟩, hparse, rfl, hsource, ⟨hderived, rfl⟩, rfl,
    hambiguous⟩

end Candlewick
