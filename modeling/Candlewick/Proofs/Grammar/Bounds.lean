import Candlewick.Proofs.Grammar.Congruence
import Candlewick.Proofs.Grammar.Readers
import Candlewick.Source
import Mathlib

namespace Candlewick

namespace Grammar

variable {α β : Type}

/-- One reader comes to what another one comes to, or refuses the source for its depth. -/
def UpToDepth (tight loose : Reader α) : Prop :=
  ∀ s, (∃ place later, tight s = .error ⟨.nestedTooDeeply, place⟩ later) ∨ tight s = loose s

namespace UpToDepth

theorem refl (reader : Reader α) : UpToDepth reader reader :=
  fun _ => .inr rfl

/-- A refusal for the depth may stand against anything. -/
theorem of_refused (loose : Reader α) : UpToDepth (refuse .nestedTooDeeply) loose :=
  fun s => .inl ⟨s.ahead.place, s, rfl⟩

/-- In sequence, the first refusal for the depth decides. -/
theorem bind {tight loose : Reader β} {next next' : β → Reader α} (hfirst : UpToDepth tight loose)
    (hnext : ∀ value, UpToDepth (next value) (next' value)) :
    UpToDepth (tight >>= next) (loose >>= next') := by
  intro s
  simp only [Bind.bind, EStateM.bind]
  rcases hfirst s with ⟨place, later, hrefused⟩ | hsame
  · exact .inl ⟨place, later, by rw [hrefused]⟩
  · rw [hsame]
    cases loose s with
    | ok value later => exact hnext value later
    | error e later => exact .inr rfl

/-- A tree that is refused beyond a bound is refused beyond a tighter bound as well. -/
theorem bounded {bound bound' depth : Nat} (hbound : bound ≤ bound') {refused : Reader α}
    (hrefused : RefusesDepth refused) (reader : Reader α) :
    UpToDepth (if bound < depth then refused else reader)
      (if bound' < depth then refused else reader) := by
  intro s
  by_cases htight : bound < depth
  · rw [if_pos htight]
    cases hrefused with
    | here => exact .inl ⟨s.ahead.place, s, rfl⟩
    | elsewhere place => exact .inl ⟨place, s, rfl⟩
  · have hloose : ¬ bound' < depth := by omega
    rw [if_neg htight, if_neg hloose]
    exact .inr rfl

theorem compositional {tight loose : Limits} (hdepth : tight.depth ≤ loose.depth) :
    Compositional tight loose fun _ one other => UpToDepth one other where
  step _ := refl _
  bind := bind
  bounded value _ hrefused := bounded hdepth hrefused (Pure.pure value)

end UpToDepth

/-- The readers of one level come to what those of another one come to, or refuse the source for its
    depth. -/
structure Deeper.UpToDepth (tight loose : Deeper) : Prop where
  expression : Grammar.UpToDepth tight.expression loose.expression
  power : Grammar.UpToDepth tight.power loose.power
  unary : Grammar.UpToDepth tight.unary loose.unary

theorem Deeper.UpToDepth.related {deeper deeper' : Deeper} (hdeeper : deeper.UpToDepth deeper') :
    deeper.Related (fun _ one other => Grammar.UpToDepth one other) deeper' :=
  ⟨hdeeper.expression, hdeeper.power, hdeeper.unary⟩

section

variable {tight loose : Limits} (hnesting : tight.nesting ≤ loose.nesting)
include hnesting

/-- Tighter bounds let fewer levels through, and nothing else changes. -/
theorem nested_upToDepth {one other : Reader α} (hreader : UpToDepth one other) :
    UpToDepth (nested tight one) (nested loose other) := by
  intro s
  by_cases htight : tight.nesting ≤ s.nesting
  · exact .inl ⟨s.ahead.place, s, by rw [nested, if_pos htight]; rfl⟩
  · have hloose : ¬ loose.nesting ≤ s.nesting := by omega
    simp only [nested, if_neg htight, if_neg hloose]
    rcases hreader { s with nesting := s.nesting + 1 } with ⟨place, later, hrefused⟩ | hsame
    · exact .inl ⟨place, _, by rw [hrefused]⟩
    · exact .inr (by rw [hsame])

variable (hdepth : tight.depth ≤ loose.depth)
include hdepth

/-- Readers with more levels left, and with looser bounds, refuse less. -/
theorem levels_upToDepth {left left' : Nat} (hleft : left ≤ left') :
    (levels tight left).UpToDepth (levels loose left') := by
  have hsteps := UpToDepth.compositional hdepth
  induction left generalizing left' with
  | zero => exact ⟨.of_refused _, .of_refused _, .of_refused _⟩
  | succ left ih =>
    obtain ⟨left', rfl⟩ : ∃ more, left' = more + 1 := ⟨left' - 1, by omega⟩
    have hdeeper := (ih (Nat.le_of_succ_le_succ hleft)).related
    exact ⟨nested_upToDepth hnesting (hsteps.expressionHere hdeeper),
      nested_upToDepth hnesting (hsteps.power hdeeper),
      nested_upToDepth hnesting (hsteps.unary hdeeper)⟩

/-- Whole programs are read alike up to the depth. -/
theorem program_upToDepth : UpToDepth (program tight) (program loose) :=
  (UpToDepth.compositional hdepth).program (fun _ => .refl _)
    (levels_upToDepth hnesting hdepth (Nat.succ_le_succ hnesting)).expression

end

section

variable (limits : Limits) (s : State)

/-- No statement is accepted that is deeper than the bound. -/
theorem statement_depth_le :
    Leads (fun _ => True) (statement limits) s fun node _ => node.depth ≤ limits.depth := by
  simp only [statement, leads_bind, leads_peek, leads_ite, leads_throw, leads_pure]
  apply (leads_trivial _ s).mono fun _ h => h
  intro node later _
  split
  · trivial
  · omega

theorem statements_depth_le (alarm : ParseFault) (fuel : Nat) :
    Leads (fun _ => True) (statements alarm limits fuel) s fun nodes _ =>
      ∀ node ∈ nodes, node.depth ≤ limits.depth := by
  induction fuel generalizing s with
  | zero => trivial
  | succ fuel ih =>
    simp only [statements, leads_bind, leads_peekKind, leads_ite]
    split
    · simp
    · apply (statement_depth_le limits s).mono fun _ h => h
      intro node later hnode
      have hrest : ∀ s, Leads (fun _ => True) (statements alarm limits fuel) s fun nodes _ =>
          ∀ part ∈ node :: nodes, part.depth ≤ limits.depth :=
        fun s => (ih s).mono (fun _ h => h) fun _ _ hnodes => List.forall_mem_cons.2 ⟨hnode, hnodes⟩
      split
      · simp only [leads_bind, leads_skipLineEnds, leads_pure]
        exact hrest _
      · simp only [leads_bind, leads_pure]
        exact hrest _
      · trivial

/-- No program is accepted with a tree that is deeper than the bound. -/
theorem program_depth_le :
    Leads (fun _ => True) (program limits) s fun program _ =>
      ∀ node ∈ program.statements, node.depth ≤ limits.depth := by
  simp only [program, leads_bind, leads_skipLineEnds, leads_remaining]
  apply (statements_depth_le limits _ _ _).mono fun _ h => h
  intro nodes later hnodes
  split
  · trivial
  · rw [leads_pure, Program.statements_ofStatements]
    exact hnodes

end

/-- Under looser bounds a token list is read alike, unless the tighter ones refuse it for its
    depth. -/
theorem parseTokensWithin_upToDepth {tight loose : Limits}
    (hnesting : tight.nesting ≤ loose.nesting) (hdepth : tight.depth ≤ loose.depth)
    (tokens : List Token) :
    (∃ place, (parseTokensWithin tight tokens).result = .error ⟨.nestedTooDeeply, place⟩) ∨
      parseTokensWithin tight tokens = parseTokensWithin loose tokens := by
  rcases program_upToDepth hnesting hdepth { tokens := closed tokens } with
    ⟨place, later, hrefused⟩ | hsame
  · exact .inl ⟨place, by rw [parseTokensWithin, hrefused]⟩
  · exact .inr (by rw [parseTokensWithin, parseTokensWithin, hsame])

/-- What is parsed within a bound is no deeper than the bound. -/
theorem parseTokensWithin_depth_le {limits : Limits} {tokens : List Token} {parsed : Parsed}
    (hparse : (parseTokensWithin limits tokens).result = .ok parsed) :
    ∀ node ∈ parsed.program.statements, node.depth ≤ limits.depth := by
  have hshallow := program_depth_le limits { tokens := closed tokens }
  unfold Leads at hshallow
  unfold parseTokensWithin at hparse
  cases hrun : program limits { tokens := closed tokens } with
  | ok program later =>
    rw [hrun] at hshallow hparse
    cases hparse
    exact hshallow
  | error e later =>
    rw [hrun] at hparse
    cases hparse

end Grammar

open Grammar

/-- The bounds only ever refuse. A program that is read within some bounds is read within looser
    ones as the same program with the same warnings, and an error that is not about the depth is
    found again at its place. No statement of a program is deeper than the bound. -/
theorem bounds_only_refuse {tight loose : Limits} (hnesting : tight.nesting ≤ loose.nesting)
    (hdepth : tight.depth ≤ loose.depth) (tokens : List Token) :
    (∀ parsed, (parseTokensWithin tight tokens).result = .ok parsed →
      (parseTokensWithin loose tokens).result = .ok parsed ∧
        ∀ node ∈ parsed.program.statements, node.depth ≤ tight.depth) ∧
    ∀ e, (parseTokensWithin tight tokens).result = .error e →
      e.fault.message ≠ "expression nested too deeply" →
      (parseTokensWithin loose tokens).result = .error e := by
  rcases parseTokensWithin_upToDepth hnesting hdepth tokens with ⟨place, hrefused⟩ | hsame
  · rw [hrefused]
    refine ⟨fun parsed hparsed => ?_, fun e he hmessage => ?_⟩
    · cases hparsed
    · cases he
      exact absurd rfl hmessage
  · refine ⟨fun parsed hparsed => ⟨?_, parseTokensWithin_depth_le hparsed⟩, fun e he _ => ?_⟩
    · rw [← hsame, hparsed]
    · rw [← hsame, he]

/-- A sum whose tree has just the two levels that it may have, and a word behind it that is out of
    place. -/
theorem bounds_only_refuse_sum :
    let sum : List Token :=
      [⟨.identifier "a", "a", ⟨0, 1, 1⟩⟩, ⟨.mark .plus, "+", ⟨1, 1, 2⟩⟩,
        ⟨.identifier "b", "b", ⟨2, 1, 3⟩⟩]
    let word : Token := ⟨.keyword .thenWord, "then", ⟨4, 1, 5⟩⟩
    (parseTokensWithin ⟨1, 2⟩ sum).result =
        .ok ⟨.expression (.binary .add (.name "a") (.name "b")), []⟩ ∧
      (parseTokensWithin .standard sum).result =
        .ok ⟨.expression (.binary .add (.name "a") (.name "b")), []⟩ ∧
      (Node.binary .add (.name "a") (.name "b")).depth ≤ 2 ∧
      (parseTokensWithin ⟨1, 2⟩ (sum ++ [word])).result =
        .error ⟨.expected .lineEnd word, ⟨4, 1, 5⟩⟩ ∧
      (parseTokensWithin .standard (sum ++ [word])).result =
        .error ⟨.expected .lineEnd word, ⟨4, 1, 5⟩⟩ := by
  intro sum word
  have hsum : (parseTokensWithin ⟨1, 2⟩ sum).result =
      .ok ⟨.expression (.binary .add (.name "a") (.name "b")), []⟩ := by cbv
  have hword : (parseTokensWithin ⟨1, 2⟩ (sum ++ [word])).result =
      .error ⟨.expected .lineEnd word, ⟨4, 1, 5⟩⟩ := by cbv
  have hmessage : (ParseFault.expected .lineEnd word).message ≠ "expression nested too deeply" := by
    decide
  have hbounds := @bounds_only_refuse ⟨1, 2⟩ .standard (by decide) (by decide)
  obtain ⟨hagain, hshallow⟩ := (hbounds sum).1 _ hsum
  exact ⟨hsum, hagain, hshallow _ List.mem_cons_self, hword,
    (hbounds (sum ++ [word])).2 _ hword hmessage⟩

end Candlewick
