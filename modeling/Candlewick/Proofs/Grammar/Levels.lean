import Candlewick.Proofs.Grammar.Announcing
import Candlewick.Proofs.Grammar.Readers

namespace Candlewick.Grammar

variable {α β : Type} {limits : Limits}

/-- What is kept in sequence holds of the readers of all categories. -/
theorem Compositional.reader {R : ∀ ⦃α : Type⦄, Reader α → Reader α → Prop}
    {tight loose : Limits} (hR : Compositional tight loose R) {deeper deeper' : Deeper}
    (hdeeper : deeper.Related R deeper') (category : Category) :
    R (category.reader tight deeper) (category.reader loose deeper') := by
  cases category with
  | expression => exact hR.expressionHere hdeeper
  | or | and | equality | comparison | sum | product => exact hR.chains hdeeper _
  | power => exact hR.power hdeeper
  | unary => exact hR.unary hdeeper
  | indexed => exact hR.indexed hdeeper
  | primary => exact hR.primary hdeeper

/-- The state in which a reading ends, on success and on error alike. -/
def stateBehind : EStateM.Result ParseError State α → State
  | .ok _ later => later
  | .error _ later => later

/-- A reader that comes back to the level on which it began. -/
def KeepsNesting (reader : Reader α) : Prop :=
  ∀ s, (stateBehind (reader s)).nesting = s.nesting

/-- A reader that only announces what it adds comes back to its level. -/
theorem Announces.keepsNesting {reader : Reader α} (hreader : Announces reader) :
    KeepsNesting reader := by
  intro s
  have htogether := hreader s s rfl rfl
  generalize reader s = result at htogether
  cases htogether with
  | ok _ hadds => exact hadds.nesting
  | error _ hadds => exact hadds.nesting

/-- In sequence, readers that come back to their levels do so together. -/
theorem KeepsNesting.bind {reader : Reader β} {next : β → Reader α} (hreader : KeepsNesting reader)
    (hnext : ∀ value, KeepsNesting (next value)) : KeepsNesting (reader >>= next) := by
  intro s
  have hfirst := hreader s
  simp only [Bind.bind, EStateM.bind]
  cases hrun : reader s with
  | ok value later =>
    rw [hrun] at hfirst
    exact (hnext value later).trans hfirst
  | error e later =>
    rw [hrun] at hfirst
    exact hfirst

/-- Two readers do the same from a level on, and come back to the level on which they began. -/
structure Agree (level : Nat) ⦃α : Type⦄ (one other : Reader α) : Prop where
  eq : ∀ s, level ≤ s.nesting → one s = other s
  keeps : KeepsNesting other

namespace Agree

variable {level : Nat} {one other : Reader α}

theorem compositional (limits : Limits) (level : Nat) :
    Compositional limits limits (Agree level) := by
  refine .ofSteps (fun hreader => ⟨fun _ _ => rfl, (Announces.step hreader).keepsNesting⟩)
    fun {_ _ one other next next'} hreader hnext =>
      ⟨fun s hlevel => ?_, hreader.keeps.bind fun value => (hnext value).keeps⟩
  -- The first reader comes back to its level, so the rest begins on it as well.
  have hback := hreader.keeps s
  simp only [Bind.bind, EStateM.bind, hreader.eq s hlevel]
  cases hrun : other s with
  | error e later => rfl
  | ok value later =>
    rw [hrun] at hback
    change later.nesting = s.nesting at hback
    exact (hnext value).eq later (hback ▸ hlevel)

/-- One level further out, readers agree also if they agree below the bound only. -/
theorem nested (hkeeps : KeepsNesting (nested limits other))
    (hagree : level < limits.nesting → Agree (level + 1) one other) :
    Agree level (nested limits one) (Grammar.nested limits other) := by
  refine ⟨fun s hlevel => ?_, hkeeps⟩
  unfold Grammar.nested
  split
  · rfl
  · rename_i hbound
    have hnext := (hagree (by omega)).eq { s with nesting := s.nesting + 1 }
      (Nat.succ_le_succ hlevel)
    rw [hnext]

end Agree

/-- A reader with an alarm that goes off where the nesting is beyond the bound. -/
def guarded (limits : Limits) (alarm reader : Reader α) : Reader α := fun s =>
  if limits.nesting < s.nesting then alarm s else reader s

/-- The readers with a number of nesting levels left, and with an alarm for what must not happen:
    that a reader is called with the nesting beyond the bound, or without any level left. -/
def guardedLevels (limits : Limits) (alarm : Reader Node) : Nat → Deeper
  | 0 => ⟨alarm, alarm, alarm⟩
  | left + 1 =>
    let deeper := guardedLevels limits alarm left
    { expression := nested limits (guarded limits alarm (expressionHere limits deeper))
      power := nested limits (guarded limits alarm (power limits deeper))
      unary := nested limits (guarded limits alarm (unary limits deeper)) }

/-- The bound is checked before the nesting is raised, so the alarm does not go off. -/
theorem nested_guarded (alarm reader : Reader α) :
    nested limits (guarded limits alarm reader) = nested limits reader := by
  funext s
  unfold nested
  split
  · rfl
  · rename_i hbound
    have hwithin : ¬ limits.nesting < s.nesting + 1 := by omega
    rw [guarded, if_neg hwithin]

theorem guardedLevels_succ (alarm : Reader Node) (left : Nat) :
    guardedLevels limits alarm (left + 1) =
      { expression := nested limits (expressionHere limits (guardedLevels limits alarm left))
        power := nested limits (power limits (guardedLevels limits alarm left))
        unary := nested limits (unary limits (guardedLevels limits alarm left)) } := by
  simp only [guardedLevels, nested_guarded]

/-- The readers are those with the alarm that they have: without levels left they refuse, as they do
    where the nesting is too deep. -/
theorem levels_eq_guardedLevels (left : Nat) :
    levels limits left = guardedLevels limits (refuse .nestedTooDeeply) left := by
  induction left with
  | zero => rfl
  | succ left ih => rw [guardedLevels_succ, ← ih, levels]

/-- From a level on the readers do the same, whatever the alarm, as long as there are levels left up
    to the bound. So they are the readers of a recursion without end, which the bound alone ends. -/
theorem guardedLevels_agree (alarm : Reader Node) {left left' level : Nat}
    (hleft : limits.nesting ≤ left + level) (hleft' : limits.nesting ≤ left' + level) :
    (guardedLevels limits alarm (left + 1)).Related (Agree level) (levels limits (left' + 1)) := by
  have hkeeps := @levels_announces limits (left' + 1)
  induction left generalizing left' level with
  | zero =>
    -- The bound refuses here, before a reader below the last level could be called.
    have hdeepest : ¬ level < limits.nesting := by omega
    rw [guardedLevels_succ]
    exact ⟨.nested hkeeps.expression.keepsNesting fun hbound => absurd hbound hdeepest,
      .nested hkeeps.power.keepsNesting fun hbound => absurd hbound hdeepest,
      .nested hkeeps.unary.keepsNesting fun hbound => absurd hbound hdeepest⟩
  | succ left ih =>
    have hdeeper : level < limits.nesting → (guardedLevels limits alarm (left + 1)).Related
        (Agree (level + 1)) (levels limits left') := by
      intro hbound
      obtain ⟨fewer, rfl⟩ : ∃ fewer, left' = fewer + 1 := ⟨left' - 1, by omega⟩
      exact ih (by omega) (by omega) (levels_announces _)
    have hagree := Agree.compositional limits (level + 1)
    rw [guardedLevels_succ]
    exact ⟨.nested hkeeps.expression.keepsNesting fun hbound =>
        hagree.expressionHere (hdeeper hbound),
      .nested hkeeps.power.keepsNesting fun hbound => hagree.power (hdeeper hbound),
      .nested hkeeps.unary.keepsNesting fun hbound => hagree.unary (hdeeper hbound)⟩

/-- Readers that do the same from the outermost level on are the same. -/
theorem Deeper.Related.eq {deeper other : Deeper} (hrelated : deeper.Related (Agree 0) other) :
    deeper = other := by
  rcases deeper with ⟨expression, power, unary⟩
  rcases other with ⟨expression', power', unary'⟩
  obtain rfl : expression = expression' :=
    funext fun s => hrelated.expression.eq s (Nat.zero_le _)
  obtain rfl : power = power' := funext fun s => hrelated.power.eq s (Nat.zero_le _)
  obtain rfl : unary = unary' := funext fun s => hrelated.unary.eq s (Nat.zero_le _)
  rfl

/-- No alarm ever goes off. -/
theorem guardedLevels_eq (alarm : Reader Node) :
    guardedLevels limits alarm (limits.nesting + 1) = levels limits (limits.nesting + 1) :=
  (guardedLevels_agree alarm (Nat.le_refl _) (Nat.le_refl _)).eq

/-- The readers call themselves: one more level makes no difference. -/
theorem levels_eq (limits : Limits) :
    levels limits (limits.nesting + 1) =
      { expression := nested limits (expressionHere limits (levels limits (limits.nesting + 1)))
        power := nested limits (power limits (levels limits (limits.nesting + 1)))
        unary := nested limits (unary limits (levels limits (limits.nesting + 1))) } := by
  have hmore : levels limits (limits.nesting + 2) = levels limits (limits.nesting + 1) := by
    rw [levels_eq_guardedLevels (limits.nesting + 2)]
    exact (guardedLevels_agree _ (by omega) (Nat.le_refl _)).eq
  exact hmore.symm

end Candlewick.Grammar
