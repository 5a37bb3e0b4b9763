import Candlewick.Proofs.Evaluation.TwoRuns

namespace Candlewick

open Evaluation

/-- Alike evaluations that start in one and the same moment end in one and the same moment. -/
theorem Evaluation.Alike.outcome_eq {α : Type} {read assigned : String → Prop} {last : Nat}
    {one other : Evaluation α} (halike : Alike read assigned last one other) (start : Moment)
    (hlast : start.index ≤ last) : one.outcome start = other.outcome start := by
  obtain ⟨houtcome, hmoved⟩ := halike start start rfl hlast fun _ _ => rfl
  have hindex : (one.outcome start).2.index = (other.outcome start).2.index :=
    hmoved.index_first.trans hmoved.index_second.symm
  have hbindings : (one.outcome start).2.bindings = (other.outcome start).2.bindings := by
    apply Keyed.ext_get?
    intro name
    rcases hmoved.binding name with ⟨_, value, hone, hother⟩ | ⟨hone, hother⟩
    · rw [hone, hother]
    · rw [hone, hother]
  revert houtcome hindex hbindings
  rcases one.outcome start with ⟨result, bindings, index⟩
  rcases other.outcome start with ⟨result', bindings', index'⟩
  rintro rfl rfl rfl
  rfl

/-- A program that starts in one and the same moment over two series with the same candles up to its
    index ends in one and the same way. -/
theorem outcome_evaluateProgram_eq {first second : Series} {start : Moment}
    (hsame : first.SameUpTo start.index second) (program : Program) :
    (evaluateProgram first program).outcome start =
      (evaluateProgram second program).outcome start := by
  have halike : Alike (fun _ => True) (fun _ => True) start.index
      (evaluateProgram first program) (evaluateProgram second program) :=
    evaluateStatements_alike hsame program.statements .na (fun _ _ _ _ => trivial)
      fun _ _ _ _ => trivial
  exact halike.outcome_eq start (Nat.le_refl _)

/-- Over two series with the same candles up to the present index every tree and every program has
    the same value, or the same fault, and leaves the same variables at the same index. -/
theorem no_lookahead {first second : Series} {index : Nat} (hsame : first.SameUpTo index second)
    (bindings : Variables) :
    (∀ node, (evaluate first node).outcome ⟨bindings, index⟩ =
      (evaluate second node).outcome ⟨bindings, index⟩) ∧
    ∀ program, (evaluateProgram first program).outcome ⟨bindings, index⟩ =
      (evaluateProgram second program).outcome ⟨bindings, index⟩ := by
  have hany : ∀ name : String, True := fun _ => trivial
  constructor
  · intro node
    exact (evaluate_alike hsame node (fun name _ => hany name) fun name _ => hany name).outcome_eq
      ⟨bindings, index⟩ (Nat.le_refl index)
  · intro program
    exact (evaluateStatements_alike hsame program.statements .na (fun _ _ name _ => hany name)
      fun _ _ name _ => hany name).outcome_eq ⟨bindings, index⟩ (Nat.le_refl index)

/-- A candle that is still to come changes nothing about the close one candle back, nor about a
    program that keeps it. -/
theorem no_lookahead_before_third_candle :
    let candle (time : Int) (price : Float) : Candle := ⟨time, price, price, price, price, 1⟩
    let first : Series := ⟨[candle 1 10, candle 2 12], by decide⟩
    let second : Series := ⟨[candle 1 10, candle 2 12, candle 3 99], by decide⟩
    let node : Node := .assign "x" (.past (.price .closing) (.number 1))
    first.SameUpTo 1 second ∧
      (evaluate first node).outcome ⟨∅, 1⟩ = (evaluate second node).outcome ⟨∅, 1⟩ ∧
      (evaluateProgram first (.sequence [node, .name "x"])).outcome ⟨∅, 1⟩ =
        (evaluateProgram second (.sequence [node, .name "x"])).outcome ⟨∅, 1⟩ := by
  intro candle first second node
  have hsame : first.SameUpTo 1 second := by
    intro index hindex
    match index with
    | 0 | 1 => rfl
  obtain ⟨hnode, hprogram⟩ := no_lookahead hsame ∅
  exact ⟨hsame, hnode node, hprogram _⟩

end Candlewick
