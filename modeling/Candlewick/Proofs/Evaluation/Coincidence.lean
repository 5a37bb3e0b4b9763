import Candlewick.Proofs.Evaluation.TwoRuns

namespace Candlewick

namespace Program

/-- A variable whose value is asked for in one of the statements. -/
def Reads (program : Program) (name : String) : Prop :=
  ∃ statement ∈ program.statements, statement.Reads name

/-- A variable that is the target of an assignment in one of the statements. -/
def Assigns (program : Program) (name : String) : Prop :=
  ∃ statement ∈ program.statements, statement.Assigns name

end Program

/-- Two tables of variables that agree on the names a tree asks for cannot be told apart by its
    evaluation. The outcome is the same, and afterwards each name either has been given one value in
    both runs, which takes an assignment in the tree, or is in each run as it was at its start. The
    same holds of a program and the names that its statements ask for. -/
theorem coincidence (series : Series) (index : Nat) (first second : Variables) :
    let start : Moment := ⟨first, index⟩
    let start' : Moment := ⟨second, index⟩
    (∀ node : Node, start.AgreeOn node.Reads start' →
      ((evaluate series node).outcome start).1 = ((evaluate series node).outcome start').1 ∧
      Moment.Moved node.Assigns start start' ((evaluate series node).outcome start).2
        ((evaluate series node).outcome start').2) ∧
    ∀ program : Program, start.AgreeOn program.Reads start' →
      ((evaluateProgram series program).outcome start).1 =
        ((evaluateProgram series program).outcome start').1 ∧
      Moment.Moved program.Assigns start start' ((evaluateProgram series program).outcome start).2
        ((evaluateProgram series program).outcome start').2 := by
  intro start start'
  have hself : series.SameUpTo index series := fun _ _ => rfl
  constructor
  · intro node hagree
    have halike : Evaluation.Alike node.Reads node.Assigns index (evaluate series node)
        (evaluate series node) :=
      evaluate_alike hself node (fun _ hreads => hreads) fun _ hassigns => hassigns
    exact halike start start' rfl (Nat.le_refl index) hagree
  · intro program hagree
    have halike : Evaluation.Alike program.Reads program.Assigns index
        (evaluateProgram series program) (evaluateProgram series program) :=
      evaluateStatements_alike hself program.statements .na
        (fun node hnode _ hreads => ⟨node, hnode, hreads⟩)
        fun node hnode _ hassigns => ⟨node, hnode, hassigns⟩
    exact halike start start' rfl (Nat.le_refl index) hagree

/-- A program that keeps `a` in `x` and in `y` and fails in its last statement, started with tables
    that differ in `y` and in `z`: both runs end in the same fault, and nothing but `z` tells them
    apart any more. -/
theorem coincidence_in_failing_program :
    let series : Series := ⟨[⟨1, 7, 7, 7, 7, 1⟩, ⟨2, 8, 8, 8, 8, 1⟩], by decide⟩
    let node : Node := .past (.assign "x" (.name "a")) (.number 1)
    let program : Program :=
      .sequence [.assign "y" node, .assign "z" (.past (.price .closing) (.number 5))]
    let start : Moment := ⟨.ofList [("a", .number 3), ("y", .number 1), ("z", .number 1)], 1⟩
    let start' : Moment := ⟨.ofList [("a", .number 3), ("z", .number 2)], 1⟩
    start.AgreeOn node.Reads start' ∧ start.AgreeOn program.Reads start' ∧
      ((evaluate series node).outcome start).1 = ((evaluate series node).outcome start').1 ∧
      ((evaluateProgram series program).outcome start).1 =
        ((evaluateProgram series program).outcome start').1 ∧
      ((evaluateProgram series program).outcome start).1 = .error (.beforeFirstCandle 5 1) ∧
      Moment.Moved program.Assigns start start' ((evaluateProgram series program).outcome start).2
        ((evaluateProgram series program).outcome start').2 := by
  intro series node program start start'
  have hnode : ∀ name, node.Reads name → name = "a" := by
    intro name hreads
    simpa [node, Node.Reads, Node.children, Node.within_iff _ (.past _ _),
      Node.within_iff _ (.assign _ _), Node.within_iff _ (.name _),
      Node.within_iff _ (.number _)] using hreads
  have hprogram : ∀ name, program.Reads name → name = "a" := by
    intro name hreads
    simpa [program, node, Program.Reads, Program.statements, Node.Reads, Node.children,
      Node.within_iff _ (.past _ _), Node.within_iff _ (.assign _ _), Node.within_iff _ (.name _),
      Node.within_iff _ (.number _), Node.within_iff _ (.price _)] using hreads
  have hsame : start.bindings.get? "a" = start'.bindings.get? "a" := by decide
  have hagree : start.AgreeOn node.Reads start' := fun name hreads => hnode name hreads ▸ hsame
  have hagree' : start.AgreeOn program.Reads start' :=
    fun name hreads => hprogram name hreads ▸ hsame
  obtain ⟨hone, hall⟩ := coincidence series 1 start.bindings start'.bindings
  obtain ⟨houtcome, hmoved⟩ := hall program hagree'
  exact ⟨hagree, hagree', (hone node hagree).1, houtcome, rfl, hmoved⟩

end Candlewick
