import Candlewick.Proofs.Evaluation.TwoRuns

namespace Candlewick

namespace Moment.Moved

variable {assigned : String → Prop} {start later : Moment} {name : String}

/-- A name that is not assigned holds what it held. -/
theorem get?_eq (hmoved : Moved assigned start start later later) (hname : ¬ assigned name) :
    later.bindings.get? name = start.bindings.get? name := by
  rcases hmoved.binding name with ⟨hassigned, _⟩ | ⟨hkept, _⟩
  · exact absurd hassigned hname
  · exact hkept

/-- A variable that has a value still has one afterwards. -/
theorem isSome_get? (hmoved : Moved assigned start start later later)
    (hbound : (start.bindings.get? name).isSome) : (later.bindings.get? name).isSome := by
  rcases hmoved.binding name with ⟨_, value, hvalue, _⟩ | ⟨hkept, _⟩
  · rw [hvalue]
    rfl
  · rw [hkept]
    exact hbound

/-- Where nothing is assigned nothing has moved. -/
theorem eq_of_unassigned (hmoved : Moved assigned start start later later)
    (hnone : ∀ name, ¬ assigned name) : later = start := by
  have hbindings : later.bindings = start.bindings :=
    Keyed.ext_get? fun name => hmoved.get?_eq (hnone name)
  have hindex : later.index = start.index := hmoved.index_first
  cases later
  cases start
  cases hbindings
  cases hindex
  rfl

end Moment.Moved

/-- An evaluation gives values to names that its tree assigns, and does nothing else. -/
theorem evaluate_moved (series : Series) (node : Node) (start : Moment) :
    Moment.Moved node.Assigns start start ((evaluate series node).outcome start).2
      ((evaluate series node).outcome start).2 := by
  have halike : Evaluation.Alike (fun _ => True) node.Assigns start.index (evaluate series node)
      (evaluate series node) :=
    evaluate_alike (fun _ _ => rfl) node (fun _ _ => trivial) fun _ hassigns => hassigns
  exact (halike start start rfl (Nat.le_refl start.index) fun _ _ => rfl).2

/-- So do statements evaluated in turn, also if one of them fails. -/
theorem evaluateStatements_moved (series : Series) (nodes : List Node) (value : Value)
    (start : Moment) :
    Moment.Moved (fun name => ∃ node ∈ nodes, node.Assigns name) start start
      ((evaluateStatements series value nodes).outcome start).2
      ((evaluateStatements series value nodes).outcome start).2 := by
  have halike : Evaluation.Alike (fun _ => True) (fun name => ∃ node ∈ nodes, node.Assigns name)
      start.index (evaluateStatements series value nodes)
      (evaluateStatements series value nodes) :=
    evaluateStatements_alike (fun _ _ => rfl) nodes value (fun _ _ _ _ => trivial)
      fun node hnode _ hassigns => ⟨node, hnode, hassigns⟩
  exact (halike start start rfl (Nat.le_refl start.index) fun _ _ => rfl).2

/-- Whether it ends in a value or in a fault, and wherever it starts, an evaluation comes back to its
    index, leaves each variable that its tree does not assign with the value it had, or without one,
    and unbinds none. A tree without assignments leaves the moment as it was. -/
theorem evaluation_frame (series : Series) (node : Node) (start : Moment) :
    let later := ((evaluate series node).outcome start).2
    later.index = start.index ∧
    (∀ name, ¬ node.Assigns name → later.bindings.get? name = start.bindings.get? name) ∧
    (∀ name, (start.bindings.get? name).isSome → (later.bindings.get? name).isSome) ∧
    ((∀ name, ¬ node.Assigns name) → later = start) := by
  intro later
  have hmoved : Moment.Moved node.Assigns start start later later :=
    evaluate_moved series node start
  exact ⟨hmoved.index_first, fun _ => hmoved.get?_eq, fun _ => hmoved.isSome_get?,
    hmoved.eq_of_unassigned⟩

end Candlewick
