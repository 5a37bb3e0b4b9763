import Candlewick.Proofs.Evaluation.Frame

namespace Candlewick

open Evaluation

/-- An evaluation that starts in a moment comes to a value. -/
def Evaluation.HasValue {α : Type} (evaluation : Evaluation α) (start : Moment) (value : α) :
    Prop :=
  (evaluation.outcome start).1 = .ok value

/-- From one moment on an evaluation has one value. -/
theorem Evaluation.HasValue.unique {α : Type} {evaluation : Evaluation α} {start : Moment}
    {value value' : α} (h : evaluation.HasValue start value)
    (h' : evaluation.HasValue start value') : value = value' :=
  Except.ok.inj (h.symm.trans h')

/-- An evaluation without a value ends in a fault. -/
theorem Evaluation.exists_fault_iff {α : Type} {evaluation : Evaluation α} {start : Moment} :
    (∃ fault, (evaluation.outcome start).1 = .error fault) ↔
      ¬ ∃ value, evaluation.HasValue start value := by
  unfold HasValue
  cases (evaluation.outcome start).1 <;> simp

/-- The index is the old one behind an evaluation. -/
theorem index_of_outcome {series : Series} {node : Node} {start later : Moment}
    {outcome : Except EvalFault Value}
    (houtcome : (evaluate series node).outcome start = (outcome, later)) :
    later.index = start.index := by
  have hback := (evaluate_moved series node start).index_first
  rwa [houtcome] at hback

/-- The turn of a tree when several trees are evaluated one after the other, and its moment. -/
inductive Turn (series : Series) : List Node → Moment → Node → Moment → Prop where
  | head {node : Node} {rest : List Node} {start : Moment} :
    Turn series (node :: rest) start node start
  | tail {first node : Node} {rest : List Node} {start middle moment : Moment} {value : Value}
    (hfirst : (evaluate series first).outcome start = (.ok value, middle))
    (hrest : Turn series rest middle node moment) : Turn series (first :: rest) start node moment

variable {series : Series} {nodes : List Node} {start moment : Moment} {node : Node}

theorem not_turn_nil : ¬ Turn series [] start node moment :=
  nofun

/-- The first tree has its turn at once, the others at the moment that it has left. -/
theorem turn_cons_of_ok {first : Node} {middle : Moment} {value : Value}
    (hfirst : (evaluate series first).outcome start = (.ok value, middle)) :
    Turn series (first :: nodes) start node moment ↔
      (node = first ∧ moment = start) ∨ Turn series nodes middle node moment := by
  constructor
  · intro hturn
    cases hturn with
    | head => exact .inl ⟨rfl, rfl⟩
    | tail hfirst' hrest =>
      rw [hfirst] at hfirst'
      cases hfirst'
      exact .inr hrest
  · rintro (⟨rfl, rfl⟩ | hrest)
    · exact .head
    · exact .tail hfirst hrest

theorem Turn.mem (hturn : Turn series nodes start node moment) : node ∈ nodes := by
  induction hturn with
  | head => exact List.mem_cons_self
  | tail _ _ ih => exact List.mem_cons_of_mem _ ih

/-- The index is the same at every turn. -/
theorem Turn.index_eq (hturn : Turn series nodes start node moment) :
    moment.index = start.index := by
  induction hturn with
  | head => rfl
  | tail hfirst _ ih => exact ih.trans (index_of_outcome hfirst)

section Unassigned

variable (hnone : ∀ node ∈ nodes, ∀ name, ¬ node.Assigns name)
include hnone

/-- Trees that assign nothing all have their turn at the moment in which the first one has. -/
theorem Turn.moment_eq (hturn : Turn series nodes start node moment) : moment = start := by
  induction hturn with
  | head => rfl
  | @tail first node rest start middle moment value hfirst _ ih =>
    obtain ⟨hnone, hrest⟩ := List.forall_mem_cons.1 hnone
    have hkept := (evaluate_moved series first start).eq_of_unassigned hnone
    rw [hfirst] at hkept
    exact (ih hrest).trans hkept

/-- If each of them has a value at every turn, each of them has one at this moment, and they all
    have their turn. -/
theorem turn_of_mem (hvalues : ∀ node moment, Turn series nodes start node moment →
    ∃ value, (evaluate series node).HasValue moment value) (hmem : node ∈ nodes) :
    Turn series nodes start node start := by
  induction nodes with
  | nil => exact absurd hmem List.not_mem_nil
  | cons first rest ih =>
    obtain ⟨hfirst, hrest⟩ := List.forall_mem_cons.1 hnone
    obtain ⟨value, hvalue⟩ := hvalues first start .head
    have hkept := (evaluate_moved series first start).eq_of_unassigned hfirst
    have houtcome : (evaluate series first).outcome start = (.ok value, start) :=
      Prod.ext hvalue hkept
    rcases List.mem_cons.1 hmem with rfl | hmem
    · exact .head
    · refine .tail houtcome (ih hrest (fun node moment hturn => ?_) hmem)
      exact hvalues node moment (.tail houtcome hturn)

end Unassigned

end Candlewick
