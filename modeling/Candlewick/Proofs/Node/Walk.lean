import Candlewick.Proofs.Node.Height
import Mathlib.Logic.Relation
import Mathlib.Data.List.Perm.Basic

namespace Candlewick.Node

theorem heights_eq (nodes : List Node) :
    heights nodes = (nodes.map depth).foldr max 0 := by
  induction nodes with
  | nil => rfl
  | cons node rest ih => rw [heights, ih, List.map_cons, List.foldr_cons, depth_eq_height]

/-- A tree is one level deeper than the deepest tree below its root. -/
theorem depth_eq_children (node : Node) :
    node.depth = (node.children.map depth).foldr max 0 + 1 := by
  rw [depth_eq_height, height_eq, heights_eq]

/-- The number of nodes of some trees does not depend on their order. -/
theorem sizes_perm {nodes nodes' : List Node} (hperm : nodes.Perm nodes') :
    sizes nodes = sizes nodes' := by
  induction hperm with
  | nil => rfl
  | cons node _ ih => rw [sizes, sizes, ih]
  | swap node other rest =>
    simp only [sizes]
    omega
  | trans _ _ ih ih' => rw [ih, ih']

theorem lowest_perm {pending pending' : List (Node × Nat)} (hperm : pending.Perm pending') :
    lowest pending = lowest pending' := by
  refine hperm.foldr_eq' ?_ 0
  intro entry _ other _ below
  exact Nat.max_left_comm _ _ _

/-- How far a walk has come: the greatest level so far, and the trees still to be visited, each with
    the level of its root. -/
structure Walk where
  reached : Nat
  pending : List (Node × Nat)

namespace Walk

/-- A walk before its first step. -/
def start (node : Node) : Walk :=
  ⟨0, [(node, 1)]⟩

/-- One step of a walk: any of the pending trees is taken, and the trees below its root are put
    anywhere among the others. -/
inductive Visits : Walk → Walk → Prop where
  | visit {reached level : Nat} {node : Node} {pending rest later : List (Node × Nat)}
    (htaken : pending.Perm ((node, level) :: rest))
    (hput : later.Perm (node.children.map (·, level + 1) ++ rest)) :
    Visits ⟨reached, pending⟩ ⟨max reached level, later⟩

variable {walk later : Walk}

/-- The number of nodes still to be visited. -/
def left (walk : Walk) : Nat :=
  sizes (walk.pending.map Prod.fst)

/-- A step visits one node, so one less is left. -/
theorem Visits.left_eq (hvisits : Visits walk later) : later.left + 1 = walk.left := by
  obtain ⟨htaken, hput⟩ := hvisits
  rename_i reached level node pending rest next
  have hbefore := sizes_perm (htaken.map Prod.fst)
  have hafter := sizes_perm (hput.map Prod.fst)
  simp only [List.map_cons, List.map_append, List.map_map, Function.comp_def, List.map_id', sizes,
    sizes_append, size_eq node] at hbefore hafter
  simp only [left]
  omega

/-- No walk goes on without end. -/
theorem wellFounded_visits : WellFounded fun later walk : Walk => Visits walk later := by
  refine Subrelation.wf (fun {later walk} hvisits => ?_) (measure left).wf
  have hleft := hvisits.left_eq
  change later.left < walk.left
  omega

theorem exists_visits (hpending : walk.pending ≠ []) : ∃ later, Visits walk later := by
  obtain ⟨⟨node, level⟩, rest, hcons⟩ := List.exists_cons_of_ne_nil hpending
  rcases walk with ⟨reached, pending⟩
  exact ⟨_, .visit (.of_eq hcons) (.refl _)⟩

/-- A step leaves unchanged what is found in the end. -/
theorem Visits.deepest_eq (hvisits : Visits walk later) :
    deepest later.reached later.pending = deepest walk.reached walk.pending := by
  obtain ⟨htaken, hput⟩ := hvisits
  rename_i reached level node pending rest next
  -- In front of the list the tree would be the next one that is visited anyway.
  rw [Node.deepest_eq, Node.deepest_eq, lowest_perm htaken, lowest_perm hput,
    ← Node.deepest_eq, ← Node.deepest_eq, deepest]

/-- So do any number of steps. -/
theorem deepest_eq_of_visits (hwalk : Relation.ReflTransGen Visits walk later) :
    deepest later.reached later.pending = deepest walk.reached walk.pending := by
  induction hwalk with
  | refl => rfl
  | tail _ hvisits ih => rw [hvisits.deepest_eq, ih]

/-- Where a walk from the root of a tree ends, it has found the depth of the tree. -/
theorem eq_of_finished {node : Node} (hwalk : Relation.ReflTransGen Visits (start node) walk)
    (hfinished : ∀ later, ¬ Visits walk later) : walk = ⟨node.depth, []⟩ := by
  have hfound := deepest_eq_of_visits hwalk
  rcases walk with ⟨reached, pending⟩
  obtain rfl : pending = [] := by
    by_contra hpending
    obtain ⟨later, hvisits⟩ := @exists_visits ⟨reached, pending⟩ hpending
    exact hfinished later hvisits
  rw [deepest] at hfound
  exact congrArg (Walk.mk · []) hfound

end Walk

end Candlewick.Node
