import Candlewick.Node

namespace Candlewick.Node

/-- A property that every tree has if all trees directly below its root have it. -/
@[elab_as_elim]
theorem inductionOnChildren {motive : Node → Prop} (node : Node)
    (step : ∀ node, (∀ child ∈ node.children, motive child) → motive node) : motive node := by
  apply Node.rec (motive_1 := motive) (motive_2 := fun nodes => ∀ node ∈ nodes, motive node)
  case nil => simp
  case cons => simp_all
  all_goals
    intros
    apply step
    simp_all [children]

/-- One tree is the other, or stands somewhere below its root. -/
inductive Within (part : Node) : Node → Prop where
  | self : Within part part
  | inside {whole child : Node} (hchild : child ∈ whole.children) (hpart : Within part child) :
    Within part whole

/-- A part of a tree is the whole tree or a part of one of the trees below its root. -/
theorem within_iff (part whole : Node) :
    Within part whole ↔ part = whole ∨ ∃ child ∈ whole.children, Within part child := by
  constructor
  · intro hpart
    cases hpart with
    | self => exact .inl rfl
    | inside hchild hpart => exact .inr ⟨_, hchild, hpart⟩
  · rintro (rfl | ⟨child, hchild, hpart⟩)
    · exact .self
    · exact .inside hchild hpart

/-- What holds of every part of a tree holds of its root and of every part of its children. -/
theorem forall_within_iff {holds : Node → Prop} {node : Node} :
    (∀ part, Within part node → holds part) ↔
      holds node ∧ ∀ child ∈ node.children, ∀ part, Within part child → holds part := by
  constructor
  · exact fun hnode => ⟨hnode node .self, fun child hchild part hpart =>
      hnode part (.inside hchild hpart)⟩
  · rintro ⟨hroot, hchildren⟩ part hpart
    rcases (within_iff part node).1 hpart with rfl | ⟨child, hchild, hpart⟩
    · exact hroot
    · exact hchildren child hchild part hpart

/-- A variable whose value is asked for somewhere in a tree. -/
def Reads (node : Node) (name : String) : Prop :=
  Within (.name name) node

/-- A variable that is the target of an assignment somewhere in a tree. -/
def Assigns (node : Node) (name : String) : Prop :=
  ∃ value, Within (.assign name value) node

theorem reads_name (word : String) : (Node.name word).Reads word :=
  .self

theorem assigns_assign (target : String) (value : Node) :
    (Node.assign target value).Assigns target :=
  ⟨value, .self⟩

/-- A tree reads the names that the trees below its root read. -/
theorem Reads.of_child {node child : Node} {name : String} (hreads : child.Reads name)
    (hchild : child ∈ node.children) : node.Reads name :=
  .inside hchild hreads

/-- A tree assigns the names that the trees below its root assign. -/
theorem Assigns.of_child {node child : Node} {name : String} (hassigns : child.Assigns name)
    (hchild : child ∈ node.children) : node.Assigns name := by
  obtain ⟨value, hpart⟩ := hassigns
  exact ⟨value, .inside hchild hpart⟩

end Candlewick.Node
