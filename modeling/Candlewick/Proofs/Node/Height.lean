import Candlewick.Node

namespace Candlewick.Node

mutual

/-- The number of nodes on the longest branch of a tree. -/
@[simp] def height : Node → Nat
  | number _ | text _ | truth _ | name _ | price _ => 1
  | binary _ left right => max left.height right.height + 1
  | unary _ operand => operand.height + 1
  | call _ arguments => heights arguments + 1
  | ifThen condition consequent => max condition.height consequent.height + 1
  | ifThenElse condition consequent alternative =>
    max condition.height (max consequent.height alternative.height) + 1
  | assign _ value => value.height + 1
  | buy condition => condition.height + 1
  | sell condition => condition.height + 1
  | strategy _ rules => heights rules + 1
  | past object offset => max object.height offset.height + 1

/-- The number of nodes on the longest branch of several trees. -/
@[simp] def heights : List Node → Nat
  | [] => 0
  | node :: rest => max node.height (heights rest)

end

/-- A tree is one higher than the highest tree below its root. -/
theorem height_eq (node : Node) : node.height = heights node.children + 1 := by
  cases node <;> simp [height, heights, children]

/-- The greatest level below some pending trees, each with the level of its root. -/
def lowest (pending : List (Node × Nat)) : Nat :=
  pending.foldr (fun entry below => max (entry.2 + entry.1.height - 1) below) 0

/-- The greatest level below two lists of trees is the greater one of theirs. -/
theorem lowest_append (front back : List (Node × Nat)) :
    lowest (front ++ back) = max (lowest front) (lowest back) := by
  induction front with
  | nil => simp [lowest]
  | cons entry rest ih =>
    change max _ (lowest (rest ++ back)) = max (max _ (lowest rest)) _
    rw [ih, Nat.max_assoc]

/-- Trees right below a level reach as many levels further down as the highest of them is high. -/
theorem lowest_children (nodes : List Node) (level : Nat) :
    max level (lowest (nodes.map (·, level + 1))) = level + heights nodes := by
  induction nodes with
  | nil => simp [lowest, heights]
  | cons node rest ih =>
    have hheight := height_eq node
    change max level (max (level + 1 + node.height - 1) (lowest (rest.map (·, level + 1)))) =
      level + max node.height (heights rest)
    omega

/-- The walk reaches the greatest level of all that is pending. -/
theorem deepest_eq (reached : Nat) (pending : List (Node × Nat)) :
    deepest reached pending = max reached (lowest pending) := by
  fun_induction deepest reached pending with
  | case1 reached => simp [lowest]
  | case2 reached node level pending ih =>
    have hchildren := lowest_children node.children level
    have hheight := height_eq node
    rw [ih, lowest_append]
    change _ = max reached (max (level + node.height - 1) (lowest pending))
    omega

/-- What the walk over pending trees finds is the height. -/
theorem depth_eq_height (node : Node) : node.depth = node.height := by
  rw [depth, deepest_eq]
  change max 0 (max (1 + node.height - 1) 0) = node.height
  omega

end Candlewick.Node
