import Candlewick.Proofs.Grammar.Exactness
import Candlewick.Proofs.Node.Parts

namespace Candlewick

/-- A tree of an expression: no trading rule and no strategy stands in it. -/
def Node.IsValue (node : Node) : Prop :=
  ∀ part, Within part node → part.isRule = false

/-- The trees below the root of an expression are expressions. -/
theorem Node.IsValue.child {node child : Node} (hvalue : node.IsValue)
    (hchild : child ∈ node.children) : child.IsValue :=
  fun part hpart => hvalue part (.inside hchild hpart)

/-- A tree is one of an expression if its root is no rule and the trees below are of expressions. -/
theorem Node.isValue_of_children {node : Node} (hroot : node.isRule = false)
    (hchildren : ∀ child ∈ node.children, child.IsValue) : node.IsValue :=
  Node.forall_within_iff.2 ⟨hroot, hchildren⟩

namespace Grammar

/-- The name of a call as it is written: a function that every strategy can call is a word of its
    own kind. -/
def Callee.ofName (name : String) : Callee :=
  match Keyword.ofWord? name with
  | some (.function builtin) => .function builtin name
  | _ => .word name

@[simp] theorem Callee.name_ofName (name : String) : (Callee.ofName name).name = name := by
  unfold ofName
  split <;> rfl

/-- The category of the left operand of an operator. -/
def leftCategory : BinaryOperator → Category
  | .pow => .unary
  | operator => operatorCategory operator

/-- The category of the right operand of an operator. -/
def rightCategory : BinaryOperator → Category
  | .pow => .power
  | operator => (operatorCategory operator).tighter

namespace Phrase

/-- The tightest category of a phrase. -/
def category : Phrase → Category
  | number _ | text _ | truth _ | price _ | name _ | call _ _ | group _ => .primary
  | past _ _ => .indexed
  | unary _ _ => .unary
  | binary operator _ _ => operatorCategory operator
  | assign _ _ | ifThen _ _ | ifThenElse _ _ _ => .expression

/-- A phrase where one of a category is asked for, in brackets if it binds less tightly. -/
def within (category : Category) (phrase : Phrase) : Phrase :=
  if category.rank ≤ phrase.category.rank then phrase else .group phrase

/-- A phrase in front of an `else`, in brackets if it could take it. -/
def beforeElse (phrase : Phrase) : Phrase :=
  if phrase.isOpen then .group phrase else phrase

mutual

/-- The rendering of a tree. A trading rule, which is no expression, is written as its condition and
    a strategy as its title. -/
def ofNode : Node → Phrase
  | .number value => .number value
  | .text content => .text content
  | .truth value => .truth value
  | .name word => .name word
  | .price field => .price field
  | .binary operator left right =>
    .binary operator ((ofNode left).within (leftCategory operator))
      ((ofNode right).within (rightCategory operator))
  | .unary operator operand => .unary operator ((ofNode operand).within .unary)
  | .call callee arguments => .call (.ofName callee) (ofNodes arguments)
  | .ifThen condition consequent => .ifThen (ofNode condition) (ofNode consequent)
  | .ifThenElse condition consequent alternative =>
    .ifThenElse (ofNode condition) (ofNode consequent).beforeElse (ofNode alternative)
  | .assign target value => .assign target (ofNode value)
  | .past object offset => .past ((ofNode object).within .indexed) (ofNode offset)
  | .buy condition | .sell condition => ofNode condition
  | .strategy title _ => .text title

/-- The renderings of several trees. -/
def ofNodes : List Node → List Phrase
  | [] => []
  | node :: rest => ofNode node :: ofNodes rest

end

theorem ofNodes_eq_map (nodes : List Node) : ofNodes nodes = nodes.map ofNode := by
  induction nodes with
  | nil => rfl
  | cons node rest ih => rw [ofNodes, ih, List.map_cons]

/-- Brackets that are put around a phrase leave its tree as it is. -/
@[simp] theorem node_within (category : Category) (phrase : Phrase) :
    (phrase.within category).node = phrase.node := by
  unfold within
  split <;> rfl

@[simp] theorem node_beforeElse (phrase : Phrase) : phrase.beforeElse.node = phrase.node := by
  unfold beforeElse
  split <;> rfl

end Phrase

/-- A phrase is derived in no category that is tighter than its own. -/
theorem Derives.rank_le {category : Category} {phrase : Phrase}
    (hderives : Derives category phrase) : category.rank ≤ phrase.category.rank := by
  induction hderives with
  | joined hoperator => exact Nat.le_of_eq (congrArg Category.rank hoperator.symm)
  | tighter hprimary _ ih =>
    rw [Category.rank_tighter hprimary] at ih
    omega
  | _ => exact Nat.le_refl _

/-- Brackets are put only where the grammar does not derive the phrase without them. -/
theorem Phrase.within_eq_self_iff {category : Category} {phrase : Phrase}
    (hderives : Derives phrase.category phrase) :
    phrase.within category = phrase ↔ Derives category phrase := by
  constructor
  · intro hwithin
    by_cases hrank : category.rank ≤ phrase.category.rank
    · exact hderives.loosen hrank
    · rw [Phrase.within, if_neg hrank] at hwithin
      have hsize := congrArg sizeOf hwithin
      simp at hsize
  · intro hcategory
    rw [Phrase.within, if_pos hcategory.rank_le]

/-- With brackets where they are needed, every phrase is one of the category asked for. -/
theorem derives_within {phrase : Phrase} (hderives : Derives phrase.category phrase)
    (category : Category) : Derives category (phrase.within category) := by
  unfold Phrase.within
  by_cases hrank : category.rank ≤ phrase.category.rank
  · rw [if_pos hrank]
    exact hderives.loosen hrank
  · rw [if_neg hrank]
    exact (Derives.group (hderives.loosen (by cases phrase.category <;> decide))).loosen
      (by cases category <;> decide)

/-- Brackets do not take an `else` from the nearest `if`. -/
theorem elseNearest_within {phrase : Phrase} (helse : phrase.ElseNearest) (category : Category) :
    (phrase.within category).ElseNearest := by
  unfold Phrase.within
  split <;> exact helse

theorem derives_beforeElse {phrase : Phrase} (hphrase : phrase.IsExpression) :
    phrase.beforeElse.IsExpression := by
  unfold Phrase.beforeElse
  split
  · exact ⟨(Derives.group hphrase.derives).loosen (by decide), hphrase.elseNearest⟩
  · exact hphrase

/-- In front of an `else` no rendering is open. -/
theorem isOpen_beforeElse (phrase : Phrase) : phrase.beforeElse.isOpen = false := by
  unfold Phrase.beforeElse
  split
  · rfl
  · rename_i hclosed
    exact Bool.eq_false_iff.2 hclosed

/-- An operator with operands of the categories it asks for. -/
theorem derives_binary {operator : BinaryOperator} {left right : Phrase}
    (hleft : Derives (leftCategory operator) left)
    (hright : Derives (rightCategory operator) right) :
    Derives (operatorCategory operator) (.binary operator left right) := by
  cases operator with
  | pow => exact .power hleft hright
  | _ => exact .joined rfl (by decide) hleft hright

/-- A rendering of a tree: a phrase of its tightest category that stands for the tree. -/
structure Renders (phrase : Phrase) (tree : Node) : Prop where
  derives : Derives phrase.category phrase
  elseNearest : phrase.ElseNearest
  node : phrase.node = tree

theorem Renders.isExpression {phrase : Phrase} {tree : Node} (hrenders : Renders phrase tree) :
    phrase.IsExpression :=
  ⟨hrenders.derives.loosen (by cases phrase.category <;> decide), hrenders.elseNearest⟩

/-- Every tree of an expression has a rendering. -/
theorem renders_ofNode {tree : Node} (hvalue : tree.IsValue) : Renders (.ofNode tree) tree := by
  induction tree using Node.inductionOnChildren with
  | step tree ih =>
    have hchildren : ∀ child ∈ tree.children, Renders (.ofNode child) child :=
      fun child hmem => ih child hmem (hvalue.child hmem)
    have hroot := hvalue tree .self
    clear ih hvalue
    cases tree with
    | number value => exact ⟨.number value, trivial, rfl⟩
    | text content => exact ⟨.text content, trivial, rfl⟩
    | truth value => exact ⟨.truth value, trivial, rfl⟩
    | name word => exact ⟨.name word, trivial, rfl⟩
    | price field => exact ⟨.price field, trivial, rfl⟩
    | binary operator left right =>
      have hleft := hchildren left (by simp [Node.children])
      have hright := hchildren right (by simp [Node.children])
      refine ⟨derives_binary (derives_within hleft.derives _) (derives_within hright.derives _),
        ⟨elseNearest_within hleft.elseNearest _, elseNearest_within hright.elseNearest _⟩, ?_⟩
      simp [Phrase.ofNode, Phrase.node, hleft.node, hright.node]
    | unary operator operand =>
      have hoperand := hchildren operand (by simp [Node.children])
      refine ⟨.unary (derives_within hoperand.derives _),
        elseNearest_within hoperand.elseNearest _, ?_⟩
      simp [Phrase.ofNode, Phrase.node, hoperand.node]
    | call callee arguments =>
      have harguments : ∀ phrase ∈ Phrase.ofNodes arguments, phrase.IsExpression := by
        rw [Phrase.ofNodes_eq_map]
        intro phrase hmem
        obtain ⟨argument, hargument, rfl⟩ := List.mem_map.1 hmem
        exact (hchildren argument hargument).isExpression
      have hnodes : (arguments.map Phrase.ofNode).map Phrase.node = arguments := by
        rw [List.map_map]
        calc arguments.map (Phrase.node ∘ Phrase.ofNode)
            = arguments.map id :=
              List.map_congr_left fun argument hmem => (hchildren argument hmem).node
          _ = arguments := List.map_id arguments
      refine ⟨.call fun phrase hmem => (harguments phrase hmem).derives,
        Phrase.eachElseNearest_iff.2 fun phrase hmem => (harguments phrase hmem).elseNearest, ?_⟩
      rw [Phrase.ofNode, Phrase.node, Callee.name_ofName, Phrase.nodes_eq_map,
        Phrase.ofNodes_eq_map, hnodes]
    | ifThen condition consequent =>
      have hcondition := hchildren condition (by simp [Node.children])
      have hconsequent := hchildren consequent (by simp [Node.children])
      refine ⟨.ifThen hcondition.isExpression.derives hconsequent.isExpression.derives,
        ⟨hcondition.elseNearest, hconsequent.elseNearest⟩, ?_⟩
      simp [Phrase.ofNode, Phrase.node, hcondition.node, hconsequent.node]
    | ifThenElse condition consequent alternative =>
      have hcondition := hchildren condition (by simp [Node.children])
      have hconsequent := hchildren consequent (by simp [Node.children])
      have halternative := hchildren alternative (by simp [Node.children])
      have hclosed := derives_beforeElse hconsequent.isExpression
      refine ⟨.ifThenElse hcondition.isExpression.derives hclosed.derives
        halternative.isExpression.derives, ⟨isOpen_beforeElse _, hcondition.elseNearest,
        hclosed.elseNearest, halternative.elseNearest⟩, ?_⟩
      simp [Phrase.ofNode, Phrase.node, hcondition.node, hconsequent.node, halternative.node]
    | assign target value =>
      have hassigned := hchildren value (by simp [Node.children])
      refine ⟨.assign hassigned.isExpression.derives, hassigned.elseNearest, ?_⟩
      simp [Phrase.ofNode, Phrase.node, hassigned.node]
    | past object offset =>
      have hobject := hchildren object (by simp [Node.children])
      have hoffset := hchildren offset (by simp [Node.children])
      refine ⟨.past (derives_within hobject.derives _) hoffset.isExpression.derives,
        ⟨elseNearest_within hobject.elseNearest _, hoffset.elseNearest⟩, ?_⟩
      simp [Phrase.ofNode, Phrase.node, hobject.node, hoffset.node]
    | buy | sell | strategy => cases hroot

end Grammar

open Grammar

/-- Reading undoes rendering: tokens written as the rendering of an expression are read as just its
    tree, provided that the rendering nests at most 64 levels and the tree has at most 256. -/
theorem parseTokens_rendering {tree : Node} (hvalue : tree.IsValue) {tokens : List Token}
    (hlast : OnlyLastEnds tokens) (htokens : content tokens = (Phrase.ofNode tree).terminals) :
    (∃ warnings, (parseTokens tokens).result = .ok ⟨.expression tree, warnings⟩) ↔
      (Statement.expression (.ofNode tree)).nesting ≤ 64 ∧ tree.depth ≤ 256 := by
  have hrenders := renders_ofNode hvalue
  have hderives : Outline.Derives ⟨0, .last (.expression (.ofNode tree)) 0⟩ tokens := by
    refine ⟨?_, ?_⟩
    · intro phrase hmem
      rw [List.mem_singleton.1 hmem]
      exact hrenders.isExpression
    · rw [htokens]
      simp [Outline.terminals, Block.terminals, Statement.terminals, lineEnds]
  have hprogram : Outline.program ⟨0, .last (.expression (.ofNode tree)) 0⟩ = .expression tree := by
    rw [Outline.program, Block.nodes, Statement.node, hrenders.node, Program.ofStatements]
  have hfits : Block.Fits .standard (.last (.expression (.ofNode tree)) 0) ↔
      (Statement.expression (.ofNode tree)).nesting ≤ 64 ∧ tree.depth ≤ 256 := by
    have hnode : (Statement.expression (.ofNode tree)).node = tree := hrenders.node
    rw [Node.depth_eq_height]
    exact ⟨fun h => ⟨h.nesting, hnode ▸ h.height⟩, fun h => ⟨h.1, hnode.symm ▸ h.2⟩⟩
  rw [← hfits]
  constructor
  · rintro ⟨warnings, hparsed⟩
    obtain ⟨hfits, -⟩ | ⟨-, place, hrefused⟩ := hderives.parse .standard hlast
    · exact hfits
    · cases hparsed.symm.trans hrefused
  · intro hroom
    obtain ⟨-, warnings, hparsed⟩ | ⟨hnoRoom, -⟩ := hderives.parse .standard hlast
    · rw [hprogram] at hparsed
      exact ⟨warnings, hparsed⟩
    · exact absurd hroom hnoRoom

/-- The difference under the power keeps its brackets, the sign in the exponent needs none. -/
theorem parseTokens_rendering_power :
    ∃ tree : Node, ∃ tokens, tree.IsValue ∧ OnlyLastEnds tokens ∧
      content tokens = (Phrase.ofNode tree).terminals ∧
      ((∃ warnings, (parseTokens tokens).result = .ok ⟨.expression tree, warnings⟩) ↔
        (Statement.expression (.ofNode tree)).nesting ≤ 64 ∧ tree.depth ≤ 256) := by
  have hvalue : Node.IsValue
      (.binary .pow (.binary .sub (.name "a") (.name "b")) (.unary .neg (.name "c"))) := by
    have hname : ∀ word, (Node.name word).IsValue :=
      fun word => Node.isValue_of_children rfl (by simp [Node.children])
    have hbase : (Node.binary .sub (.name "a") (.name "b")).IsValue :=
      Node.isValue_of_children rfl (by simp [Node.children, hname])
    have hexponent : (Node.unary .neg (.name "c")).IsValue :=
      Node.isValue_of_children rfl (by simp [Node.children, hname])
    exact Node.isValue_of_children rfl (by simp [Node.children, hbase, hexponent])
  have hlast : OnlyLastEnds
      [⟨.punctuation .leftParen, "(", ⟨0, 1, 1⟩⟩, ⟨.identifier "a", "a", ⟨1, 1, 2⟩⟩,
        ⟨.mark .minus, "-", ⟨3, 1, 4⟩⟩, ⟨.identifier "b", "b", ⟨5, 1, 6⟩⟩,
        ⟨.punctuation .rightParen, ")", ⟨6, 1, 7⟩⟩, ⟨.mark .caret, "^", ⟨8, 1, 9⟩⟩,
        ⟨.mark .minus, "-", ⟨10, 1, 11⟩⟩, ⟨.identifier "c", "c", ⟨11, 1, 12⟩⟩,
        .sourceEnd ⟨12, 1, 13⟩] := by
    simp [OnlyLastEnds]
  exact ⟨_, _, hvalue, hlast, rfl, parseTokens_rendering hvalue hlast rfl⟩

end Candlewick
