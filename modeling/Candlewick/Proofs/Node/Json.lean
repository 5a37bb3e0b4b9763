import Candlewick.Node.Json
import Candlewick.Proofs.Json.Reading
import Candlewick.Proofs.Node.Parts

namespace Candlewick

/-- The operator with a symbol. -/
def BinaryOperator.ofSymbol? (symbol : String) : Option BinaryOperator :=
  [add, sub, mul, div, mod, pow, gt, ge, lt, le, eq, ne, and, or].find? (·.symbol == symbol)

@[simp] theorem BinaryOperator.ofSymbol?_symbol (operator : BinaryOperator) :
    ofSymbol? operator.symbol = some operator := by
  cases operator <;> decide

/-- The operator with a symbol. -/
def UnaryOperator.ofSymbol? (symbol : String) : Option UnaryOperator :=
  [neg, not].find? (·.symbol == symbol)

@[simp] theorem UnaryOperator.ofSymbol?_symbol (operator : UnaryOperator) :
    ofSymbol? operator.symbol = some operator := by
  cases operator <;> decide

/-- What the members of a node's object stand for. -/
inductive Part where
  | null
  | truth (value : Bool)
  | number (value : Float)
  | text (content : String)
  | tree (node : Node)
  | trees (nodes : List Node)

namespace Part

/-- The value of a part that is true or false. -/
@[simp] def truth? : Part → Option Bool
  | truth value => some value
  | _ => none

/-- The value of a part that is a number. -/
@[simp] def number? : Part → Option Float
  | number value => some value
  | _ => none

/-- The content of a part that is a text. -/
@[simp] def text? : Part → Option String
  | text content => some content
  | _ => none

/-- The tree of a part that is one. -/
@[simp] def tree? : Part → Option Node
  | tree node => some node
  | _ => none

/-- The trees of a part that is a list of them. -/
@[simp] def trees? : Part → Option (List Node)
  | trees nodes => some nodes
  | _ => none

/-- The node that has the given parts. -/
def assemble? (parts : List (String × Part)) : Option Node :=
  let named {α : Type} (kind : Part → Option α) (name : String) : Option α :=
    (parts.lookup name).bind kind
  match named text? "type" with
  | some "NumberLiteral" => return .number (← named number? "value")
  | some "StringLiteral" => return .text (← named text? "value")
  | some "BoolLiteral" => return .truth (← named truth? "value")
  | some "Identifier" => return .name (← named text? "name")
  | some "PriceField" => return .price (← PriceField.ofName? (← named text? "field"))
  | some "BinaryOp" => do
    let operator ← BinaryOperator.ofSymbol? (← named text? "operator")
    return .binary operator (← named tree? "left") (← named tree? "right")
  | some "UnaryOp" => do
    let operator ← UnaryOperator.ofSymbol? (← named text? "operator")
    return .unary operator (← named tree? "operand")
  | some "FunctionCall" => return .call (← named text? "name") (← named trees? "args")
  | some "Conditional" =>
    match parts.lookup "else" with
    | some null => return .ifThen (← named tree? "condition") (← named tree? "then")
    | _ =>
      return .ifThenElse (← named tree? "condition") (← named tree? "then") (← named tree? "else")
  | some "Assignment" => return .assign (← named text? "identifier") (← named tree? "expression")
  | some "BuyCondition" => return .buy (← named tree? "condition")
  | some "SellCondition" => return .sell (← named tree? "condition")
  | some "Strategy" => return .strategy (← named text? "name") (← named trees? "rules")
  | some "IndexAccess" => return .past (← named tree? "object") (← named tree? "index")
  | _ => none

mutual

/-- The part that a document stands for. -/
def ofJson? : Json → Option Part
  | .null => some null
  | .bool value => some (truth value)
  | .float value => some (number value)
  | .integer _ => none
  | .text content => some (text content)
  | .array items => (treesOfJson? items).map trees
  | .object members => ((membersOfJson? members).bind assemble?).map tree

/-- The trees that the items of an array stand for. -/
def treesOfJson? : List Json → Option (List Node)
  | [] => some []
  | item :: rest => do return (← (← ofJson? item).tree?) :: (← treesOfJson? rest)

/-- The parts that the members of an object stand for. -/
def membersOfJson? : List (String × Json) → Option (List (String × Part))
  | [] => some []
  | member :: rest => do return (← memberOfJson? member) :: (← membersOfJson? rest)

/-- The part that a member of an object stands for. -/
def memberOfJson? : String × Json → Option (String × Part)
  | (name, value) => (ofJson? value).map (name, ·)

end

/-- A list of trees is found from its documents when each tree is. -/
theorem treesOfJson?_listToJson {nodes : List Node}
    (hnodes : ∀ node ∈ nodes, ofJson? node.toJson = some (tree node)) :
    treesOfJson? (Node.listToJson nodes) = some nodes := by
  induction nodes with
  | nil => rfl
  | cons node rest ih =>
    obtain ⟨hnode, hrest⟩ := List.forall_mem_cons.1 hnodes
    simp [Node.listToJson, treesOfJson?, hnode, ih hrest]

/-- A tree is found from its document. -/
theorem ofJson?_toJson (node : Node) : ofJson? node.toJson = some (tree node) := by
  induction node using Node.inductionOnChildren with
  | step node ih =>
    cases node with
    | call callee arguments =>
      have harguments : treesOfJson? (Node.listToJson arguments) = some arguments :=
        treesOfJson?_listToJson ih
      simp [Node.toJson, Node.tagged, ofJson?, membersOfJson?, memberOfJson?, harguments,
        assemble?, List.lookup]
    | strategy title rules =>
      have hrules : treesOfJson? (Node.listToJson rules) = some rules := treesOfJson?_listToJson ih
      simp [Node.toJson, Node.tagged, ofJson?, membersOfJson?, memberOfJson?, hrules, assemble?,
        List.lookup]
    | _ =>
      -- each part is found from its member, and the parts are put together again
      simp only [Node.children, List.forall_mem_cons, List.not_mem_nil, false_imp_iff, implies_true,
        and_true] at ih
      simp [Node.toJson, Node.tagged, ofJson?, membersOfJson?, memberOfJson?, ih, assemble?,
        List.lookup]

end Part

namespace Node

/-- Every number that is written in a tree is finite. -/
def HasFiniteNumbers (node : Node) : Prop :=
  ∀ value, Within (.number value) node → value.isFinite = true

/-- The numbers of a tree are the root, if it is one, and those of its children. -/
theorem hasFiniteNumbers_iff (node : Node) :
    node.HasFiniteNumbers ↔
      (∀ value, node = .number value → value.isFinite = true) ∧
        ∀ child ∈ node.children, child.HasFiniteNumbers := by
  constructor
  · exact fun hnode => ⟨fun value heq => hnode value (heq ▸ .self),
      fun child hchild value hpart => hnode value (.inside hchild hpart)⟩
  · intro ⟨hroot, hchildren⟩ value hpart
    rcases (within_iff (.number value) node).1 hpart with heq | ⟨child, hchild, hpart⟩
    · exact hroot value heq.symm
    · exact hchildren child hchild value hpart

/-- A list of trees is written without loss if each of them is. -/
theorem readable_listToJson {nodes : List Node} (hnodes : ∀ node ∈ nodes, node.toJson.Readable) :
    (Json.array (listToJson nodes)).Readable := by
  refine .array ?_
  induction nodes with
  | nil => simp [listToJson]
  | cons node rest ih =>
    obtain ⟨hnode, hrest⟩ := List.forall_mem_cons.1 hnodes
    exact List.forall_mem_cons.2 ⟨hnode, ih hrest⟩

/-- An object with a type is written without loss if its members are. -/
theorem readable_tagged {type : String} {members : List (String × Json)}
    (hmembers : ∀ member ∈ members, member.2.Readable) : (tagged type members).Readable :=
  .object (List.forall_mem_cons.2 ⟨.text type, hmembers⟩)

/-- With finite numbers a tree is written without loss. -/
theorem readable_toJson {node : Node} (hnode : node.HasFiniteNumbers) : node.toJson.Readable := by
  induction node using inductionOnChildren with
  | step node ih =>
    obtain ⟨hroot, hfinite⟩ := (hasFiniteNumbers_iff node).1 hnode
    have hchildren : ∀ child ∈ node.children, child.toJson.Readable := fun child hchild =>
      ih child hchild (hfinite child hchild)
    cases node with
    | number value =>
      exact readable_tagged (List.forall_mem_singleton.2 (.float (hroot value rfl)))
    | call callee arguments =>
      have harguments : (Json.array (listToJson arguments)).Readable :=
        readable_listToJson hchildren
      exact readable_tagged (by simp [harguments])
    | strategy title rules =>
      have hrules : (Json.array (listToJson rules)).Readable := readable_listToJson hchildren
      exact readable_tagged (by simp [hrules])
    | _ =>
      simp only [children, List.forall_mem_cons, List.not_mem_nil, false_imp_iff, implies_true,
        and_true] at hchildren
      exact readable_tagged (by simp [hchildren])

end Node

namespace Program

/-- The program that a document stands for. -/
def ofJson? (document : Json) : Option Program :=
  match Part.ofJson? document with
  | some (.tree node) => some (expression node)
  | some (.trees nodes) => some (sequence nodes)
  | _ => none

/-- The program that a JSON text stands for. -/
def ofJsonText? (s : String) : Option Program :=
  (Json.read? s).bind ofJson?

/-- Every number that is written in a program is finite. -/
def HasFiniteNumbers (program : Program) : Prop :=
  ∀ node ∈ program.statements, node.HasFiniteNumbers

/-- A program is found from its document. -/
theorem ofJson?_toJson (program : Program) : ofJson? program.toJson = some program := by
  cases program with
  | expression node => rw [ofJson?, toJson, Part.ofJson?_toJson]
  | sequence nodes =>
    have hnodes := Part.treesOfJson?_listToJson fun node (_ : node ∈ nodes) =>
      Part.ofJson?_toJson node
    rw [ofJson?, toJson, Part.ofJson?, hnodes, Option.map_some]

/-- A program whose numbers are finite is written without loss. -/
theorem readable_toJson {program : Program} (hprogram : program.HasFiniteNumbers) :
    program.toJson.Readable := by
  cases program with
  | expression node => exact Node.readable_toJson (hprogram node (List.mem_singleton_self node))
  | sequence nodes =>
    exact Node.readable_listToJson fun node hnode => Node.readable_toJson (hprogram node hnode)

/-- The JSON of a program loses nothing: the program is found from its text, so programs with the
    same text are equal. -/
theorem json_lossless {program : Program} (hprogram : program.HasFiniteNumbers) :
    ofJsonText? program.toJson.compact = some program ∧
      ∀ other : Program, other.HasFiniteNumbers →
        other.toJson.compact = program.toJson.compact → other = program := by
  have hfound : ∀ program : Program, program.HasFiniteNumbers →
      ofJsonText? program.toJson.compact = some program := fun program hprogram => by
    rw [ofJsonText?, Json.read?_compact (readable_toJson hprogram), Option.bind_some,
      ofJson?_toJson]
  refine ⟨hfound program hprogram, fun other hother htext => ?_⟩
  have hboth := hfound other hother
  rw [htext, hfound program hprogram] at hboth
  exact (Option.some.inj hboth).symm

/-- A rule with minus zero and a quote, next to a conditional without an alternative. -/
theorem json_lossless_minus_zero :
    let program : Program := .sequence
      [.buy (.binary .gt (.price .closing) (.number (-0.0))), .ifThen (.name "x") (.text "\"")]
    program.HasFiniteNumbers ∧ ofJsonText? program.toJson.compact = some program ∧
      ∀ other : Program, other.HasFiniteNumbers →
        other.toJson.compact = program.toJson.compact → other = program := by
  intro program
  have hprogram : program.HasFiniteNumbers := by
    simp [HasFiniteNumbers, program, statements, Node.children, Node.hasFiniteNumbers_iff (.buy _),
      Node.hasFiniteNumbers_iff (.binary _ _ _), Node.hasFiniteNumbers_iff (.price _),
      Node.hasFiniteNumbers_iff (.number _), Node.hasFiniteNumbers_iff (.ifThen _ _),
      Node.hasFiniteNumbers_iff (.name _), Node.hasFiniteNumbers_iff (.text _)]
    rfl
  exact ⟨hprogram, json_lossless hprogram⟩

end Program

end Candlewick
