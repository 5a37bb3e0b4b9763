import Candlewick.Candle

namespace Candlewick

/-- Operators between two operands. -/
inductive BinaryOperator where
  | add
  | sub
  | mul
  | div
  | mod
  | pow
  | gt
  | ge
  | lt
  | le
  | eq
  | ne
  | and
  | or
deriving DecidableEq

/-- An operator as it is written. -/
def BinaryOperator.symbol : BinaryOperator → String
  | add => "+"
  | sub => "-"
  | mul => "*"
  | div => "/"
  | mod => "%"
  | pow => "^"
  | gt => ">"
  | ge => ">="
  | lt => "<"
  | le => "<="
  | eq => "=="
  | ne => "!="
  | and => "and"
  | or => "or"

/-- Operators in front of one operand. -/
inductive UnaryOperator where
  | neg
  | not
deriving DecidableEq

/-- An operator as it is written. -/
def UnaryOperator.symbol : UnaryOperator → String
  | neg => "-"
  | not => "not"

/-- A syntax tree. -/
inductive Node where
  | number (value : Float)
  | text (content : String)
  | truth (value : Bool)
  | name (word : String)
  | price (field : PriceField)
  | binary (operator : BinaryOperator) (left right : Node)
  | unary (operator : UnaryOperator) (operand : Node)
  | call (callee : String) (arguments : List Node)
  | ifThen (condition consequent : Node)
  | ifThenElse (condition consequent alternative : Node)
  | assign (target : String) (value : Node)
  | buy (condition : Node)
  | sell (condition : Node)
  | strategy (title : String) (rules : List Node)
  | past (object offset : Node)

namespace Node

/-- The trees directly below the root, from left to right. -/
def children : Node → List Node
  | number _ | text _ | truth _ | name _ | price _ => []
  | binary _ left right => [left, right]
  | unary _ operand => [operand]
  | call _ arguments => arguments
  | ifThen condition consequent => [condition, consequent]
  | ifThenElse condition consequent alternative => [condition, consequent, alternative]
  | assign _ value => [value]
  | buy condition => [condition]
  | sell condition => [condition]
  | strategy _ rules => rules
  | past object offset => [object, offset]

mutual

/-- The number of nodes of a tree. -/
def size : Node → Nat
  | number _ | text _ | truth _ | name _ | price _ => 1
  | binary _ left right => left.size + right.size + 1
  | unary _ operand => operand.size + 1
  | call _ arguments => sizes arguments + 1
  | ifThen condition consequent => condition.size + consequent.size + 1
  | ifThenElse condition consequent alternative =>
    condition.size + consequent.size + alternative.size + 1
  | assign _ value => value.size + 1
  | buy condition => condition.size + 1
  | sell condition => condition.size + 1
  | strategy _ rules => sizes rules + 1
  | past object offset => object.size + offset.size + 1

/-- The number of nodes of several trees. -/
def sizes : List Node → Nat
  | [] => 0
  | node :: rest => node.size + sizes rest

end

theorem sizes_append (front back : List Node) :
    sizes (front ++ back) = sizes front + sizes back := by
  induction front with
  | nil => simp [sizes]
  | cons node rest ih => simp only [List.cons_append, sizes, ih]; omega

/-- A tree has one node more than the trees below its root. -/
theorem size_eq (node : Node) : node.size = sizes node.children + 1 := by
  cases node <;> simp [size, sizes, children]; omega

/-- The greatest level among the nodes of some trees, each with the level of its root. The trees
    still to be visited are kept in a list, so the walk does not nest. -/
def deepest (reached : Nat) : List (Node × Nat) → Nat
  | [] => reached
  | (node, level) :: pending =>
    deepest (max reached level) (node.children.map (·, level + 1) ++ pending)
termination_by pending => sizes (pending.map Prod.fst)
decreasing_by
  simp only [List.map_append, List.map_map, Function.comp_def, List.map_id', List.map_cons, sizes,
    sizes_append, size_eq node]
  omega

/-- The number of levels of a tree; a tree without branches has one. -/
def depth (node : Node) : Nat :=
  deepest 0 [(node, 1)]

/-- Whether a tree is a trading rule or a block of them. -/
def isRule : Node → Bool
  | strategy _ _ | buy _ | sell _ => true
  | _ => false

end Node

/-- A program: one expression, or a sequence of statements whose last value counts. -/
inductive Program where
  | expression (node : Node)
  | sequence (nodes : List Node)

namespace Program

/-- The program of a list of statements. -/
def ofStatements : List Node → Program
  | [node] => expression node
  | nodes => sequence nodes

/-- The statements of a program. -/
def statements : Program → List Node
  | expression node => [node]
  | sequence nodes => nodes

/-- A program made of some statements has just these statements, also where there is only one and no
    block. -/
@[simp] theorem statements_ofStatements (nodes : List Node) :
    (ofStatements nodes).statements = nodes := by
  unfold ofStatements
  split <;> rfl

/-- Whether one of the statements is a trading rule or a block of them. -/
def hasRules (program : Program) : Bool :=
  program.statements.any Node.isRule

end Program

end Candlewick
