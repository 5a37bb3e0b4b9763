import Candlewick.Json
import Candlewick.Node

namespace Candlewick

namespace Node

/-- The object of a node, which begins with its type. -/
def tagged (type : String) (members : List (String × Json)) : Json :=
  .object (("type", .text type) :: members)

mutual

/-- A tree as JSON. -/
def toJson : Node → Json
  | number value => tagged "NumberLiteral" [("value", .float value)]
  | text content => tagged "StringLiteral" [("value", .text content)]
  | truth value => tagged "BoolLiteral" [("value", .bool value)]
  | name word => tagged "Identifier" [("name", .text word)]
  | price field => tagged "PriceField" [("field", .text field.name)]
  | binary operator left right =>
    tagged "BinaryOp"
      [("operator", .text operator.symbol), ("left", left.toJson), ("right", right.toJson)]
  | unary operator operand =>
    tagged "UnaryOp" [("operator", .text operator.symbol), ("operand", operand.toJson)]
  | call callee arguments =>
    tagged "FunctionCall" [("name", .text callee), ("args", .array (listToJson arguments))]
  | ifThen condition consequent =>
    tagged "Conditional"
      [("condition", condition.toJson), ("then", consequent.toJson), ("else", .null)]
  | ifThenElse condition consequent alternative =>
    tagged "Conditional"
      [("condition", condition.toJson), ("then", consequent.toJson),
        ("else", alternative.toJson)]
  | assign target value =>
    tagged "Assignment" [("identifier", .text target), ("expression", value.toJson)]
  | buy condition => tagged "BuyCondition" [("condition", condition.toJson)]
  | sell condition => tagged "SellCondition" [("condition", condition.toJson)]
  | strategy title rules =>
    tagged "Strategy" [("name", .text title), ("rules", .array (listToJson rules))]
  | past object offset =>
    tagged "IndexAccess" [("object", object.toJson), ("index", offset.toJson)]

/-- Several trees as JSON. -/
def listToJson : List Node → List Json
  | [] => []
  | node :: rest => node.toJson :: listToJson rest

end

end Node

/-- A program as JSON: the node of a single expression, and an array of its statements otherwise. -/
def Program.toJson : Program → Json
  | expression node => node.toJson
  | sequence nodes => .array (Node.listToJson nodes)

end Candlewick
