import Candlewick.Evaluation.Fault

namespace Candlewick.Value

/-- Whether two values are equal. Values of different types are not. -/
def equals : Value → Value → Bool
  | number a, number b => a == b
  | bool a, bool b => a == b
  | text a, text b => a == b
  | na, na => true
  | _, _ => false

/-- Arithmetic on two numbers; `na` if one operand is `na`. -/
def arithmetic (operator : BinaryOperator) (f : Float → Float → Float) :
    Value → Value → Except EvalFault Value
  | number a, number b => .ok (number (f a b))
  | na, _ | _, na => .ok na
  | left, right => .error (.cannotApply operator left.type right.type)

/-- An order between two numbers or two texts; it does not hold if one operand is `na`. -/
def order (operator : BinaryOperator) (numbers : Float → Float → Bool)
    (texts : String → String → Bool) : Value → Value → Except EvalFault Value
  | na, _ | _, na => .ok (bool false)
  | number a, number b => .ok (bool (numbers a b))
  | text a, text b => .ok (bool (texts a b))
  | left, right => .error (.cannotApply operator left.type right.type)

/-- The value of an operator between two values. Texts can be added. -/
def binary (operator : BinaryOperator) (left right : Value) : Except EvalFault Value :=
  match operator with
  | .and => .ok (bool (left.isTrue && right.isTrue))
  | .or => .ok (bool (left.isTrue || right.isTrue))
  | .eq => .ok (bool (left.equals right))
  | .ne => .ok (bool !left.equals right)
  | .gt => order operator (fun a b => decide (b < a)) (fun a b => decide (b < a)) left right
  | .ge => order operator (fun a b => decide (b ≤ a)) (fun a b => !decide (a < b)) left right
  | .lt => order operator (fun a b => decide (a < b)) (fun a b => decide (a < b)) left right
  | .le => order operator (fun a b => decide (a ≤ b)) (fun a b => !decide (b < a)) left right
  | .add =>
    match left, right with
    | text a, text b => .ok (text (a ++ b))
    | _, _ => arithmetic operator (· + ·) left right
  | .sub => arithmetic operator (· - ·) left right
  | .mul => arithmetic operator (· * ·) left right
  | .div => arithmetic operator (· / ·) left right
  | .mod => arithmetic operator Decimal.remainder left right
  | .pow => arithmetic operator Float.pow left right

/-- The value of an operator in front of a value. -/
def unary (operator : UnaryOperator) (operand : Value) : Except EvalFault Value :=
  match operator, operand with
  | .not, _ => .ok (bool !operand.isTrue)
  | .neg, number a => .ok (number (-a))
  | .neg, na => .ok na
  | .neg, _ => .error (.cannotNegate operand.type)

end Candlewick.Value
