import Lox.Diagnostic
import Lox.Syntax
import Lox.Value

/-! # What operators do to values -/

namespace Lox

/-- The value of a constant. -/
def Literal.value : Literal → Value
  | number value => .number value
  | string value => .string value
  | bool value => .bool value
  | nil => .nil

/-- A unary operator. -/
def UnaryOp.apply (op : UnaryOp) (operand : Value) : Except RuntimeError Value :=
  match op, operand with
  | .not, v => .ok (.bool !v.truthy)
  | .negate, .number x => .ok (.number (-x))
  | .negate, _ => .error .operandNotNumber

/-- An operator on two numbers. -/
def onNumbers (f : Float → Float → Value) (left right : Value) : Except RuntimeError Value :=
  match left, right with
  | .number a, .number b => .ok (f a b)
  | _, _ => .error .operandsNotNumbers

/-- Numbers are added, strings joined. -/
def addValues (left right : Value) : Except RuntimeError Value :=
  match left, right with
  | .number a, .number b => .ok (.number (a + b))
  | .string a, .string b => .ok (.string (a ++ b))
  | _, _ => .error .operandsNotAddable

/-- A binary operator. -/
def BinaryOp.apply (op : BinaryOp) (left right : Value) : Except RuntimeError Value :=
  match op with
  | add => addValues left right
  | subtract => onNumbers (fun a b => .number (a - b)) left right
  | multiply => onNumbers (fun a b => .number (a * b)) left right
  | divide => onNumbers (fun a b => .number (a / b)) left right
  | less => onNumbers (fun a b => .bool (a < b)) left right
  | lessEqual => onNumbers (fun a b => .bool (a ≤ b)) left right
  | greater => onNumbers (fun a b => .bool (b < a)) left right
  | greaterEqual => onNumbers (fun a b => .bool (b ≤ a)) left right
  | equal => .ok (.bool (left.same right))
  | notEqual => .ok (.bool !(left.same right))

/-- Whether the left operand is already the result. -/
def LogicalOp.settledBy (op : LogicalOp) (left : Value) : Bool :=
  match op with
  | or => left.truthy
  | and => !left.truthy

end Lox
