import Lox.Syntax
import Lox.Token

/-! # Operators and how tightly they bind

The operators with two operands are ordered in six levels. On each level they
group to the left. -/

namespace Lox.Grammar

/-- An operator with two operands. -/
inductive Operator where
  | binary (op : BinaryOp)
  | logical (op : LogicalOp)
deriving Repr, DecidableEq

/-- The levels, from the loosest to the tightest. -/
inductive Level where
  | or
  | and
  | equality
  | comparison
  | term
  | factor
deriving Repr, DecidableEq

/-- The next tighter level; unary operators bind tighter than the last one. -/
def Level.tighter? : Level → Option Level
  | or => some .and
  | and => some .equality
  | equality => some .comparison
  | comparison => some .term
  | term => some .factor
  | factor => none

/-- The operator of a level that a token writes. -/
def Level.operator? : Level → TokenKind → Option Operator
  | or, .keyword .or => some (.logical .or)
  | and, .keyword .and => some (.logical .and)
  | equality, .symbol .bangEqual => some (.binary .notEqual)
  | equality, .symbol .equalEqual => some (.binary .equal)
  | comparison, .symbol .greater => some (.binary .greater)
  | comparison, .symbol .greaterEqual => some (.binary .greaterEqual)
  | comparison, .symbol .less => some (.binary .less)
  | comparison, .symbol .lessEqual => some (.binary .lessEqual)
  | term, .symbol .minus => some (.binary .subtract)
  | term, .symbol .plus => some (.binary .add)
  | factor, .symbol .slash => some (.binary .divide)
  | factor, .symbol .star => some (.binary .multiply)
  | _, _ => none

/-- The expression of an operator with its operands. -/
def Operator.apply (op : Operator) (left : Expr) (span : Span) (right : Expr) : Expr :=
  match op with
  | binary op => .binary left op span right
  | logical op => .logical left op span right

/-- The unary operator that a token writes. -/
def unaryOperator? : TokenKind → Option UnaryOp
  | .symbol .bang => some .not
  | .symbol .minus => some .negate
  | _ => none

/-- The constant that a token writes. -/
def literal? : TokenKind → Option Literal
  | .keyword .false_ => some (.bool false)
  | .keyword .true_ => some (.bool true)
  | .keyword .nil => some .nil
  | .number value => some (.number value)
  | .string text => some (.string text)
  | _ => none

end Lox.Grammar
