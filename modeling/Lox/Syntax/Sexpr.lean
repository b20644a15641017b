import Lox.Number.Format
import Lox.Syntax

/-! # Trees in prefix form

A tree is printed as a parenthesised form: the operator or the kind of the
statement first, then the parts, such as `(+ 1.0 (group 2.0))`. -/

namespace Lox

namespace UnaryOp

/-- The operator as it is written. -/
def symbol : UnaryOp → String
  | negate => "-"
  | not => "!"

end UnaryOp

namespace BinaryOp

/-- The operator as it is written. -/
def symbol : BinaryOp → String
  | add => "+"
  | subtract => "-"
  | multiply => "*"
  | divide => "/"
  | equal => "=="
  | notEqual => "!="
  | less => "<"
  | lessEqual => "<="
  | greater => ">"
  | greaterEqual => ">="

end BinaryOp

namespace LogicalOp

/-- The operator as it is written. -/
def symbol : LogicalOp → String
  | and => "and"
  | or => "or"

end LogicalOp

/-- A constant in a printed tree: strings stand bare. -/
def Literal.sexpr : Literal → String
  | number value => Number.Format.literal.write value
  | string value => value
  | bool value => if value then "true" else "false"
  | nil => "nil"

namespace Sexpr

/-- What opens a named or unnamed function: its label, its name, its parameters. -/
def head (label : String) (name : Option String) (params : List Ident) : String :=
  let named := match name with
    | some text => text ++ " "
    | none => ""
  "(" ++ label ++ " " ++ named ++ "(" ++ String.intercalate " " (params.map Ident.text) ++ ")"

mutual

/-- An expression. -/
def expr : Expr → String
  | .literal value _ => value.sexpr
  | .grouping inner _ => "(group " ++ expr inner ++ ")"
  | .unary op _ operand => "(" ++ op.symbol ++ " " ++ expr operand ++ ")"
  | .binary left op _ right => "(" ++ op.symbol ++ " " ++ expr left ++ " " ++ expr right ++ ")"
  | .logical left op _ right => "(" ++ op.symbol ++ " " ++ expr left ++ " " ++ expr right ++ ")"
  | .var target => target.name.text
  | .assign target value => "(= " ++ target.name.text ++ " " ++ expr value ++ ")"
  | .call callee _ arguments => exprs ("(call " ++ expr callee) arguments ++ ")"
  | .get object name => "(. " ++ expr object ++ " " ++ name.text ++ ")"
  | .set object name value =>
    "(= (. " ++ expr object ++ " " ++ name.text ++ ") " ++ expr value ++ ")"
  | .this _ _ => "this"
  | .super _ _ method => "(super " ++ method.text ++ ")"
  | .lambda fn => function "fun" none fn

/-- A function: its head, then the statements of its body. -/
def function (label : String) (name : Option String) : Lambda → String
  | ⟨params, body, _⟩ => stmts (head label name params) body ++ ")"

/-- A statement. -/
def stmt : Stmt → String
  | .expression value => "(; " ++ expr value ++ ")"
  | .print value => "(print " ++ expr value ++ ")"
  | .var name none => "(var " ++ name.text ++ ")"
  | .var name (some value) => "(var " ++ name.text ++ " " ++ expr value ++ ")"
  | .block body => stmts "(block" body ++ ")"
  | .ifElse condition thenBranch none =>
    "(if " ++ expr condition ++ " " ++ stmt thenBranch ++ ")"
  | .ifElse condition thenBranch (some elseBranch) =>
    "(if " ++ expr condition ++ " " ++ stmt thenBranch ++ " " ++ stmt elseBranch ++ ")"
  | .while_ condition body => "(while " ++ expr condition ++ " " ++ stmt body ++ ")"
  | .break_ _ => "(break)"
  | .return_ _ none => "(return)"
  | .return_ _ (some value) => "(return " ++ expr value ++ ")"
  | .function name fn => function "fun" (some name.text) fn
  | .class_ name superclass declared =>
    let opened := match superclass with
      | some parent => "(class " ++ name.text ++ " < " ++ parent.name.text
      | none => "(class " ++ name.text
    methods opened declared ++ ")"

/-- Expressions after `out`, each behind a space. -/
def exprs (out : String) : List Expr → String
  | [] => out
  | e :: es => exprs (out ++ " " ++ expr e) es

/-- Statements after `out`, each behind a space. -/
def stmts (out : String) : List Stmt → String
  | [] => out
  | s :: ss => stmts (out ++ " " ++ stmt s) ss

/-- Methods after `out`, each behind a space. -/
def methods (out : String) : List Method → String
  | [] => out
  | ⟨name, fn⟩ :: ms => methods (out ++ " " ++ function "method" (some name.text) fn) ms

end

end Sexpr

/-- An expression in prefix form. -/
def Expr.sexpr (e : Expr) : String := Sexpr.expr e

/-- A statement in prefix form. -/
def Stmt.sexpr (s : Stmt) : String := Sexpr.stmt s

end Lox
