import Lox.Syntax
import Lox.Token.Listing

/-! # Trees as documents

A tree as a document: a node is an object with one field, named for the kind of
the node, that holds the parts. -/

namespace Lox.Dump

/-- A node: its kind and its parts. -/
def node (kind : String) (parts : Json) : Json := .object [(kind, parts)]

/-- A name. -/
def ident (name : Ident) : Json :=
  .object [("name", .string name.text), ("span", name.span.toJson)]

/-- A name that may be absent. -/
def ident? : Option Ident → Json
  | some name => ident name
  | none => .null

/-- A constant. -/
def literal : Literal → Json
  | .number value => node "Number" (.float value)
  | .string value => node "Str" (.string value)
  | .bool value => node "Bool" (.bool value)
  | .nil => .string "Nil"

/-- The name of a unary operator. -/
def unaryName : UnaryOp → String
  | .negate => "Negate"
  | .not => "Not"

/-- The name of a binary operator. -/
def binaryName : BinaryOp → String
  | .add => "Add"
  | .subtract => "Subtract"
  | .multiply => "Multiply"
  | .divide => "Divide"
  | .equal => "Equal"
  | .notEqual => "NotEqual"
  | .less => "Less"
  | .lessEqual => "LessEqual"
  | .greater => "Greater"
  | .greaterEqual => "GreaterEqual"

/-- The name of a logical operator. -/
def logicalName : LogicalOp → String
  | .and => "And"
  | .or => "Or"

/-- A use of a variable. -/
def reference (target : Reference) : Json :=
  node "Variable" (.object [("id", .natural target.id), ("name", ident target.name)])

/-- The parts of a node with two operands. -/
def operands (left : Json) (op : String) (opSpan : Span) (right : Json) : Json :=
  .object [("left", left), ("op", .string op), ("op_span", opSpan.toJson), ("right", right)]

mutual

/-- An expression. -/
def expr : Expr → Json
  | .literal value span =>
    node "Literal" (.object [("value", literal value), ("span", span.toJson)])
  | .grouping inner span =>
    node "Grouping" (.object [("expr", expr inner), ("span", span.toJson)])
  | .unary op opSpan operand =>
    node "Unary" (.object [("op", .string (unaryName op)), ("op_span", opSpan.toJson),
      ("right", expr operand)])
  | .binary left op opSpan right =>
    node "Binary" (operands (expr left) (binaryName op) opSpan (expr right))
  | .logical left op opSpan right =>
    node "Logical" (operands (expr left) (logicalName op) opSpan (expr right))
  | .var target => reference target
  | .assign target value =>
    node "Assign" (.object [("id", .natural target.id), ("name", ident target.name),
      ("value", expr value)])
  | .call callee paren arguments =>
    node "Call" (.object [("callee", expr callee), ("paren", paren.toJson),
      ("arguments", .array (exprs arguments))])
  | .get object name => node "Get" (.object [("object", expr object), ("name", ident name)])
  | .set object name value =>
    node "Set" (.object [("object", expr object), ("name", ident name), ("value", expr value)])
  | .this id span => node "This" (.object [("id", .natural id), ("span", span.toJson)])
  | .super id keyword method =>
    node "Super" (.object [("id", .natural id), ("keyword", keyword.toJson),
      ("method", ident method)])
  | .lambda fn => node "Lambda" (function none fn)

/-- A function, with its name if it has one. -/
def function (name : Option Ident) : Lambda → Json
  | ⟨params, body, span⟩ =>
    .object [("name", ident? name), ("params", .array (params.map ident)),
      ("body", .array (stmts body)), ("span", span.toJson)]

/-- A statement. -/
def stmt : Stmt → Json
  | .expression value => node "Expression" (expr value)
  | .print value => node "Print" (expr value)
  | .var name none => node "Var" (.object [("name", ident name), ("initializer", .null)])
  | .var name (some value) =>
    node "Var" (.object [("name", ident name), ("initializer", expr value)])
  | .block body => node "Block" (.array (stmts body))
  | .ifElse condition thenBranch none =>
    node "If" (.object [("condition", expr condition), ("then_branch", stmt thenBranch),
      ("else_branch", .null)])
  | .ifElse condition thenBranch (some elseBranch) =>
    node "If" (.object [("condition", expr condition), ("then_branch", stmt thenBranch),
      ("else_branch", stmt elseBranch)])
  | .while_ condition body =>
    node "While" (.object [("condition", expr condition), ("body", stmt body)])
  | .break_ keyword => node "Break" keyword.toJson
  | .return_ keyword none =>
    node "Return" (.object [("keyword", keyword.toJson), ("value", .null)])
  | .return_ keyword (some value) =>
    node "Return" (.object [("keyword", keyword.toJson), ("value", expr value)])
  | .function name fn => node "Function" (function (some name) fn)
  | .class_ name superclass declared =>
    let parent := match superclass with
      | some target => reference target
      | none => .null
    node "Class" (.object [("name", ident name), ("superclass", parent),
      ("methods", .array (methods declared))])

/-- Expressions in order. -/
def exprs : List Expr → List Json
  | [] => []
  | e :: es => expr e :: exprs es

/-- Statements in order. -/
def stmts : List Stmt → List Json
  | [] => []
  | s :: ss => stmt s :: stmts ss

/-- Methods in order. -/
def methods : List Method → List Json
  | [] => []
  | ⟨name, fn⟩ :: ms => function (some name) fn :: methods ms

end

/-- A program as a document. -/
def program (statements : List Stmt) : Json := .array (stmts statements)

end Lox.Dump
