import Lox.Syntax

/-! # The numbered nodes of a tree

The numbers of all nodes whose scope matters, in the order in which they stand
in the source; an assignment counts before its right side. -/

namespace Lox.Nodes

mutual

/-- The numbers in an expression, before `more`. -/
def expr (more : List Nat) : Expr → List Nat
  | .literal _ _ => more
  | .grouping inner _ => expr more inner
  | .unary _ _ operand => expr more operand
  | .binary left _ _ right => expr (expr more right) left
  | .logical left _ _ right => expr (expr more right) left
  | .var target => target.id :: more
  | .assign target value => target.id :: expr more value
  | .call callee _ arguments => expr (exprs more arguments) callee
  | .get object _ => expr more object
  | .set object _ value => expr (expr more value) object
  | .this id _ => id :: more
  | .super id _ _ => id :: more
  | .lambda fn => lambda more fn

/-- The numbers in expressions, before `more`. -/
def exprs (more : List Nat) : List Expr → List Nat
  | [] => more
  | e :: es => expr (exprs more es) e

/-- The numbers in a function, before `more`. -/
def lambda (more : List Nat) : Lambda → List Nat
  | ⟨_, body, _⟩ => stmts more body

/-- The numbers in a statement, before `more`. -/
def stmt (more : List Nat) : Stmt → List Nat
  | .expression value => expr more value
  | .print value => expr more value
  | .var _ none => more
  | .var _ (some value) => expr more value
  | .block body => stmts more body
  | .ifElse condition thenBranch none => expr (stmt more thenBranch) condition
  | .ifElse condition thenBranch (some elseBranch) =>
    expr (stmt (stmt more elseBranch) thenBranch) condition
  | .while_ condition body => expr (stmt more body) condition
  | .break_ _ => more
  | .return_ _ none => more
  | .return_ _ (some value) => expr more value
  | .function _ fn => lambda more fn
  | .class_ _ none declared => methods more declared
  | .class_ _ (some parent) declared => parent.id :: methods more declared

/-- The numbers in statements, before `more`. -/
def stmts (more : List Nat) : List Stmt → List Nat
  | [] => more
  | s :: ss => stmt (stmts more ss) s

/-- The numbers in methods, before `more`. -/
def methods (more : List Nat) : List Method → List Nat
  | [] => more
  | ⟨_, fn⟩ :: ms => lambda (methods more ms) fn

end

/-- The numbers in a program. -/
def program (statements : List Stmt) : List Nat := stmts [] statements

end Lox.Nodes
