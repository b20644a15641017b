import Lox.Grammar.Rules
import Lox.Syntax

/-! # The names in a tree

All identifiers that are written in a tree: names that are declared, variables
that are used, parameters, properties and methods. -/

namespace Lox.Names

mutual

/-- The names in an expression. -/
def expr : Expr → List String
  | .literal .. | .this .. => []
  | .grouping inner _ => expr inner
  | .unary _ _ operand => expr operand
  | .binary left _ _ right => expr left ++ expr right
  | .logical left _ _ right => expr left ++ expr right
  | .var target => [target.name.text]
  | .assign target value => target.name.text :: expr value
  | .call callee _ arguments => expr callee ++ exprs arguments
  | .get object name => name.text :: expr object
  | .set object name value => name.text :: (expr object ++ expr value)
  | .super _ _ method => [method.text]
  | .lambda fn => lambda fn

/-- The names in expressions. -/
def exprs : List Expr → List String
  | [] => []
  | e :: es => expr e ++ exprs es

/-- The names in a function. -/
def lambda : Lambda → List String
  | ⟨params, body, _⟩ => params.map Ident.text ++ stmts body

/-- The names in a statement. -/
def stmt : Stmt → List String
  | .expression value => expr value
  | .print value => expr value
  | .var name none => [name.text]
  | .var name (some value) => name.text :: expr value
  | .block body => stmts body
  | .ifElse condition thenBranch none => expr condition ++ stmt thenBranch
  | .ifElse condition thenBranch (some elseBranch) =>
    expr condition ++ stmt thenBranch ++ stmt elseBranch
  | .while_ condition body => expr condition ++ stmt body
  | .break_ _ => []
  | .return_ _ none => []
  | .return_ _ (some value) => expr value
  | .function name fn => name.text :: lambda fn
  | .class_ name none declared => name.text :: methods declared
  | .class_ name (some parent) declared => name.text :: parent.name.text :: methods declared

/-- The names in statements. -/
def stmts : List Stmt → List String
  | [] => []
  | s :: ss => stmt s ++ stmts ss

/-- The names in methods. -/
def methods : List Method → List String
  | [] => []
  | ⟨name, fn⟩ :: ms => name.text :: (lambda fn ++ methods ms)

end

end Lox.Names

/-! ## The uses of variables in a tree

The nodes at which a variable is read or gets another value. A class uses the
variable that its superclass is the value of. -/

namespace Lox.Uses

mutual

/-- The uses in an expression. -/
def expr : Expr → List Reference
  | .literal .. | .this .. | .super .. => []
  | .grouping inner _ => expr inner
  | .unary _ _ operand => expr operand
  | .binary left _ _ right => expr left ++ expr right
  | .logical left _ _ right => expr left ++ expr right
  | .var target => [target]
  | .assign target value => target :: expr value
  | .call callee _ arguments => expr callee ++ exprs arguments
  | .get object _ => expr object
  | .set object _ value => expr object ++ expr value
  | .lambda fn => lambda fn

/-- The uses in expressions. -/
def exprs : List Expr → List Reference
  | [] => []
  | e :: es => expr e ++ exprs es

/-- The uses in a function. -/
def lambda : Lambda → List Reference
  | ⟨_, body, _⟩ => stmts body

/-- The uses in a statement. -/
def stmt : Stmt → List Reference
  | .expression value => expr value
  | .print value => expr value
  | .var _ none => []
  | .var _ (some value) => expr value
  | .block body => stmts body
  | .ifElse condition thenBranch none => expr condition ++ stmt thenBranch
  | .ifElse condition thenBranch (some elseBranch) =>
    expr condition ++ (stmt thenBranch ++ stmt elseBranch)
  | .while_ condition body => expr condition ++ stmt body
  | .break_ _ => []
  | .return_ _ none => []
  | .return_ _ (some value) => expr value
  | .function _ fn => lambda fn
  | .class_ _ none declared => methods declared
  | .class_ _ (some parent) declared => parent :: methods declared

/-- The uses in statements. -/
def stmts : List Stmt → List Reference
  | [] => []
  | s :: ss => stmt s ++ stmts ss

/-- The uses in methods. -/
def methods : List Method → List Reference
  | [] => []
  | ⟨_, fn⟩ :: ms => lambda fn ++ methods ms

end

end Lox.Uses

/-! # The expressions in a tree

All expressions of a tree: those of its statements, and those in other
expressions. The superclass of a class counts as a variable. -/

namespace Lox.Parts

mutual

/-- An expression and the expressions in it. -/
def expr : Expr → List Expr
  | .literal value span => [.literal value span]
  | .grouping inner span => .grouping inner span :: expr inner
  | .unary op opSpan operand => .unary op opSpan operand :: expr operand
  | .binary left op opSpan right => .binary left op opSpan right :: (expr left ++ expr right)
  | .logical left op opSpan right => .logical left op opSpan right :: (expr left ++ expr right)
  | .var target => [.var target]
  | .assign target value => .assign target value :: expr value
  | .call callee paren arguments =>
    .call callee paren arguments :: (expr callee ++ exprs arguments)
  | .get object name => .get object name :: expr object
  | .set object name value => .set object name value :: (expr object ++ expr value)
  | .this id span => [.this id span]
  | .super id keyword method => [.super id keyword method]
  | .lambda fn => .lambda fn :: lambda fn

/-- The expressions in expressions. -/
def exprs : List Expr → List Expr
  | [] => []
  | e :: es => expr e ++ exprs es

/-- The expressions in a function. -/
def lambda : Lambda → List Expr
  | ⟨_, body, _⟩ => stmts body

/-- The expressions in a statement. -/
def stmt : Stmt → List Expr
  | .expression value => expr value
  | .print value => expr value
  | .var _ none => []
  | .var _ (some value) => expr value
  | .block body => stmts body
  | .ifElse condition thenBranch none => expr condition ++ stmt thenBranch
  | .ifElse condition thenBranch (some elseBranch) =>
    expr condition ++ (stmt thenBranch ++ stmt elseBranch)
  | .while_ condition body => expr condition ++ stmt body
  | .break_ _ => []
  | .return_ _ none => []
  | .return_ _ (some value) => expr value
  | .function _ fn => lambda fn
  | .class_ _ none declared => methods declared
  | .class_ _ (some parent) declared => .var parent :: methods declared

/-- The expressions in statements. -/
def stmts : List Stmt → List Expr
  | [] => []
  | s :: ss => stmt s ++ stmts ss

/-- The expressions in methods. -/
def methods : List Method → List Expr
  | [] => []
  | ⟨_, fn⟩ :: ms => lambda fn ++ methods ms

end

/-- The expressions in a method. -/
def method (m : Method) : List Expr := lambda m.fn

/-- The expressions in a statement that may be absent. -/
def initializer (s : Option Stmt) : List Expr := s.elim [] stmt

/-- The expressions in an expression that may be absent. -/
def optional (e : Option Expr) : List Expr := e.elim [] expr

open Grammar

/-- An operator stands above its operands. -/
theorem expr_apply (op : Operator) (left : Expr) (span : Span) (right : Expr) :
    expr (op.apply left span right) =
      op.apply left span right :: (expr left ++ expr right) := by
  cases op <;> rfl

theorem stmt_class (name : Ident) (parent : Option Reference) (ms : List Method) :
    stmt (.class_ name parent ms) = (parent.map Expr.var).toList ++ methods ms := by
  cases parent <;> rfl

theorem stmt_return (keyword : Span) (value : Option Expr) :
    stmt (.return_ keyword value) = optional value := by
  cases value <;> rfl

theorem methods_cons (m : Method) (ms : List Method) :
    methods (m :: ms) = method m ++ methods ms := by
  cases m
  rfl

/-- A loop has the expressions of its clauses, and `true` in place of a condition that is not
written. -/
theorem mem_desugarFor {keyword : Span} {start : Option Stmt} {condition step : Option Expr}
    {body : Stmt} {e : Expr} (h : e ∈ stmt (desugarFor keyword start condition step body)) :
    e ∈ initializer start ∨ e ∈ optional condition ∨ e ∈ optional step ∨ e ∈ stmt body ∨
      e = .literal (.bool true) keyword := by
  cases start <;> cases condition <;> cases step <;>
    simp [desugarFor, stmt, stmts, expr, initializer, optional] at h ⊢ <;> grind

end Lox.Parts
