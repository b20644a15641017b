import Lox.Syntax

/-! # Trees with other spans

The tree of a text that stands elsewhere is the same but for its spans. -/

namespace Lox

/-- A name that is written elsewhere. -/
def Ident.respan (σ : Span → Span) (name : Ident) : Ident := ⟨name.text, σ name.span⟩

/-- A use of a variable that is written elsewhere. -/
def Reference.respan (σ : Span → Span) (target : Reference) : Reference :=
  ⟨target.id, target.name.respan σ⟩

namespace Respan

variable (σ : Span → Span)

mutual

/-- An expression that is written elsewhere. -/
def expr : Expr → Expr
  | .literal value span => .literal value (σ span)
  | .grouping inner span => .grouping (expr inner) (σ span)
  | .unary op opSpan operand => .unary op (σ opSpan) (expr operand)
  | .binary left op opSpan right => .binary (expr left) op (σ opSpan) (expr right)
  | .logical left op opSpan right => .logical (expr left) op (σ opSpan) (expr right)
  | .var target => .var (target.respan σ)
  | .assign target value => .assign (target.respan σ) (expr value)
  | .call callee paren arguments => .call (expr callee) (σ paren) (exprs arguments)
  | .get object name => .get (expr object) (name.respan σ)
  | .set object name value => .set (expr object) (name.respan σ) (expr value)
  | .this id span => .this id (σ span)
  | .super id keyword method => .super id (σ keyword) (method.respan σ)
  | .lambda fn => .lambda (lambda fn)

/-- Expressions that are written elsewhere. -/
def exprs : List Expr → List Expr
  | [] => []
  | e :: es => expr e :: exprs es

/-- A function that is written elsewhere. -/
def lambda : Lambda → Lambda
  | ⟨params, body, span⟩ => ⟨params.map (Ident.respan σ), stmts body, σ span⟩

/-- A statement that is written elsewhere. -/
def stmt : Stmt → Stmt
  | .expression value => .expression (expr value)
  | .print value => .print (expr value)
  | .var name none => .var (name.respan σ) none
  | .var name (some value) => .var (name.respan σ) (some (expr value))
  | .block body => .block (stmts body)
  | .ifElse condition thenBranch none => .ifElse (expr condition) (stmt thenBranch) none
  | .ifElse condition thenBranch (some elseBranch) =>
    .ifElse (expr condition) (stmt thenBranch) (some (stmt elseBranch))
  | .while_ condition body => .while_ (expr condition) (stmt body)
  | .break_ keyword => .break_ (σ keyword)
  | .return_ keyword none => .return_ (σ keyword) none
  | .return_ keyword (some value) => .return_ (σ keyword) (some (expr value))
  | .function name fn => .function (name.respan σ) (lambda fn)
  | .class_ name none declared => .class_ (name.respan σ) none (methods declared)
  | .class_ name (some parent) declared =>
    .class_ (name.respan σ) (some (parent.respan σ)) (methods declared)

/-- Statements that are written elsewhere. -/
def stmts : List Stmt → List Stmt
  | [] => []
  | s :: ss => stmt s :: stmts ss

/-- Methods that are written elsewhere. -/
def methods : List Method → List Method
  | [] => []
  | ⟨name, fn⟩ :: ms => ⟨name.respan σ, lambda fn⟩ :: methods ms

end

mutual

/-- With the same spans a tree is the same. -/
theorem expr_id : ∀ e : Expr, expr id e = e
  | .literal .. => rfl
  | .grouping inner _ => by rw [expr, expr_id inner]; rfl
  | .unary _ _ operand => by rw [expr, expr_id operand]; rfl
  | .binary left _ _ right => by rw [expr, expr_id left, expr_id right]; rfl
  | .logical left _ _ right => by rw [expr, expr_id left, expr_id right]; rfl
  | .var _ => rfl
  | .assign _ value => by rw [expr, expr_id value]; rfl
  | .call callee _ arguments => by rw [expr, expr_id callee, exprs_id arguments]; rfl
  | .get object _ => by rw [expr, expr_id object]; rfl
  | .set object _ value => by rw [expr, expr_id object, expr_id value]; rfl
  | .this .. => rfl
  | .super .. => rfl
  | .lambda fn => by rw [expr, lambda_id fn]

theorem exprs_id : ∀ es : List Expr, exprs id es = es
  | [] => rfl
  | e :: es => by rw [exprs, expr_id e, exprs_id es]

theorem lambda_id : ∀ fn : Lambda, lambda id fn = fn
  | ⟨params, body, _⟩ => by
    have hparams : params.map (Ident.respan id) = params := List.map_id params
    rw [lambda, stmts_id body, hparams]
    rfl

theorem stmt_id : ∀ s : Stmt, stmt id s = s
  | .expression value => by rw [stmt, expr_id value]
  | .print value => by rw [stmt, expr_id value]
  | .var _ none => rfl
  | .var _ (some value) => by rw [stmt, expr_id value]; rfl
  | .block body => by rw [stmt, stmts_id body]
  | .ifElse condition thenBranch none => by rw [stmt, expr_id condition, stmt_id thenBranch]
  | .ifElse condition thenBranch (some elseBranch) => by
    rw [stmt, expr_id condition, stmt_id thenBranch, stmt_id elseBranch]
  | .while_ condition body => by rw [stmt, expr_id condition, stmt_id body]
  | .break_ _ => rfl
  | .return_ _ none => rfl
  | .return_ _ (some value) => by rw [stmt, expr_id value]; rfl
  | .function _ fn => by rw [stmt, lambda_id fn]; rfl
  | .class_ _ none declared => by rw [stmt, methods_id declared]; rfl
  | .class_ _ (some _) declared => by rw [stmt, methods_id declared]; rfl

theorem stmts_id : ∀ ss : List Stmt, stmts id ss = ss
  | [] => rfl
  | s :: ss => by rw [stmts, stmt_id s, stmts_id ss]

theorem methods_id : ∀ ms : List Method, methods id ms = ms
  | [] => rfl
  | ⟨_, fn⟩ :: ms => by rw [methods, lambda_id fn, methods_id ms]; rfl

end

end Respan
end Lox
