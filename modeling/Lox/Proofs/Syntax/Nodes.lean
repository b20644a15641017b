import Lox.Syntax.Nodes

/-! # The numbers of a tree

The numbers that stand in a tree are those of its parts, one after the other. -/

namespace Lox.Nodes

mutual

theorem expr_append : ∀ (e : Expr) (more : List Nat), expr more e = expr [] e ++ more
  | .literal .., _ => rfl
  | .grouping inner _, more => by simp only [expr]; exact expr_append inner more
  | .unary _ _ operand, more => by simp only [expr]; exact expr_append operand more
  | .binary left _ _ right, more => by
    simp only [expr]
    rw [expr_append left, expr_append right, expr_append left (expr [] right), List.append_assoc]
  | .logical left _ _ right, more => by
    simp only [expr]
    rw [expr_append left, expr_append right, expr_append left (expr [] right), List.append_assoc]
  | .var _, _ => rfl
  | .assign target value, more => by
    simp only [expr, List.cons_append]
    rw [expr_append value]
  | .call callee _ arguments, more => by
    simp only [expr]
    rw [expr_append callee, exprs_append arguments, expr_append callee (exprs [] arguments),
      List.append_assoc]
  | .get object _, more => by simp only [expr]; exact expr_append object more
  | .set object _ value, more => by
    simp only [expr]
    rw [expr_append object, expr_append value, expr_append object (expr [] value),
      List.append_assoc]
  | .this .., _ => rfl
  | .super .., _ => rfl
  | .lambda fn, more => by simp only [expr]; exact lambda_append fn more

theorem exprs_append : ∀ (es : List Expr) (more : List Nat), exprs more es = exprs [] es ++ more
  | [], _ => rfl
  | e :: es, more => by
    simp only [exprs]
    rw [expr_append e, exprs_append es, expr_append e (exprs [] es), List.append_assoc]

theorem lambda_append : ∀ (fn : Lambda) (more : List Nat), lambda more fn = lambda [] fn ++ more
  | ⟨_, body, _⟩, more => by simp only [lambda]; exact stmts_append body more

theorem stmt_append : ∀ (s : Stmt) (more : List Nat), stmt more s = stmt [] s ++ more
  | .expression value, more => by simp only [stmt]; exact expr_append value more
  | .print value, more => by simp only [stmt]; exact expr_append value more
  | .var _ none, _ => rfl
  | .var _ (some value), more => by simp only [stmt]; exact expr_append value more
  | .block body, more => by simp only [stmt]; exact stmts_append body more
  | .ifElse condition thenBranch none, more => by
    simp only [stmt]
    rw [expr_append condition, stmt_append thenBranch,
      expr_append condition (stmt [] thenBranch), List.append_assoc]
  | .ifElse condition thenBranch (some elseBranch), more => by
    simp only [stmt]
    rw [expr_append condition, stmt_append thenBranch, stmt_append elseBranch,
      expr_append condition (stmt _ thenBranch), stmt_append thenBranch (stmt [] elseBranch)]
    simp only [List.append_assoc]
  | .while_ condition body, more => by
    simp only [stmt]
    rw [expr_append condition, stmt_append body, expr_append condition (stmt [] body),
      List.append_assoc]
  | .break_ _, _ => rfl
  | .return_ _ none, _ => rfl
  | .return_ _ (some value), more => by simp only [stmt]; exact expr_append value more
  | .function _ fn, more => by simp only [stmt]; exact lambda_append fn more
  | .class_ _ none declared, more => by simp only [stmt]; exact methods_append declared more
  | .class_ _ (some parent) declared, more => by
    simp only [stmt, List.cons_append]
    rw [methods_append declared]

theorem stmts_append : ∀ (ss : List Stmt) (more : List Nat), stmts more ss = stmts [] ss ++ more
  | [], _ => rfl
  | s :: ss, more => by
    simp only [stmts]
    rw [stmt_append s, stmts_append ss, stmt_append s (stmts [] ss), List.append_assoc]

theorem methods_append : ∀ (ms : List Method) (more : List Nat),
    methods more ms = methods [] ms ++ more
  | [], _ => rfl
  | ⟨_, fn⟩ :: ms, more => by
    simp only [methods]
    rw [lambda_append fn, methods_append ms, lambda_append fn (methods [] ms), List.append_assoc]

end

end Lox.Nodes
