import Lox.Proofs.Scope.Elsewhere

/-! # Walks over trees with other numbers

A walk finds the same things under other numbers, and it finds distances for
numbers of its tree only. -/

namespace Lox.Renumber

open Scope

/-- A walk whose findings stand under other numbers. -/
def walk (ρ : Nat → Nat) (w : Walk) : Walk :=
  { w with found := w.found.map fun entry => (ρ entry.1, entry.2) }

variable (ρ : Nat → Nat) (w : Walk)

theorem relabel_eq_walk : w.relabel ρ id #[] = walk ρ w := by
  have herrors : w.errors.map (Diagnostic.respan id) = w.errors := by
    rw [funext Diagnostic.respan_id]
    exact Array.map_id' _
  rw [Walk.relabel, herrors, Array.empty_append, walk]

theorem walk_stmt (s : Stmt) : Scope.stmt (stmt ρ s) (walk ρ w) = walk ρ (Scope.stmt s w) := by
  have h := relabel_stmt ρ id #[] s w
  rwa [Respan.stmt_id, relabel_eq_walk, relabel_eq_walk] at h

/-! ## Whole texts -/

theorem walk_start : walk ρ .start = .start := by
  simp [walk, Walk.start]

theorem walk_program (ss : List Stmt) : Scope.program (stmts ρ ss) = walk ρ (Scope.program ss) := by
  have h := relabel_stmts ρ id #[] ss .start
  rwa [Respan.stmts_id, relabel_eq_walk, relabel_eq_walk, walk_start] at h

theorem walk_wholeExpression (e : Expr) :
    Scope.wholeExpression (expr ρ e) = walk ρ (Scope.wholeExpression e) := by
  have h := relabel_expr ρ id #[] e .start
  rwa [Respan.expr_id, relabel_eq_walk, relabel_eq_walk, walk_start] at h

end Lox.Renumber
