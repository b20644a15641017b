import Lox.Proofs.Eval.Flows
import Lox.Proofs.Scope.Unrepeated

/-! # Initializers and parameters in accepted programs

A walk that finds no error has found no `return` with a value in an initializer,
and no parameter that is declared twice. -/

namespace Lox.Scope

variable {w : Walk}

mutual

/-- In initializers a walk without errors finds no `return` that has a value. -/
theorem valueless_stmt : ∀ (s : Stmt) {w : Walk}, w.function = .initializer →
    (stmt s w).errors.size = 0 → Valueless.stmt s
  | .return_ _ none, _, _, _ => rfl
  | .return_ keyword (some value), w, hfunction, hclean => by
    have hchecked : ((w.checkReturn keyword).checkReturnValue keyword).errors.size = 0 :=
      Nat.le_zero.mp (hclean ▸ (looked_expr value _).errors)
    rw [Walk.checkReturnValue, if_pos ((looked_checkReturn keyword).function.trans hfunction)]
      at hchecked
    exact absurd hchecked (size_note _ _ _)
  | .block body, w, hfunction, hclean =>
    valueless_stmts body (w := w.openScope) hfunction hclean
  | .ifElse condition thenBranch none, w, hfunction, hclean =>
    valueless_stmt thenBranch ((looked_expr condition w).function.trans hfunction) hclean
  | .ifElse condition thenBranch (some elseBranch), w, hfunction, hclean => by
    have hthen := walked_stmt thenBranch (expr condition w)
    have helse := walked_stmt elseBranch (stmt thenBranch (expr condition w))
    have hend : (stmt elseBranch (stmt thenBranch (expr condition w))).errors.size = 0 := hclean
    have hcondition := (looked_expr condition w).function.trans hfunction
    have herrors := helse.errors
    exact ⟨valueless_stmt thenBranch hcondition (by omega),
      valueless_stmt elseBranch (hthen.function.trans hcondition) hend⟩
  | .while_ condition body, w, hfunction, hclean =>
    valueless_stmt body ((looked_expr condition w).function.trans hfunction) hclean
  | .break_ _, _, _, _ => trivial
  | .expression _, _, _, _ => trivial
  | .print _, _, _, _ => trivial
  | .var .., _, _, _ => trivial
  | .function .., _, _, _ => trivial
  | .class_ .., _, _, _ => trivial

theorem valueless_stmts : ∀ (ss : List Stmt) {w : Walk}, w.function = .initializer →
    (stmts ss w).errors.size = 0 → Valueless.stmts ss
  | [], _, _, _ => trivial
  | s :: ss, w, hfunction, hclean => by
    have hend : (stmts ss (stmt s w)).errors.size = 0 := hclean
    have herrors := (walked_stmts ss (stmt s w)).errors
    exact ⟨valueless_stmt s hfunction (by omega),
      valueless_stmts ss ((walked_stmt s w).function.trans hfunction) hend⟩

end

/-- The body of an initializer in which nothing is wrong. -/
theorem valueless_initializer {fn : Lambda} (hclean : (function .initializer fn w).errors.size = 0) :
    Valueless.stmts fn.body := by
  obtain ⟨params, body, span⟩ := fn
  exact valueless_stmts body ((walked_params params).function.trans rfl) hclean

/-- What the scopes of a walk hold. -/
theorem exists_matches (w : Walk) : ∃ Γ, Matches w Γ := by
  refine ⟨w.scopes.map fun scope => scope.entries.map Prod.fst, ?_⟩
  unfold Matches
  rw [List.forall₂_map_right_iff]
  refine List.forall₂_same.mpr fun scope _ name => ?_
  unfold Bindings.contains Bindings.get?
  induction scope.entries with
  | nil => rfl
  | cons entry rest ih =>
    obtain ⟨key, value⟩ := entry
    rw [Bindings.lookup, List.map_cons, List.contains_cons]
    by_cases hkey : key = name
    · simp [hkey]
    · rw [if_neg hkey, ih, beq_false_of_ne (Ne.symm hkey), Bool.false_or]

/-- No parameter is declared twice where a walk finds no error. -/
theorem nodup_params {params : List Ident}
    (hclean : (params.foldl Walk.introduce w.openScope).errors.size = 0) :
    (params.map Ident.text).Nodup := by
  obtain ⟨Γ, hmatches⟩ := exists_matches w
  have hnodup := @nodup_declared_function _ _ params [] hmatches trivial hclean
  rw [List.append_nil] at hnodup
  have hdeclared : (paramStmts params).filterMap Watch.declared? = params.map Ident.text := by
    unfold paramStmts
    rw [List.filterMap_map, ← List.filterMap_eq_map]
    rfl
  rwa [hdeclared] at hnodup

end Lox.Scope
