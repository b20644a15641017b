import Lox.Proofs.Scope.Resolved

/-! # A scope declares a name once

A walk reports a name that its innermost scope has already. So when it finds no
error, the statements of a scope declare different names, and none that the scope
had before. -/

namespace Lox.Scope

variable {w : Walk} {Γ : List (List String)} {names : List String}

theorem not_mem_of_declare {name : Ident} (hm : Matches w (names :: Γ))
    (hclean : (w.declare name).errors.size = 0) : name.text ∉ names := by
  unfold Matches at hm
  unfold Walk.declare at hclean
  generalize w.scopes = scopes at hm hclean
  obtain _ | ⟨hscope, houter⟩ := hm
  intro hmem
  dsimp only at hclean
  rw [if_pos ((hscope name.text).trans (List.contains_iff_mem.mpr hmem))] at hclean
  exact size_note w _ _ hclean

/-- A statement that declares a name does so before anything else. -/
theorem declare_of_declared {s : Stmt} {name : String} (h : Watch.declared? s = some name) :
    ∃ (declared : Ident) (kind : ClassKind), declared.text = name ∧
      ({ w with class_ := kind }.declare declared).errors.size ≤ (stmt s w).errors.size := by
  cases s with
  | var declared initializer =>
    obtain rfl := Option.some.inj h
    refine ⟨declared, w.class_, rfl, ?_⟩
    cases initializer with
    | none => exact (walked_define declared.text).errors
    | some value =>
      exact ((looked_expr value (w.declare declared)).toWalked.trans
        (walked_define declared.text)).errors
  | function declared fn =>
    obtain rfl := Option.some.inj h
    exact ⟨declared, w.class_, rfl, ((walked_define declared.text).trans
      (looked_function .function fn (w.introduce declared)).toWalked).errors⟩
  | class_ declared superclass methods =>
    obtain rfl := Option.some.inj h
    cases superclass with
    | none =>
      exact ⟨declared, .plain, rfl, ((walked_define declared.text).trans
        (walked_inClass w declared methods).toWalked).errors⟩
    | some parent =>
      exact ⟨declared, .subclass, rfl, ((walked_define declared.text).trans
        ((looked_beforeParent w declared parent.name).trans ((looked_use _ _).trans
          (walked_inSubclass w declared parent methods))).toWalked).errors⟩
  | _ => cases h

theorem not_mem_of_declared {s : Stmt} {name : String} (hm : Matches w (names :: Γ))
    (h : Watch.declared? s = some name) (hclean : (stmt s w).errors.size = 0) : name ∉ names := by
  obtain ⟨declared, kind, rfl, herrors⟩ := declare_of_declared (w := w) h
  exact not_mem_of_declare (w := { w with class_ := kind }) (hm.of_scopes rfl)
    (Nat.le_zero.mp (hclean ▸ herrors))

/-- The statements of a scope declare different new names. -/
theorem nodup_declared {ss : List Stmt} (hm : Matches w (names :: Γ)) (hplain : Plain.stmts ss)
    (hclean : (stmts ss w).errors.size = 0) :
    (ss.filterMap Watch.declared?).Nodup ∧
      ∀ name ∈ ss.filterMap Watch.declared?, name ∉ names := by
  induction ss generalizing w names with
  | nil => exact ⟨List.nodup_nil, fun _ h => by cases h⟩
  | cons s ss ih =>
    have hfirst : (stmt s w).errors.size = 0 :=
      Nat.le_zero.mp (hclean ▸ (walked_stmts ss (stmt s w)).errors)
    have hafter := hm.after hplain.1
    unfold after at hafter
    cases hdeclared : Watch.declared? s with
    | none =>
      rw [hdeclared] at hafter
      rw [List.filterMap_cons_none hdeclared]
      exact ih hafter hplain.2 hclean
    | some name =>
      rw [hdeclared] at hafter
      rw [List.filterMap_cons_some hdeclared]
      obtain ⟨hnodup, hnew⟩ := ih hafter hplain.2 hclean
      refine ⟨List.nodup_cons.mpr ⟨fun h => hnew name h List.mem_cons_self, hnodup⟩, ?_⟩
      intro other hother
      rcases List.mem_cons.mp hother with rfl | hother
      · exact not_mem_of_declared hm hdeclared hfirst
      · exact fun h => hnew other hother (List.mem_cons_of_mem _ h)

/-! ## Parameters -/

/-- Parameters, as variables that are declared without initializers. -/
def paramStmts (params : List Ident) : List Stmt := params.map fun name => .var name none

theorem stmts_append (ss ss' : List Stmt) (w : Walk) : stmts (ss ++ ss') w = stmts ss' (stmts ss w) := by
  induction ss generalizing w with
  | nil => rfl
  | cons s ss ih => exact ih (stmt s w)

theorem stmts_paramStmts (params : List Ident) (w : Walk) :
    stmts (paramStmts params) w = params.foldl Walk.introduce w := by
  induction params generalizing w with
  | nil => rfl
  | cons name params ih => exact ih (w.introduce name)

theorem plain_paramStmts (params : List Ident) {body : List Stmt} (h : Plain.stmts body) :
    Plain.stmts (paramStmts params ++ body) := by
  induction params with
  | nil => exact h
  | cons name params ih => exact ⟨trivial, ih⟩

/-- The parameters of a function and the statements of its body declare different names. -/
theorem nodup_declared_function {params : List Ident} {body : List Stmt} (hm : Matches w Γ)
    (hplain : Plain.stmts body)
    (hclean : (stmts body (params.foldl Walk.introduce w.openScope)).errors.size = 0) :
    ((paramStmts params ++ body).filterMap Watch.declared?).Nodup := by
  refine (nodup_declared hm.openScope (plain_paramStmts params hplain) ?_).1
  rw [stmts_append, stmts_paramStmts]
  exact hclean

end Lox.Scope
