import Lox.Proofs.Syntax.Nodes
import Lox.Scope.Walk

/-! # What a walk leaves as it was

A walk over a tree adds findings under the numbers of that tree only, and it
comes out of every scope, function and class that it went into. -/

namespace Lox.Scope

/-- A walk over nodes with these numbers has led from `w` to `w'`. -/
structure Walked (ids : List Nat) (w w' : Walk) : Prop where
  kept : ∀ entry ∈ w.found, entry ∈ w'.found
  new : ∀ entry ∈ w'.found, entry ∈ w.found ∨ entry.1 ∈ ids
  errors : w.errors.size ≤ w'.errors.size
  static : (∀ e ∈ w.errors, e.isStatic = true) → ∀ e ∈ w'.errors, e.isStatic = true
  function : w'.function = w.function
  class_ : w'.class_ = w.class_
  outer : w'.scopes.tail = w.scopes.tail
  global : w.scopes = [] → w'.scopes = []

/-- The scopes are the same, too. -/
structure Looked (ids : List Nat) (w w' : Walk) : Prop extends Walked ids w w' where
  scopes : w'.scopes = w.scopes

variable {ids ids' : List Nat} {w w' w'' : Walk}

theorem Looked.refl (w : Walk) : Looked [] w w where
  kept _ h := h
  new _ h := .inl h
  errors := Nat.le_refl _
  static h := h
  function := rfl
  class_ := rfl
  outer := rfl
  global h := h
  scopes := rfl

theorem Walked.trans (h : Walked ids w w') (h' : Walked ids' w' w'') :
    Walked (ids ++ ids') w w'' where
  kept entry hentry := h'.kept entry (h.kept entry hentry)
  new entry hentry := by
    rcases h'.new entry hentry with hmem | hmem
    · rcases h.new entry hmem with hmem | hmem
      · exact .inl hmem
      · exact .inr (List.mem_append_left _ hmem)
    · exact .inr (List.mem_append_right _ hmem)
  errors := Nat.le_trans h.errors h'.errors
  static hw := h'.static (h.static hw)
  function := h'.function.trans h.function
  class_ := h'.class_.trans h.class_
  outer := h'.outer.trans h.outer
  global hnil := h'.global (h.global hnil)

theorem Looked.trans (h : Looked ids w w') (h' : Looked ids' w' w'') :
    Looked (ids ++ ids') w w'' :=
  ⟨h.toWalked.trans h'.toWalked, h'.scopes.trans h.scopes⟩

theorem Walked.of_mem (h : Walked ids w w') (hids : ∀ id ∈ ids, id ∈ ids') : Walked ids' w w' :=
  { h with new := fun entry hentry => (h.new entry hentry).imp_right (hids _) }

theorem Looked.of_mem (h : Looked ids w w') (hids : ∀ id ∈ ids, id ∈ ids') : Looked ids' w w' :=
  ⟨h.toWalked.of_mem hids, h.scopes⟩

theorem Walked.of_eq (h : Walked ids w w') (heq : ids' = ids) : Walked ids' w w' := heq ▸ h

theorem Looked.of_eq (h : Looked ids w w') (heq : ids' = ids) : Looked ids' w w' := heq ▸ h

/-! ## Single steps -/

theorem looked_note (error : ScopeError) (span : Span) : Looked [] w (w.note error span) :=
  { Looked.refl w with
    errors := by simp [Walk.note]
    static := by
      intro h e he
      rcases Array.mem_push.mp he with hmem | rfl
      · exact h e hmem
      · rfl }

theorem walked_declare (name : Ident) : Walked [] w (w.declare name) := by
  unfold Walk.declare
  split
  · exact (Looked.refl w).toWalked
  · next scope outer hscopes =>
    split
    · exact (looked_note _ _).toWalked
    · exact { (Looked.refl w).toWalked with
        outer := by rw [hscopes]; rfl
        global := fun hnil => by rw [hscopes] at hnil; cases hnil }

theorem walked_define (name : String) : Walked [] w (w.define name) := by
  unfold Walk.define
  split
  · exact (Looked.refl w).toWalked
  · next scope outer hscopes =>
    exact { (Looked.refl w).toWalked with
      outer := by rw [hscopes]; rfl
      global := fun hnil => by rw [hscopes] at hnil; cases hnil }

theorem walked_introduce (name : Ident) : Walked [] w (w.introduce name) :=
  (walked_declare name).trans (walked_define name.text)

theorem walked_params (params : List Ident) : Walked [] w (params.foldl Walk.introduce w) := by
  induction params generalizing w with
  | nil => exact (Looked.refl w).toWalked
  | cons name params ih => exact (walked_introduce name).trans ih

theorem looked_use (id : Nat) (name : String) : Looked [id] w (w.use id name) := by
  unfold Walk.use
  split
  · next hops _ =>
    refine { Looked.refl w with kept := ?_, new := ?_ }
    · intro entry hentry
      exact Array.mem_push_of_mem _ hentry
    · intro entry hentry
      rcases Array.mem_push.mp hentry with hmem | rfl
      · exact .inl hmem
      · exact .inr (List.mem_singleton.mpr rfl)
  · exact (Looked.refl w).of_mem (by simp)

theorem looked_checkRead (name : Ident) : Looked [] w (w.checkRead name) := by
  unfold Walk.checkRead
  split
  · split
    · exact looked_note _ _
    · exact .refl w
  · exact .refl w

theorem looked_checkSuper (keyword : Span) : Looked [] w (w.checkSuper keyword) := by
  unfold Walk.checkSuper
  split
  · exact looked_note _ _
  · exact looked_note _ _
  · exact .refl w

theorem looked_checkReturn (keyword : Span) : Looked [] w (w.checkReturn keyword) := by
  unfold Walk.checkReturn
  split
  · exact looked_note _ _
  · exact .refl w

theorem looked_checkReturnValue (keyword : Span) : Looked [] w (w.checkReturnValue keyword) := by
  unfold Walk.checkReturnValue
  split
  · exact looked_note _ _
  · exact .refl w

theorem looked_checkInheritance (name parent : Ident) :
    Looked [] w (w.checkInheritance name parent) := by
  unfold Walk.checkInheritance
  split
  · exact looked_note _ _
  · exact .refl w

/-- What is walked in a scope of its own leaves the scopes around it as they were. -/
theorem Walked.closeScope (h : Walked ids w.openScope w') : Looked ids w w'.closeScope where
  kept := h.kept
  new := h.new
  errors := h.errors
  static := h.static
  function := h.function
  class_ := h.class_
  outer := congrArg List.tail h.outer
  global hnil := h.outer.trans hnil
  scopes := h.outer

/-- A walk in another kind of function. -/
theorem Looked.within_function (kind : FunctionKind) (h : Looked ids { w with function := kind } w') :
    Looked ids w { w' with function := w.function } :=
  { h with function := rfl }

/-- A walk in another kind of class. -/
theorem Walked.within_class (kind : ClassKind) (h : Walked ids { w with class_ := kind } w') :
    Walked ids w { w' with class_ := w.class_ } :=
  { h with class_ := rfl }

/-! ## Trees -/

mutual

theorem looked_expr : ∀ (e : Expr) (w : Walk), Looked (Nodes.expr [] e) w (expr e w)
  | .literal .., w => .refl w
  | .grouping inner _, w => looked_expr inner w
  | .unary _ _ operand, w => looked_expr operand w
  | .binary left _ _ right, w =>
    ((looked_expr left w).trans (looked_expr right _)).of_eq (Nodes.expr_append left _)
  | .logical left _ _ right, w =>
    ((looked_expr left w).trans (looked_expr right _)).of_eq (Nodes.expr_append left _)
  | .var target, w => (looked_checkRead target.name).trans (looked_use target.id _)
  | .assign target value, w =>
    ((looked_expr value w).trans (looked_use target.id _)).of_mem (by simp [Nodes.expr, or_comm])
  | .call callee _ arguments, w =>
    ((looked_expr callee w).trans (looked_exprs arguments _)).of_eq (Nodes.expr_append callee _)
  | .get object _, w => looked_expr object w
  | .set object _ value, w => by
    have h := (looked_expr value w).trans (looked_expr object _)
    refine h.of_mem fun id hid => ?_
    rw [Nodes.expr, Nodes.expr_append, List.mem_append]
    exact (List.mem_append.mp hid).symm
  | .this id span, w => by
    rw [expr]
    split
    · exact (looked_note _ _).of_mem (by simp)
    · exact looked_use id _
  | .super id keyword _, w => (looked_checkSuper keyword).trans (looked_use id _)
  | .lambda fn, w => looked_function .function fn w

theorem looked_exprs : ∀ (es : List Expr) (w : Walk), Looked (Nodes.exprs [] es) w (exprs es w)
  | [], w => .refl w
  | e :: es, w =>
    ((looked_expr e w).trans (looked_exprs es _)).of_eq (Nodes.expr_append e _)

theorem looked_function (kind : FunctionKind) : ∀ (fn : Lambda) (w : Walk),
    Looked (Nodes.lambda [] fn) w (function kind fn w)
  | ⟨params, body, _⟩, _ =>
    (((walked_params params).trans (walked_stmts body _)).closeScope).within_function kind

theorem walked_stmt : ∀ (s : Stmt) (w : Walk), Walked (Nodes.stmt [] s) w (stmt s w)
  | .expression value, w => (looked_expr value w).toWalked
  | .print value, w => (looked_expr value w).toWalked
  | .var name none, w => walked_introduce name
  | .var name (some value), w => by
    have h := ((walked_declare name).trans (looked_expr value _).toWalked).trans
      (walked_define (w := expr value (w.declare name)) name.text)
    exact h.of_eq (by simp [Nodes.stmt])
  | .block body, _ => (walked_stmts body _).closeScope.toWalked
  | .ifElse condition thenBranch none, w =>
    ((looked_expr condition w).toWalked.trans (walked_stmt thenBranch _)).of_eq
      (Nodes.expr_append condition _)
  | .ifElse condition thenBranch (some elseBranch), w => by
    have h := (looked_expr condition w).toWalked.trans
      ((walked_stmt thenBranch _).trans (walked_stmt elseBranch _))
    refine h.of_eq ?_
    rw [Nodes.stmt, Nodes.stmt_append thenBranch, Nodes.expr_append condition]
  | .while_ condition body, w =>
    ((looked_expr condition w).toWalked.trans (walked_stmt body _)).of_eq
      (Nodes.expr_append condition _)
  | .break_ _, w => (Looked.refl w).toWalked
  | .return_ keyword none, w => (looked_checkReturn keyword).toWalked
  | .return_ keyword (some value), w =>
    (((looked_checkReturn keyword).trans (looked_checkReturnValue keyword)).trans
      (looked_expr value _)).toWalked
  | .function name fn, w =>
    (walked_introduce name).trans (looked_function .function fn _).toWalked
  | .class_ name none declared, w => by
    have hmethods := ((walked_define "this").trans (walked_methods declared _)).closeScope
      (w := { w with class_ := .plain }.introduce name)
    exact ((walked_introduce name).trans hmethods.toWalked).within_class .plain
  | .class_ name (some parent) declared, w => by
    have hmethods := ((walked_define "this").trans (walked_methods declared _)).closeScope
      (w := ((((({ w with class_ := .subclass }.introduce name).checkInheritance name
        parent.name).checkRead parent.name).use parent.id parent.name.text).openScope.define
        "super"))
    have hsuper := ((walked_define "super").trans hmethods.toWalked).closeScope
    have hread := ((looked_checkInheritance name parent.name).trans
      (looked_checkRead parent.name)).trans (looked_use parent.id parent.name.text)
      (w := { w with class_ := .subclass }.introduce name)
    exact ((walked_introduce name).trans (hread.trans hsuper).toWalked).within_class .subclass

theorem walked_stmts : ∀ (ss : List Stmt) (w : Walk), Walked (Nodes.stmts [] ss) w (stmts ss w)
  | [], w => (Looked.refl w).toWalked
  | s :: ss, w =>
    ((walked_stmt s w).trans (walked_stmts ss _)).of_eq (Nodes.stmt_append s _)

theorem walked_methods : ∀ (ms : List Method) (w : Walk),
    Walked (Nodes.methods [] ms) w (methods ms w)
  | [], w => (Looked.refl w).toWalked
  | ⟨name, fn⟩ :: ms, w =>
    ((looked_function (methodKind name.text) fn w).toWalked.trans (walked_methods ms _)).of_eq
      (Nodes.lambda_append fn _)

end

end Lox.Scope
