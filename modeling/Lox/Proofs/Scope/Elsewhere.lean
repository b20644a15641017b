import Lox.Proofs.Renumber.Syntax
import Lox.Proofs.Scope.Walk
import Lox.Proofs.Scope.Unrepeated
import Lox.Proofs.Syntax.Respan

/-! # Walks over trees with other numbers and spans

A walk looks at spans only to tell where a rule is broken, and at numbers only to
write down distances for them; what was found before it changes nothing. So a
program that follows on another one in a text is walked as it is alone. -/

namespace Lox

/-- A diagnostic of a text that stands elsewhere. -/
def Diagnostic.respan (σ : Span → Span) : Diagnostic → Diagnostic
  | .located cause span => .located cause (σ span)
  | .output words => .output words
  | .encoding fault => .encoding fault

theorem Diagnostic.respan_id (d : Diagnostic) : d.respan id = d := by
  cases d <;> rfl

/-! ## Other numbers and spans at once -/

namespace Scope

variable (ρ : Nat → Nat) (σ : Span → Span) (before : Array (Nat × Nat))

/-- A walk over a tree with other numbers, which stands elsewhere, after other findings. -/
def Walk.relabel (w : Walk) : Walk :=
  { w with
    found := before ++ w.found.map fun entry => (ρ entry.1, entry.2)
    errors := w.errors.map (Diagnostic.respan σ) }

variable (w : Walk)

theorem relabel_note (error : ScopeError) (span : Span) :
    (w.relabel ρ σ before).note error (σ span) = (w.note error span).relabel ρ σ before := by
  simp only [Walk.note, Walk.relabel, Array.map_push, Diagnostic.respan]

theorem relabel_declare (name : Ident) :
    (w.relabel ρ σ before).declare (name.respan σ) = (w.declare name).relabel ρ σ before := by
  have hnote := relabel_note ρ σ before w .alreadyDeclared name.span
  obtain ⟨scopes, kind, class_, found, errors⟩ := w
  cases scopes with
  | nil => rfl
  | cons scope outer =>
    simp only [Walk.declare]
    rw [apply_ite (Walk.relabel ρ σ before), ← hnote]
    rfl

theorem relabel_define (name : String) :
    (w.relabel ρ σ before).define name = (w.define name).relabel ρ σ before := by
  obtain ⟨scopes, kind, class_, found, errors⟩ := w
  cases scopes <;> rfl

theorem relabel_introduce (name : Ident) :
    (w.relabel ρ σ before).introduce (name.respan σ) =
      (w.introduce name).relabel ρ σ before := by
  rw [Walk.introduce, relabel_declare, Walk.introduce, ← relabel_define]
  rfl

theorem relabel_params (params : List Ident) :
    (params.map (Ident.respan σ)).foldl Walk.introduce (w.relabel ρ σ before) =
      (params.foldl Walk.introduce w).relabel ρ σ before := by
  induction params generalizing w with
  | nil => rfl
  | cons name params ih =>
    rw [List.map_cons, List.foldl_cons, relabel_introduce, ih, List.foldl_cons]

theorem relabel_use (id : Nat) (name : String) :
    (w.relabel ρ σ before).use (ρ id) name = (w.use id name).relabel ρ σ before := by
  have hdistance : (w.relabel ρ σ before).distance? name = w.distance? name := rfl
  unfold Walk.use
  rw [hdistance]
  cases w.distance? name with
  | none => rfl
  | some hops => simp only [Walk.relabel, Array.map_push, Array.append_push]

theorem relabel_checkRead (name : Ident) :
    (w.relabel ρ σ before).checkRead (name.respan σ) =
      (w.checkRead name).relabel ρ σ before := by
  have hnote := relabel_note ρ σ before w .readInOwnInitializer name.span
  obtain ⟨scopes, kind, class_, found, errors⟩ := w
  cases scopes with
  | nil => rfl
  | cons scope outer =>
    simp only [Walk.checkRead]
    rw [apply_ite (Walk.relabel ρ σ before), ← hnote]
    rfl

theorem relabel_checkSuper (keyword : Span) :
    (w.relabel ρ σ before).checkSuper (σ keyword) =
      (w.checkSuper keyword).relabel ρ σ before := by
  have hnote (error : ScopeError) := relabel_note ρ σ before w error keyword
  obtain ⟨scopes, kind, class_, found, errors⟩ := w
  cases class_ with
  | none => exact hnote .superOutsideClass
  | plain => exact hnote .superWithoutSuperclass
  | subclass => rfl

theorem relabel_checkReturn (keyword : Span) :
    (w.relabel ρ σ before).checkReturn (σ keyword) =
      (w.checkReturn keyword).relabel ρ σ before := by
  unfold Walk.checkReturn
  rw [apply_ite (Walk.relabel ρ σ before), ← relabel_note]
  rfl

theorem relabel_checkReturnValue (keyword : Span) :
    (w.relabel ρ σ before).checkReturnValue (σ keyword) =
      (w.checkReturnValue keyword).relabel ρ σ before := by
  unfold Walk.checkReturnValue
  rw [apply_ite (Walk.relabel ρ σ before), ← relabel_note]
  rfl

theorem relabel_checkInheritance (name parent : Ident) :
    (w.relabel ρ σ before).checkInheritance (name.respan σ) (parent.respan σ) =
      (w.checkInheritance name parent).relabel ρ σ before := by
  unfold Walk.checkInheritance
  rw [apply_ite (Walk.relabel ρ σ before), ← relabel_note]
  rfl

mutual

theorem relabel_expr : ∀ (e : Expr) (w : Walk),
    Scope.expr (Renumber.expr ρ (Respan.expr σ e)) (w.relabel ρ σ before) =
      (Scope.expr e w).relabel ρ σ before
  | .literal .., _ => rfl
  | .grouping inner _, w => relabel_expr inner w
  | .unary _ _ operand, w => relabel_expr operand w
  | .binary left _ _ right, w => by
    rw [Respan.expr, Renumber.expr, expr, relabel_expr left, relabel_expr right, expr]
  | .logical left _ _ right, w => by
    rw [Respan.expr, Renumber.expr, expr, relabel_expr left, relabel_expr right, expr]
  | .var target, w => by
    rw [Respan.expr, Renumber.expr, expr, expr, ← relabel_use, ← relabel_checkRead]
    rfl
  | .assign target value, w => by
    rw [Respan.expr, Renumber.expr, expr, relabel_expr value, expr, ← relabel_use]
    rfl
  | .call callee _ arguments, w => by
    rw [Respan.expr, Renumber.expr, expr, relabel_expr callee, relabel_exprs arguments, expr]
  | .get object _, w => relabel_expr object w
  | .set object _ value, w => by
    rw [Respan.expr, Renumber.expr, expr, relabel_expr value, relabel_expr object, expr]
  | .this id span, w => by
    rw [Respan.expr, Renumber.expr, expr, expr, apply_ite (Walk.relabel ρ σ before),
      ← relabel_use, ← relabel_note]
    rfl
  | .super id keyword method, w => by
    rw [Respan.expr, Renumber.expr, expr, relabel_checkSuper, relabel_use, expr]
  | .lambda fn, w => relabel_function .function fn w

theorem relabel_exprs : ∀ (es : List Expr) (w : Walk),
    Scope.exprs (Renumber.exprs ρ (Respan.exprs σ es)) (w.relabel ρ σ before) =
      (Scope.exprs es w).relabel ρ σ before
  | [], _ => rfl
  | e :: es, w => by
    rw [Respan.exprs, Renumber.exprs, exprs, relabel_expr e, relabel_exprs es, exprs]

theorem relabel_function (kind : FunctionKind) : ∀ (fn : Lambda) (w : Walk),
    Scope.function kind (Renumber.lambda ρ (Respan.lambda σ fn)) (w.relabel ρ σ before) =
      (Scope.function kind fn w).relabel ρ σ before
  | ⟨params, body, span⟩, w => by
    have hinside := relabel_params ρ σ before ({ w with function := kind }.openScope) params
    have hbody := relabel_stmts body
      (params.foldl Walk.introduce { w with function := kind }.openScope)
    rw [← hinside] at hbody
    rw [Respan.lambda, Renumber.lambda, function, function]
    exact congrArg (fun inside : Walk => { inside.closeScope with function := w.function }) hbody

theorem relabel_stmt : ∀ (s : Stmt) (w : Walk),
    Scope.stmt (Renumber.stmt ρ (Respan.stmt σ s)) (w.relabel ρ σ before) =
      (Scope.stmt s w).relabel ρ σ before
  | .expression value, w => relabel_expr value w
  | .print value, w => relabel_expr value w
  | .var name none, w => relabel_introduce ρ σ before w name
  | .var name (some value), w => by
    rw [Respan.stmt, Renumber.stmt, stmt, relabel_declare, relabel_expr value, stmt,
      ← relabel_define]
    rfl
  | .block body, w => by
    have hbody := relabel_stmts body w.openScope
    rw [Respan.stmt, Renumber.stmt, stmt, stmt]
    exact congrArg Walk.closeScope hbody
  | .ifElse condition thenBranch none, w => by
    rw [Respan.stmt, Renumber.stmt, stmt, relabel_expr condition, relabel_stmt thenBranch, stmt]
  | .ifElse condition thenBranch (some elseBranch), w => by
    rw [Respan.stmt, Renumber.stmt, stmt, relabel_expr condition, relabel_stmt thenBranch,
      relabel_stmt elseBranch, stmt]
  | .while_ condition body, w => by
    rw [Respan.stmt, Renumber.stmt, stmt, relabel_expr condition, relabel_stmt body, stmt]
  | .break_ _, _ => rfl
  | .return_ keyword none, w => relabel_checkReturn ρ σ before w keyword
  | .return_ keyword (some value), w => by
    rw [Respan.stmt, Renumber.stmt, stmt, relabel_checkReturn, relabel_checkReturnValue,
      relabel_expr value, stmt]
  | .function name fn, w => by
    rw [Respan.stmt, Renumber.stmt, stmt, relabel_introduce, relabel_function .function fn, stmt]
  | .class_ name none declared, w => by
    have hnamed := relabel_introduce ρ σ before { w with class_ := .plain } name
    have hmethods := relabel_methods declared
      (({ w with class_ := .plain }.introduce name).openScope.define "this")
    rw [← relabel_define] at hmethods
    rw [Respan.stmt, Renumber.stmt, Option.map_none, stmt, stmt]
    exact (congrArg (fun named : Walk => { (Scope.methods
      (Renumber.methods ρ (Respan.methods σ declared))
      (named.openScope.define "this")).closeScope with class_ := w.class_ }) hnamed).trans
      (congrArg (fun inside : Walk => { inside.closeScope with class_ := w.class_ }) hmethods)
  | .class_ name (some parent) declared, w => by
    have hnamed : ({ w.relabel ρ σ before with class_ := .subclass }.introduce
        (name.respan σ)) =
          ({ w with class_ := .subclass }.introduce name).relabel ρ σ before :=
      relabel_introduce ρ σ before { w with class_ := .subclass } name
    have hmethods := relabel_methods declared ((((((({ w with class_ := .subclass }.introduce
      name).checkInheritance name parent.name).checkRead parent.name).use parent.id
      parent.name.text).openScope.define "super").openScope.define "this"))
    rw [Respan.stmt, Renumber.stmt, Option.map_some, stmt, stmt]
    simp only [Reference.respan, Renumber.reference]
    rw [hnamed, relabel_checkInheritance, relabel_checkRead]
    rw [show (parent.name.respan σ).text = parent.name.text from rfl, relabel_use]
    rw [← relabel_define] at hmethods
    exact congrArg (fun inside : Walk => { inside.closeScope.closeScope with class_ := w.class_ })
      hmethods

theorem relabel_stmts : ∀ (ss : List Stmt) (w : Walk),
    Scope.stmts (Renumber.stmts ρ (Respan.stmts σ ss)) (w.relabel ρ σ before) =
      (Scope.stmts ss w).relabel ρ σ before
  | [], _ => rfl
  | s :: ss, w => by
    rw [Respan.stmts, Renumber.stmts, stmts, relabel_stmt s, relabel_stmts ss, stmts]

theorem relabel_methods : ∀ (ms : List Method) (w : Walk),
    Scope.methods (Renumber.methods ρ (Respan.methods σ ms)) (w.relabel ρ σ before) =
      (Scope.methods ms w).relabel ρ σ before
  | [], _ => rfl
  | ⟨name, fn⟩ :: ms, w => by
    have hfirst := relabel_function (methodKind name.text) fn w
    rw [Respan.methods, Renumber.methods, methods, methods, ← relabel_methods ms, ← hfirst]
    rfl

end

end Scope

/-! ## Other spans -/

namespace Respan

open Scope

variable (σ : Span → Span) (before : Array (Nat × Nat))

/-- A walk over a tree that stands elsewhere, after other findings. -/
def walk (w : Walk) : Walk :=
  { w with found := before ++ w.found, errors := w.errors.map (Diagnostic.respan σ) }

theorem relabel_eq_walk (w : Walk) : w.relabel id σ before = walk σ before w := by
  have hfound : w.found.map (fun entry => (id entry.1, entry.2)) = w.found := Array.map_id _
  rw [Walk.relabel, hfound, walk]

theorem walk_expr (e : Expr) (w : Walk) :
    Scope.expr (expr σ e) (walk σ before w) = walk σ before (Scope.expr e w) := by
  have h := relabel_expr id σ before e w
  rwa [Renumber.expr_eq _ (Renumber.keeps_id _), relabel_eq_walk, relabel_eq_walk] at h

theorem walk_stmts (ss : List Stmt) (w : Walk) :
    Scope.stmts (stmts σ ss) (walk σ before w) = walk σ before (Scope.stmts ss w) := by
  have h := relabel_stmts id σ before ss w
  rwa [Renumber.stmts_eq _ (Renumber.keeps_id _), relabel_eq_walk, relabel_eq_walk] at h

end Respan

/-! ## Programs that follow on others -/

namespace Scope

/-- Nothing that a program opens stays open at its end. -/
theorem program_eq_walk {ss : List Stmt} (h : (program ss).errors = #[]) (σ : Span → Span) :
    program ss = Respan.walk σ (program ss).found .start := by
  have hwalked := walked_stmts ss .start
  have hscopes : (program ss).scopes = [] := hwalked.global rfl
  have hfunction : (program ss).function = .none := hwalked.function
  have hclass : (program ss).class_ = .none := hwalked.class_
  generalize program ss = w at *
  obtain ⟨scopes, kind, class_, found, errors⟩ := w
  subst hscopes hfunction hclass h
  simp only [Respan.walk, Walk.start, Array.append_empty, Array.map_empty]

/-- A program that stands after another one finds what it finds alone. -/
theorem program_append {ss : List Stmt} (h : (program ss).errors = #[]) (σ : Span → Span)
    (us : List Stmt) : program (ss ++ Respan.stmts σ us) =
      Respan.walk σ (program ss).found (program us) := by
  have hsecond := Respan.walk_stmts σ (program ss).found us .start
  rw [← program_eq_walk h] at hsecond
  unfold program
  rw [stmts_append]
  exact hsecond

end Scope
end Lox
