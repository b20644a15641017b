import Lox.Proofs.Grammar.Names
import Lox.Proofs.Scope.Initializers

/-! # Trees that stand in a class

`this` stands in classes only, and `super` in classes that have a superclass.
The variables that a program declares and uses are ordinary words, so that what
`this` and `super` stand for is out of their reach. No function has two parameters
of one name, and initializers return no value. A walk without errors over a tree
whose names are no keywords finds all of that. -/

namespace Lox.Scope

open Grammar (Named named_cons named_append)

namespace Placed

mutual

/-- An expression in which `this` and `super` may stand in this kind of class. -/
def expr (k : ClassKind) : Expr → Prop
  | .literal .. => True
  | .var target => Ordinary target.name.text
  | .grouping inner _ => expr k inner
  | .unary _ _ operand => expr k operand
  | .binary left _ _ right => expr k left ∧ expr k right
  | .logical left _ _ right => expr k left ∧ expr k right
  | .assign target value => Ordinary target.name.text ∧ expr k value
  | .call callee _ arguments => expr k callee ∧ exprs k arguments
  | .get object _ => expr k object
  | .set object _ value => expr k object ∧ expr k value
  | .this .. => k ≠ .none
  | .super .. => k = .subclass
  | .lambda fn => function k fn

def exprs (k : ClassKind) : List Expr → Prop
  | [] => True
  | e :: es => expr k e ∧ exprs k es

def function (k : ClassKind) : Lambda → Prop
  | ⟨params, body, _⟩ =>
    (Named (params.map Ident.text) ∧ (params.map Ident.text).Nodup) ∧ stmts k body

/-- A statement in which `this` and `super` may stand in this kind of class. -/
def stmt (k : ClassKind) : Stmt → Prop
  | .expression value => expr k value
  | .print value => expr k value
  | .var name none => Ordinary name.text
  | .var name (some value) => Ordinary name.text ∧ expr k value
  | .block body => stmts k body
  | .ifElse condition thenBranch none => expr k condition ∧ stmt k thenBranch
  | .ifElse condition thenBranch (some elseBranch) =>
    expr k condition ∧ stmt k thenBranch ∧ stmt k elseBranch
  | .while_ condition body => expr k condition ∧ stmt k body
  | .break_ _ => True
  | .return_ _ none => True
  | .return_ _ (some value) => expr k value
  | .function name fn => Ordinary name.text ∧ function k fn
  | .class_ name none declared => Ordinary name.text ∧ methods .plain declared
  | .class_ name (some parent) declared =>
    Ordinary name.text ∧ Ordinary parent.name.text ∧ methods .subclass declared

def stmts (k : ClassKind) : List Stmt → Prop
  | [] => True
  | s :: ss => stmt k s ∧ stmts k ss

def methods (k : ClassKind) : List Method → Prop
  | [] => True
  | ⟨name, fn⟩ :: ms =>
    (function k fn ∧ (name.text = initializerName → Valueless.stmts fn.body)) ∧ methods k ms

end

end Placed

/-! ## What a walk without errors finds -/

/-- No error has been found. -/
def Walk.Clean (w : Walk) : Prop := w.errors.size = 0

variable {w w' : Walk} {ids : List Nat}

/-- A walk that ends without errors had none before. -/
theorem Walked.clean (h : Walked ids w w') (hclean : w'.Clean) : w.Clean :=
  Nat.le_zero.mp (hclean ▸ h.errors)

theorem not_clean_note (error : ScopeError) (span : Span) : ¬ (w.note error span).Clean := by
  intro h
  have hsize : w.errors.size + 1 = 0 := by
    rw [← Array.size_push]
    exact h
  omega

theorem checkSuper_clean {keyword : Span} (h : (w.checkSuper keyword).Clean) :
    w.class_ = .subclass := by
  unfold Walk.checkSuper at h
  split at h
  · exact absurd h (not_clean_note _ _)
  · exact absurd h (not_clean_note _ _)
  · next hclass => exact hclass

theorem class_inClass (w : Walk) (name : Ident) : (inClass w name).class_ = .plain :=
  (walked_define "this").class_.trans (walked_introduce name).class_

theorem class_inSubclass (w : Walk) (name : Ident) (parent : Reference) :
    (inSubclass w name parent).class_ = .subclass := by
  have hread := (looked_beforeParent w name parent.name).trans
    (looked_use parent.id parent.name.text)
  have hsuper := walked_define
    (w := ((beforeParent w name parent.name).use parent.id parent.name.text).openScope) "super"
  calc
    (inSubclass w name parent).class_ = _ := (walked_define "this").class_
    _ = _ := hsuper.class_
    _ = _ := hread.class_
    _ = .subclass := (walked_introduce name).class_

mutual

theorem placed_expr : ∀ (e : Expr) {w : Walk}, Named (Names.expr e) → (expr e w).Clean →
    Placed.expr w.class_ e
  | .literal .., _, _, _ => trivial
  | .grouping inner _, _, hnamed, hclean => placed_expr inner hnamed hclean
  | .unary _ _ operand, _, hnamed, hclean => placed_expr operand hnamed hclean
  | .binary left _ _ right, w, hnamed, hclean => by
    obtain ⟨hleft, hright⟩ := named_append.mp hnamed
    have h := placed_expr right hright hclean
    rw [(looked_expr left w).class_] at h
    exact ⟨placed_expr left hleft ((looked_expr right _).clean hclean), h⟩
  | .logical left _ _ right, w, hnamed, hclean => by
    obtain ⟨hleft, hright⟩ := named_append.mp hnamed
    have h := placed_expr right hright hclean
    rw [(looked_expr left w).class_] at h
    exact ⟨placed_expr left hleft ((looked_expr right _).clean hclean), h⟩
  | .var _, _, hnamed, _ => (named_cons.mp hnamed).1
  | .assign target value, _, hnamed, hclean => by
    obtain ⟨hname, hvalue⟩ := named_cons.mp hnamed
    exact ⟨hname, placed_expr value hvalue ((looked_use target.id _).clean hclean)⟩
  | .call callee _ arguments, w, hnamed, hclean => by
    obtain ⟨hcallee, harguments⟩ := named_append.mp hnamed
    have h := placed_exprs arguments harguments hclean
    rw [(looked_expr callee w).class_] at h
    exact ⟨placed_expr callee hcallee ((looked_exprs arguments _).clean hclean), h⟩
  | .get object _, _, hnamed, hclean => placed_expr object (named_cons.mp hnamed).2 hclean
  | .set object _ value, w, hnamed, hclean => by
    obtain ⟨hobject, hvalue⟩ := named_append.mp (named_cons.mp hnamed).2
    have h := placed_expr object hobject hclean
    rw [(looked_expr value w).class_] at h
    exact ⟨h, placed_expr value hvalue ((looked_expr object _).clean hclean)⟩
  | .this id span, w, _, hclean => by
    intro hnone
    rw [expr, if_pos hnone] at hclean
    exact not_clean_note _ _ hclean
  | .super id keyword _, _, _, hclean => checkSuper_clean ((looked_use id _).clean hclean)
  | .lambda fn, _, hnamed, hclean => placed_function .function fn hnamed hclean

theorem placed_exprs : ∀ (es : List Expr) {w : Walk}, Named (Names.exprs es) →
    (exprs es w).Clean → Placed.exprs w.class_ es
  | [], _, _, _ => trivial
  | e :: es, w, hnamed, hclean => by
    obtain ⟨hfirst, hrest⟩ := named_append.mp hnamed
    have h := placed_exprs es hrest hclean
    rw [(looked_expr e w).class_] at h
    exact ⟨placed_expr e hfirst ((looked_exprs es _).clean hclean), h⟩

theorem placed_function (kind : FunctionKind) : ∀ (fn : Lambda) {w : Walk},
    Named (Names.lambda fn) → (function kind fn w).Clean → Placed.function w.class_ fn
  | ⟨params, body, _⟩, w, hnamed, hclean => by
    obtain ⟨hparams, hbody⟩ := named_append.mp hnamed
    have h := placed_stmts body hbody hclean
    rw [(walked_params params).class_] at h
    have hnodup : (params.map Ident.text).Nodup := by
      refine nodup_params (w := { w with function := kind }) ?_
      exact (walked_stmts body _).clean hclean
    exact ⟨⟨hparams, hnodup⟩, h⟩

theorem placed_stmt : ∀ (s : Stmt) {w : Walk}, Named (Names.stmt s) → (stmt s w).Clean →
    Placed.stmt w.class_ s
  | .expression value, _, hnamed, hclean => placed_expr value hnamed hclean
  | .print value, _, hnamed, hclean => placed_expr value hnamed hclean
  | .var _ none, _, hnamed, _ => (named_cons.mp hnamed).1
  | .var name (some value), w, hnamed, hclean => by
    obtain ⟨hname, hvalue⟩ := named_cons.mp hnamed
    have h := placed_expr value hvalue ((walked_define name.text).clean hclean)
    rw [(walked_declare name).class_] at h
    exact ⟨hname, h⟩
  | .block body, w, hnamed, hclean => placed_stmts body (w := w.openScope) hnamed hclean
  | .ifElse condition thenBranch none, w, hnamed, hclean => by
    obtain ⟨hcondition, hthen⟩ := named_append.mp hnamed
    have h := placed_stmt thenBranch hthen hclean
    rw [(looked_expr condition w).class_] at h
    exact ⟨placed_expr condition hcondition ((walked_stmt thenBranch _).clean hclean), h⟩
  | .ifElse condition thenBranch (some elseBranch), w, hnamed, hclean => by
    obtain ⟨hfirst, helse⟩ := named_append.mp hnamed
    obtain ⟨hcondition, hthen⟩ := named_append.mp hfirst
    have hclean' := (walked_stmt elseBranch _).clean hclean
    have h := placed_stmt thenBranch hthen hclean'
    have h' := placed_stmt elseBranch helse hclean
    rw [(walked_stmt thenBranch _).class_] at h'
    rw [(looked_expr condition w).class_] at h h'
    exact ⟨placed_expr condition hcondition ((walked_stmt thenBranch _).clean hclean'), h, h'⟩
  | .while_ condition body, w, hnamed, hclean => by
    obtain ⟨hcondition, hbody⟩ := named_append.mp hnamed
    have h := placed_stmt body hbody hclean
    rw [(looked_expr condition w).class_] at h
    exact ⟨placed_expr condition hcondition ((walked_stmt body _).clean hclean), h⟩
  | .break_ _, _, _, _ => trivial
  | .return_ _ none, _, _, _ => trivial
  | .return_ keyword (some value), w, hnamed, hclean => by
    have h := placed_expr value hnamed hclean
    rw [((looked_checkReturn keyword).trans (looked_checkReturnValue keyword)).class_] at h
    exact h
  | .function name fn, _, hnamed, hclean => by
    obtain ⟨hname, hfn⟩ := named_cons.mp hnamed
    have h := placed_function .function fn hfn hclean
    rw [(walked_introduce name).class_] at h
    exact ⟨hname, h⟩
  | .class_ name none declared, w, hnamed, hclean => by
    obtain ⟨hname, hmethods⟩ := named_cons.mp hnamed
    have h := placed_methods declared (w := inClass w name) hmethods hclean
    rw [class_inClass] at h
    exact ⟨hname, h⟩
  | .class_ name (some parent) declared, w, hnamed, hclean => by
    obtain ⟨hname, hnames⟩ := named_cons.mp hnamed
    obtain ⟨hparent, hmethods⟩ := named_cons.mp hnames
    have h := placed_methods declared (w := inSubclass w name parent) hmethods hclean
    rw [class_inSubclass] at h
    exact ⟨hname, hparent, h⟩

theorem placed_stmts : ∀ (ss : List Stmt) {w : Walk}, Named (Names.stmts ss) →
    (stmts ss w).Clean → Placed.stmts w.class_ ss
  | [], _, _, _ => trivial
  | s :: ss, w, hnamed, hclean => by
    obtain ⟨hfirst, hrest⟩ := named_append.mp hnamed
    have h := placed_stmts ss hrest hclean
    rw [(walked_stmt s w).class_] at h
    exact ⟨placed_stmt s hfirst ((walked_stmts ss _).clean hclean), h⟩

theorem placed_methods : ∀ (ms : List Method) {w : Walk}, Named (Names.methods ms) →
    (methods ms w).Clean → Placed.methods w.class_ ms
  | [], _, _, _ => trivial
  | ⟨name, fn⟩ :: ms, w, hnamed, hclean => by
    obtain ⟨hfn, hrest⟩ := named_append.mp (named_cons.mp hnamed).2
    have h := placed_methods ms hrest hclean
    rw [(looked_function (methodKind name.text) fn w).class_] at h
    have hfirst := (walked_methods ms _).clean hclean
    refine ⟨⟨placed_function (methodKind name.text) fn hfn hfirst, fun hname => ?_⟩, h⟩
    rw [methodKind, if_pos hname] at hfirst
    exact valueless_initializer hfirst

end

end Lox.Scope
