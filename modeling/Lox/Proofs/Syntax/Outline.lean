import Lox.Proofs.Renumber.Syntax
import Lox.Proofs.Syntax.Parts
import Lox.Proofs.Syntax.Respan

/-! # Outlines

The outline of a tree is what is left of it when the numbers of its nodes and its
spans are forgotten. Two trees with the same outline are the same program.

A cut changes something besides: in every list of statements it puts other
statements in place of each class of a certain name and of a number of statements
behind it. -/

namespace Lox

/-- The span that stands for all spans in an outline. -/
def Span.origin : Span := ⟨0, 0⟩

/-- A name without its place. -/
def Ident.outline (name : Ident) : Ident := ⟨name.text, .origin⟩

/-- A use of a name without its number and place. -/
def Reference.outline (target : Reference) : Reference := ⟨0, target.name.outline⟩

namespace Outline

def expr (e : Expr) : Expr := Respan.expr (fun _ => .origin) (Renumber.expr (fun _ => 0) e)

def exprs (es : List Expr) : List Expr :=
  Respan.exprs (fun _ => .origin) (Renumber.exprs (fun _ => 0) es)

def lambda (fn : Lambda) : Lambda :=
  Respan.lambda (fun _ => .origin) (Renumber.lambda (fun _ => 0) fn)

def stmt (s : Stmt) : Stmt := Respan.stmt (fun _ => .origin) (Renumber.stmt (fun _ => 0) s)

def stmts (ss : List Stmt) : List Stmt :=
  Respan.stmts (fun _ => .origin) (Renumber.stmts (fun _ => 0) ss)

def method (m : Method) : Method := ⟨m.name.outline, lambda m.fn⟩

def methods (ms : List Method) : List Method :=
  Respan.methods (fun _ => .origin) (Renumber.methods (fun _ => 0) ms)

section

variable (op : UnaryOp) (bin : BinaryOp) (log : LogicalOp) (s : Span) (e l r : Expr) (name : Ident)
  (target : Reference) (fn : Lambda) (body : Stmt) (id : Nat)

@[simp] theorem expr_literal (v : Literal) : expr (.literal v s) = .literal v .origin := rfl

@[simp] theorem expr_grouping : expr (.grouping e s) = .grouping (expr e) .origin := rfl

@[simp] theorem expr_unary : expr (.unary op s e) = .unary op .origin (expr e) := rfl

@[simp] theorem expr_binary :
    expr (.binary l bin s r) = .binary (expr l) bin .origin (expr r) := rfl

@[simp] theorem expr_logical :
    expr (.logical l log s r) = .logical (expr l) log .origin (expr r) := rfl

@[simp] theorem expr_var : expr (.var target) = .var target.outline := rfl

@[simp] theorem expr_assign : expr (.assign target e) = .assign target.outline (expr e) := rfl

@[simp] theorem expr_call (es : List Expr) :
    expr (.call e s es) = .call (expr e) .origin (exprs es) := rfl

@[simp] theorem expr_get : expr (.get e name) = .get (expr e) name.outline := rfl

@[simp] theorem expr_set : expr (.set l name r) = .set (expr l) name.outline (expr r) := rfl

@[simp] theorem expr_this : expr (.this id s) = .this 0 .origin := rfl

@[simp] theorem expr_super : expr (.super id s name) = .super 0 .origin name.outline := rfl

@[simp] theorem expr_lambda : expr (.lambda fn) = .lambda (lambda fn) := rfl

@[simp] theorem lambda_mk (params : List Ident) (ss : List Stmt) :
    lambda ⟨params, ss, s⟩ = ⟨params.map Ident.outline, stmts ss, .origin⟩ := rfl

@[simp] theorem stmt_expression : stmt (.expression e) = .expression (expr e) := rfl

@[simp] theorem stmt_print : stmt (.print e) = .print (expr e) := rfl

@[simp] theorem stmt_var (value : Option Expr) :
    stmt (.var name value) = .var name.outline (value.map expr) := by
  cases value <;> rfl

@[simp] theorem stmt_block (ss : List Stmt) : stmt (.block ss) = .block (stmts ss) := rfl

@[simp] theorem stmt_ifElse (other : Option Stmt) :
    stmt (.ifElse e body other) = .ifElse (expr e) (stmt body) (other.map stmt) := by
  cases other <;> rfl

@[simp] theorem stmt_while : stmt (.while_ e body) = .while_ (expr e) (stmt body) := rfl

@[simp] theorem stmt_break : stmt (.break_ s) = .break_ .origin := rfl

@[simp] theorem stmt_return (value : Option Expr) :
    stmt (.return_ s value) = .return_ .origin (value.map expr) := by
  cases value <;> rfl

@[simp] theorem stmt_function : stmt (.function name fn) = .function name.outline (lambda fn) := rfl

@[simp] theorem stmt_class (parent : Option Reference) (ms : List Method) :
    stmt (.class_ name parent ms) =
      .class_ name.outline (parent.map Reference.outline) (methods ms) := by
  cases parent <;> rfl

end

@[simp] theorem stmts_eq_map (ss : List Stmt) : stmts ss = ss.map stmt := by
  induction ss with
  | nil => rfl
  | cons s ss ih => exact congrArg (stmt s :: ·) ih

@[simp] theorem exprs_eq_map (es : List Expr) : exprs es = es.map expr := by
  induction es with
  | nil => rfl
  | cons e es ih => exact congrArg (expr e :: ·) ih

@[simp] theorem methods_eq_map (ms : List Method) : methods ms = ms.map method := by
  induction ms with
  | nil => rfl
  | cons m ms ih =>
    cases m
    exact congrArg (_ :: ·) ih

/-- Outlines forget the numbers. -/
@[simp] theorem stmt_renumber (ρ : Nat → Nat) (s : Stmt) : stmt (Renumber.stmt ρ s) = stmt s := by
  rw [stmt, Renumber.stmt_comp]
  rfl

end Outline

/-- A class of this name is declared. -/
def Stmt.isClass (name : String) : Stmt → Bool
  | .class_ className _ _ => decide (className.text = name)
  | _ => false

/-- What is left out of lists of statements, the classes of a name and so many statements behind
each of them, and the outlines of what stands there instead. -/
structure Cut where
  name : String
  count : Nat
  added : List Stmt

namespace Cut

variable (x : Cut)

mutual

/-- The outline of an expression with the cut. -/
def expr : Expr → Expr
  | .literal value _ => .literal value .origin
  | .grouping inner _ => .grouping (expr inner) .origin
  | .unary op _ operand => .unary op .origin (expr operand)
  | .binary left op _ right => .binary (expr left) op .origin (expr right)
  | .logical left op _ right => .logical (expr left) op .origin (expr right)
  | .var target => .var target.outline
  | .assign target value => .assign target.outline (expr value)
  | .call callee _ arguments => .call (expr callee) .origin (exprs arguments)
  | .get object name => .get (expr object) name.outline
  | .set object name value => .set (expr object) name.outline (expr value)
  | .this _ _ => .this 0 .origin
  | .super _ _ method => .super 0 .origin method.outline
  | .lambda fn => .lambda (lambda fn)

/-- The outlines of expressions with the cut. -/
def exprs : List Expr → List Expr
  | [] => []
  | e :: es => expr e :: exprs es

/-- The outline of a function with the cut. -/
def lambda : Lambda → Lambda
  | ⟨params, body, _⟩ => ⟨params.map Ident.outline, stmts 0 body, .origin⟩

/-- The outline of a statement with the cut inside it. -/
def stmt : Stmt → Stmt
  | .expression value => .expression (expr value)
  | .print value => .print (expr value)
  | .var name none => .var name.outline none
  | .var name (some value) => .var name.outline (some (expr value))
  | .block body => .block (stmts 0 body)
  | .ifElse condition thenBranch none => .ifElse (expr condition) (stmt thenBranch) none
  | .ifElse condition thenBranch (some elseBranch) =>
    .ifElse (expr condition) (stmt thenBranch) (some (stmt elseBranch))
  | .while_ condition body => .while_ (expr condition) (stmt body)
  | .break_ _ => .break_ .origin
  | .return_ _ none => .return_ .origin none
  | .return_ _ (some value) => .return_ .origin (some (expr value))
  | .function name fn => .function name.outline (lambda fn)
  | .class_ name parent declared =>
    .class_ name.outline (parent.map Reference.outline) (methods declared)

/-- The outlines of statements with the cut, of which the first ones are left out. -/
def stmts : Nat → List Stmt → List Stmt
  | _, [] => []
  | skip + 1, _ :: ss => stmts skip ss
  | 0, s :: ss => if s.isClass x.name then x.added ++ stmts x.count ss
    else stmt s :: stmts 0 ss

/-- The outlines of methods with the cut. -/
def methods : List Method → List Method
  | [] => []
  | ⟨name, fn⟩ :: ms => ⟨name.outline, lambda fn⟩ :: methods ms

end

/-- The outline of a method with the cut. -/
def method (m : Method) : Method := ⟨m.name.outline, x.lambda m.fn⟩

@[simp] theorem exprs_eq_map (es : List Expr) : x.exprs es = es.map x.expr := by
  induction es with
  | nil => rfl
  | cons e es ih => rw [exprs, ih, List.map_cons]

@[simp] theorem methods_eq_map (ms : List Method) : x.methods ms = ms.map x.method := by
  induction ms with
  | nil => rfl
  | cons m ms ih =>
    cases m
    rw [methods, ih, List.map_cons]
    rfl

theorem stmt_var (name : Ident) (value : Option Expr) :
    x.stmt (.var name value) = .var name.outline (value.map x.expr) := by
  cases value <;> rw [stmt] <;> rfl

theorem stmt_ifElse (e : Expr) (body : Stmt) (other : Option Stmt) :
    x.stmt (.ifElse e body other) = .ifElse (x.expr e) (x.stmt body) (other.map x.stmt) := by
  cases other <;> rw [stmt] <;> rfl

theorem stmt_return (s : Span) (value : Option Expr) :
    x.stmt (.return_ s value) = .return_ .origin (value.map x.expr) := by
  cases value <;> rw [stmt] <;> rfl

theorem stmts_cons {s : Stmt} (h : s.isClass x.name = false) (ss : List Stmt) :
    x.stmts 0 (s :: ss) = x.stmt s :: x.stmts 0 ss := by
  rw [stmts, h]
  rfl

theorem stmts_class {s : Stmt} (h : s.isClass x.name = true) {more : List Stmt}
    (hmore : more.length = x.count) (ss : List Stmt) :
    x.stmts 0 (s :: (more ++ ss)) = x.added ++ x.stmts 0 ss := by
  have hskip : ∀ (more : List Stmt), x.stmts more.length (more ++ ss) = x.stmts 0 ss := by
    intro more
    induction more with
    | nil => rfl
    | cons u us ih => exact ih
  rw [stmts, if_pos h, ← hmore, hskip more]

/-! ## Nothing to cut

Where the name of the class is not written, the cut leaves the outline as it is. -/

section

variable {x}

theorem isClass_of_absent {s : Stmt} (h : x.name ∉ Names.stmt s) : s.isClass x.name = false := by
  cases s with
  | class_ name parent declared =>
    refine decide_eq_false ?_
    rintro hname
    cases parent <;> simp [Names.stmt, hname] at h
  | _ => rfl

mutual

theorem expr_of_absent : ∀ e : Expr, x.name ∉ Names.expr e → x.expr e = Outline.expr e
  | .literal .., _ => rfl
  | .grouping inner _, h => by simp [expr, expr_of_absent inner h]
  | .unary _ _ operand, h => by simp [expr, expr_of_absent operand h]
  | .binary left _ _ right, h => by
    simp only [Names.expr, List.mem_append, not_or] at h
    simp [expr, expr_of_absent left h.1, expr_of_absent right h.2]
  | .logical left _ _ right, h => by
    simp only [Names.expr, List.mem_append, not_or] at h
    simp [expr, expr_of_absent left h.1, expr_of_absent right h.2]
  | .var _, _ => rfl
  | .assign _ value, h => by
    simp only [Names.expr, List.mem_cons, not_or] at h
    simp [expr, expr_of_absent value h.2]
  | .call callee _ arguments, h => by
    simp only [Names.expr, List.mem_append, not_or] at h
    rw [expr, Outline.expr_call, expr_of_absent callee h.1, exprs_of_absent arguments h.2]
  | .get object _, h => by
    simp only [Names.expr, List.mem_cons, not_or] at h
    simp [expr, expr_of_absent object h.2]
  | .set object _ value, h => by
    simp only [Names.expr, List.mem_cons, List.mem_append, not_or] at h
    simp [expr, expr_of_absent object h.2.1, expr_of_absent value h.2.2]
  | .this .., _ => rfl
  | .super .., _ => rfl
  | .lambda fn, h => by rw [expr, Outline.expr_lambda, lambda_of_absent fn h]

theorem exprs_of_absent : ∀ es : List Expr, x.name ∉ Names.exprs es → x.exprs es = Outline.exprs es
  | [], _ => rfl
  | e :: es, h => by
    simp only [Names.exprs, List.mem_append, not_or] at h
    have hrest := exprs_of_absent es h.2
    rw [exprs, expr_of_absent e h.1, hrest]
    rfl

theorem lambda_of_absent : ∀ fn : Lambda, x.name ∉ Names.lambda fn →
    x.lambda fn = Outline.lambda fn
  | ⟨_, body, _⟩, h => by
    simp only [Names.lambda, List.mem_append, not_or] at h
    rw [lambda, Outline.lambda_mk, stmts_of_absent body h.2]

theorem stmt_of_absent : ∀ s : Stmt, x.name ∉ Names.stmt s → x.stmt s = Outline.stmt s
  | .expression value, h => by rw [stmt, Outline.stmt_expression, expr_of_absent value h]
  | .print value, h => by rw [stmt, Outline.stmt_print, expr_of_absent value h]
  | .var _ none, _ => by rw [stmt]; rfl
  | .var _ (some value), h => by
    simp only [Names.stmt, List.mem_cons, not_or] at h
    rw [stmt, expr_of_absent value h.2]
    rfl
  | .block body, h => by rw [stmt, Outline.stmt_block, stmts_of_absent body h]
  | .ifElse condition thenBranch none, h => by
    simp only [Names.stmt, List.mem_append, not_or] at h
    rw [stmt, expr_of_absent condition h.1, stmt_of_absent thenBranch h.2]
    rfl
  | .ifElse condition thenBranch (some elseBranch), h => by
    simp only [Names.stmt, List.mem_append, not_or] at h
    rw [stmt, expr_of_absent condition h.1.1, stmt_of_absent thenBranch h.1.2,
      stmt_of_absent elseBranch h.2]
    rfl
  | .while_ condition body, h => by
    simp only [Names.stmt, List.mem_append, not_or] at h
    rw [stmt, Outline.stmt_while, expr_of_absent condition h.1, stmt_of_absent body h.2]
  | .break_ _, _ => by rw [stmt]; rfl
  | .return_ _ none, _ => by rw [stmt]; rfl
  | .return_ _ (some value), h => by rw [stmt, expr_of_absent value h]; rfl
  | .function _ fn, h => by
    simp only [Names.stmt, List.mem_cons, not_or] at h
    rw [stmt, Outline.stmt_function, lambda_of_absent fn h.2]
  | .class_ _ none declared, h => by
    simp only [Names.stmt, List.mem_cons, not_or] at h
    rw [stmt, Outline.stmt_class, methods_of_absent declared h.2]
  | .class_ _ (some _) declared, h => by
    simp only [Names.stmt, List.mem_cons, not_or] at h
    rw [stmt, Outline.stmt_class, methods_of_absent declared h.2.2]

theorem stmts_of_absent : ∀ ss : List Stmt, x.name ∉ Names.stmts ss →
    x.stmts 0 ss = Outline.stmts ss
  | [], _ => rfl
  | s :: ss, h => by
    simp only [Names.stmts, List.mem_append, not_or] at h
    rw [x.stmts_cons (isClass_of_absent h.1), stmt_of_absent s h.1, stmts_of_absent ss h.2]
    rfl

theorem methods_of_absent : ∀ ms : List Method, x.name ∉ Names.methods ms →
    x.methods ms = Outline.methods ms
  | [], _ => rfl
  | ⟨_, fn⟩ :: ms, h => by
    simp only [Names.methods, List.mem_cons, List.mem_append, not_or] at h
    rw [methods, lambda_of_absent fn h.2.1, methods_of_absent ms h.2.2]
    rfl

end

end

end Cut
end Lox
