import Lox.Bindings
import Lox.Diagnostic
import Lox.Syntax

/-! # Walking the scopes of a program

A walk over a tree keeps the scopes around the place it has reached, and what
kind of function and class that place stands in. It finds, for each use of a
name, how many scopes away the name is declared, and it finds what breaks the
rules about names. Nothing that it finds stops it.

Scopes open where evaluation makes frames: one for a block, one for the
parameters and the body of a function, one with `super` around the methods of a
class that has a superclass, and one with `this` for the methods of any class. -/

namespace Lox.Scope

/-- The innermost function around a place. -/
inductive FunctionKind where
  | none
  | function
  | method
  | initializer
deriving Repr, DecidableEq

/-- The innermost class around a place. -/
inductive ClassKind where
  | none
  | plain
  | subclass
deriving Repr, DecidableEq

/-- The names declared in a scope, and whether their value is there yet: a
variable has none while its own initializer is being read. -/
abbrev Names := Bindings Bool

/-- How far a walk has come. -/
structure Walk where
  /-- The scopes around the place, innermost first. The global names are in none of them. -/
  scopes : List Names
  function : FunctionKind
  class_ : ClassKind
  /-- For each use of a name that is declared in a scope, how many scopes away. -/
  found : Array (Nat × Nat)
  /-- What breaks the rules, in the order of the walk. -/
  errors : Array Diagnostic
deriving Repr, DecidableEq

namespace Walk

/-- The walk before the first statement of a program. -/
def start : Walk := ⟨[], .none, .none, #[], #[]⟩

/-- Notes that a rule is broken. -/
def note (w : Walk) (error : ScopeError) (span : Span) : Walk :=
  { w with errors := w.errors.push (.located (.scoping error) span) }

/-- Opens a scope. -/
def openScope (w : Walk) : Walk := { w with scopes := .empty :: w.scopes }

/-- Closes the innermost scope. -/
def closeScope (w : Walk) : Walk := { w with scopes := w.scopes.tail }

/-- Declares a name in the innermost scope, as yet without a value. A name that
the scope has already is reported and left as it is. -/
def declare (w : Walk) (name : Ident) : Walk :=
  match w.scopes with
  | [] => w
  | scope :: outer =>
    if scope.contains name.text then w.note .alreadyDeclared name.span
    else { w with scopes := scope.insert name.text false :: outer }

/-- Gives a name of the innermost scope its value. -/
def define (w : Walk) (name : String) : Walk :=
  match w.scopes with
  | [] => w
  | scope :: outer => { w with scopes := scope.insert name true :: outer }

/-- Declares a name together with its value. -/
def introduce (w : Walk) (name : Ident) : Walk := (w.declare name).define name.text

/-- How many scopes away a name is declared. -/
def distance? (w : Walk) (name : String) : Option Nat :=
  w.scopes.findIdx? (·.contains name)

/-- Finds the declaration that a node uses. Without one the name is global. -/
def use (w : Walk) (id : Nat) (name : String) : Walk :=
  match w.distance? name with
  | some hops => { w with found := w.found.push (id, hops) }
  | none => w

/-- A variable cannot be read while its own initializer is. -/
def checkRead (w : Walk) (name : Ident) : Walk :=
  match w.scopes with
  | scope :: _ =>
    if scope.get? name.text = some false then w.note .readInOwnInitializer name.span else w
  | [] => w

/-- `super` needs a class with a superclass. -/
def checkSuper (w : Walk) (keyword : Span) : Walk :=
  match w.class_ with
  | .none => w.note .superOutsideClass keyword
  | .plain => w.note .superWithoutSuperclass keyword
  | .subclass => w

/-- `return` needs a function. -/
def checkReturn (w : Walk) (keyword : Span) : Walk :=
  if w.function = .none then w.note .returnOutsideFunction keyword else w

/-- An initializer returns no value of its own. -/
def checkReturnValue (w : Walk) (keyword : Span) : Walk :=
  if w.function = .initializer then w.note .returnValueFromInitializer keyword else w

/-- A class is not its own superclass. -/
def checkInheritance (w : Walk) (name : Ident) (parent : Ident) : Walk :=
  if parent.text = name.text then w.note .inheritsFromItself parent.span else w

end Walk

/-- The kind of a method with the given name. -/
def methodKind (name : String) : FunctionKind :=
  if name = initializerName then .initializer else .method

mutual

/-- Walks an expression. -/
def expr : Expr → Walk → Walk
  | .literal _ _, w => w
  | .grouping inner _, w => expr inner w
  | .unary _ _ operand, w => expr operand w
  | .binary left _ _ right, w => expr right (expr left w)
  | .logical left _ _ right, w => expr right (expr left w)
  | .var target, w => (w.checkRead target.name).use target.id target.name.text
  | .assign target value, w => (expr value w).use target.id target.name.text
  | .call callee _ arguments, w => exprs arguments (expr callee w)
  | .get object _, w => expr object w
  | .set object _ value, w => expr object (expr value w)
  | .this id span, w =>
    if w.class_ = .none then w.note .thisOutsideClass span else w.use id "this"
  | .super id keyword _, w => (w.checkSuper keyword).use id "super"
  | .lambda fn, w => function .function fn w

/-- Walks expressions in order. -/
def exprs : List Expr → Walk → Walk
  | [], w => w
  | e :: es, w => exprs es (expr e w)

/-- Walks the parameters and the body of a function, which share a scope. -/
def function (kind : FunctionKind) : Lambda → Walk → Walk
  | ⟨params, body, _⟩, w =>
    let inside := params.foldl Walk.introduce { w with function := kind }.openScope
    { (stmts body inside).closeScope with function := w.function }

/-- Walks a statement. -/
def stmt : Stmt → Walk → Walk
  | .expression value, w => expr value w
  | .print value, w => expr value w
  | .var name none, w => w.introduce name
  | .var name (some value), w => (expr value (w.declare name)).define name.text
  | .block body, w => (stmts body w.openScope).closeScope
  | .ifElse condition thenBranch none, w => stmt thenBranch (expr condition w)
  | .ifElse condition thenBranch (some elseBranch), w =>
    stmt elseBranch (stmt thenBranch (expr condition w))
  | .while_ condition body, w => stmt body (expr condition w)
  | .break_ _, w => w
  | .return_ keyword none, w => w.checkReturn keyword
  | .return_ keyword (some value), w =>
    expr value ((w.checkReturn keyword).checkReturnValue keyword)
  | .function name fn, w => function .function fn (w.introduce name)
  | .class_ name superclass declared, w =>
    let outer := w.class_
    match superclass with
    | none =>
      let inside := ({ w with class_ := .plain }.introduce name).openScope.define "this"
      { (methods declared inside).closeScope with class_ := outer }
    | some parent =>
      let named := ({ w with class_ := .subclass }.introduce name).checkInheritance name parent.name
      let read := (named.checkRead parent.name).use parent.id parent.name.text
      let inside := (read.openScope.define "super").openScope.define "this"
      { (methods declared inside).closeScope.closeScope with class_ := outer }

/-- Walks statements in order. -/
def stmts : List Stmt → Walk → Walk
  | [], w => w
  | s :: ss, w => stmts ss (stmt s w)

/-- Walks the methods of a class in order. -/
def methods : List Method → Walk → Walk
  | [], w => w
  | ⟨name, fn⟩ :: ms, w => methods ms (function (methodKind name.text) fn w)

end

/-- Walks a program. -/
def program (statements : List Stmt) : Walk := stmts statements .start

/-- Walks an expression that stands alone. -/
def wholeExpression (e : Expr) : Walk := expr e .start

end Lox.Scope
