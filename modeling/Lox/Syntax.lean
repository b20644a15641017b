import Lox.Span

/-! # Syntax trees

Expressions and statements own all their text, so that a function outlives the
input that declared it. The expressions whose meaning depends on the scope they
stand in (a variable, an assignment, `this`, `super`) carry the number of their
node; what is found out about their scopes is kept under that number. -/

namespace Lox

/-- A name as it is written in the source. -/
structure Ident where
  text : String
  span : Span
deriving Repr, DecidableEq, Inhabited

/-- A use of a variable. -/
structure Reference where
  /-- The number of the node. -/
  id : Nat
  name : Ident
deriving Repr, DecidableEq, Inhabited

/-- A constant of the source. -/
inductive Literal where
  | number (value : Float)
  | string (value : String)
  | bool (value : Bool)
  | nil
deriving Repr, DecidableEq, Inhabited

inductive UnaryOp where
  | negate
  | not
deriving Repr, DecidableEq

inductive BinaryOp where
  | add
  | subtract
  | multiply
  | divide
  | equal
  | notEqual
  | less
  | lessEqual
  | greater
  | greaterEqual
deriving Repr, DecidableEq

inductive LogicalOp where
  | and
  | or
deriving Repr, DecidableEq

mutual

/-- An expression. -/
inductive Expr where
  | literal (value : Literal) (span : Span)
  | grouping (inner : Expr) (span : Span)
  | unary (op : UnaryOp) (opSpan : Span) (operand : Expr)
  | binary (left : Expr) (op : BinaryOp) (opSpan : Span) (right : Expr)
  | logical (left : Expr) (op : LogicalOp) (opSpan : Span) (right : Expr)
  | var (target : Reference)
  | assign (target : Reference) (value : Expr)
  /-- The span is that of the closing parenthesis. -/
  | call (callee : Expr) (paren : Span) (arguments : List Expr)
  | get (object : Expr) (name : Ident)
  | set (object : Expr) (name : Ident) (value : Expr)
  | this (id : Nat) (span : Span)
  | super (id : Nat) (keyword : Span) (method : Ident)
  | lambda (fn : Lambda)

/-- Parameters and body of a function, a method or a function expression. -/
structure Lambda where
  params : List Ident
  body : List Stmt
  span : Span

/-- A method of a class declaration. -/
structure Method where
  name : Ident
  fn : Lambda

/-- A statement. A `for` loop is written with `block` and `while_`. -/
inductive Stmt where
  | expression (value : Expr)
  | print (value : Expr)
  | var (name : Ident) (initializer : Option Expr)
  | block (body : List Stmt)
  | ifElse (condition : Expr) (thenBranch : Stmt) (elseBranch : Option Stmt)
  | while_ (condition : Expr) (body : Stmt)
  | break_ (keyword : Span)
  | return_ (keyword : Span) (value : Option Expr)
  | function (name : Ident) (fn : Lambda)
  | class_ (name : Ident) (superclass : Option Reference) (methods : List Method)

end

instance : Inhabited Expr := ⟨.literal .nil default⟩
instance : Inhabited Stmt := ⟨.block []⟩

/-- The number of parameters. -/
def Lambda.arity (fn : Lambda) : Nat := fn.params.length

/-- The name of the method that constructs an instance. -/
def initializerName : String := "init"

/-- The source range of an expression. -/
def Expr.span : Expr → Span
  | .literal _ span => span
  | .grouping _ span => span
  | .unary _ opSpan operand => opSpan.cover operand.span
  | .binary left _ _ right => left.span.cover right.span
  | .logical left _ _ right => left.span.cover right.span
  | .var target => target.name.span
  | .assign target value => target.name.span.cover value.span
  | .call callee paren _ => callee.span.cover paren
  | .get object name => object.span.cover name.span
  | .set object _ value => object.span.cover value.span
  | .this _ span => span
  | .super _ keyword method => keyword.cover method.span
  | .lambda fn => fn.span

end Lox
