import Lox.Scope.Walk

/-! # The rules about names

What the rules about names forbid is said here of places in a tree: of what
stands there, and of what encloses it. No walk is needed to say it, and whether
one place breaks a rule does not depend on what any other place breaks. -/

namespace Lox.Scope

/-- What a place can stand in. -/
inductive Enclosure where
  /-- A block, and the names that are declared in it before the place. -/
  | block (declared : List String)
  /-- A function, and the names that are declared before the place among its
  parameters and in its body, which share a scope. -/
  | function (isInitializer : Bool) (declared : List String)
  /-- The methods of a class. -/
  | class_ (inherits : Bool)
deriving Repr, DecidableEq

/-- What a place stands in, innermost first. A place in nothing is among the globals. -/
abbrev Enclosures := List Enclosure

namespace Enclosures

/-- The names that are declared before a place in its innermost scope. The
globals are not in a scope. -/
def declared : Enclosures → List String
  | .block names :: _ => names
  | .function _ names :: _ => names
  | _ => []

/-- Whether the innermost function is an initializer, if there is a function. -/
def function? : Enclosures → Option Bool
  | [] => none
  | .function isInitializer _ :: _ => some isInitializer
  | .block _ :: around => function? around
  | .class_ _ :: around => function? around

/-- Whether the innermost class has a superclass, if there is a class. -/
def class? : Enclosures → Option Bool
  | [] => none
  | .class_ inherits :: _ => some inherits
  | .block _ :: around => class? around
  | .function _ _ :: around => class? around

/-- What stands around the place behind a declaration. -/
def declare (name : String) : Enclosures → Enclosures
  | .block names :: around => .block (names ++ [name]) :: around
  | .function isInitializer names :: around => .function isInitializer (names ++ [name]) :: around
  | around => around

/-- What stands around the place behind several declarations. -/
def declareAll (names : List String) (around : Enclosures) : Enclosures :=
  names.foldl (fun around name => around.declare name) around

end Enclosures

/-- What the rules are about. -/
inductive Construct where
  | declaration (name : Ident)
  /-- A variable is read, within the initializer of a variable or not. -/
  | read (name : Ident) (initializing : Option String)
  | return_ (keyword : Span) (hasValue : Bool)
  | this (keyword : Span)
  | super (keyword : Span)
  | inheritance (name parent : Ident)
deriving Repr, DecidableEq

/-- A construct at its place. -/
structure Occurrence where
  around : Enclosures
  construct : Construct
deriving Repr, DecidableEq

/-- The name stands for the variable whose initializer this is: it has no other
declaration in the scope so far. -/
def Enclosures.Uninitialized (around : Enclosures) (initializing : Option String)
    (name : String) : Prop :=
  initializing = some name ∧ around.declared.count name = 1

instance (around : Enclosures) (initializing : Option String) (name : String) :
    Decidable (around.Uninitialized initializing name) :=
  inferInstanceAs (Decidable (_ ∧ _))

/-- The rule that an occurrence breaks, and where. -/
def Occurrence.violation? : Occurrence → Option (ScopeError × Span)
  | ⟨around, .declaration name⟩ =>
    if name.text ∈ around.declared then some (.alreadyDeclared, name.span) else none
  | ⟨around, .read name initializing⟩ =>
    if around.Uninitialized initializing name.text then some (.readInOwnInitializer, name.span)
    else none
  | ⟨around, .return_ keyword hasValue⟩ =>
    match around.function? with
    | none => some (.returnOutsideFunction, keyword)
    | some isInitializer =>
      if isInitializer ∧ hasValue then some (.returnValueFromInitializer, keyword) else none
  | ⟨around, .this keyword⟩ =>
    if around.class? = none then some (.thisOutsideClass, keyword) else none
  | ⟨around, .super keyword⟩ =>
    match around.class? with
    | none => some (.superOutsideClass, keyword)
    | some false => some (.superWithoutSuperclass, keyword)
    | some true => none
  | ⟨_, .inheritance name parent⟩ =>
    if parent.text = name.text then some (.inheritsFromItself, parent.span) else none

/-- The report of what an occurrence breaks. -/
def Occurrence.report? (o : Occurrence) : Option Diagnostic :=
  o.violation?.map fun broken => .located (.scoping broken.1) broken.2

/-- The names that a statement declares in the scope that it stands in. -/
def declaredBy : Stmt → List String
  | .var name _ => [name.text]
  | .function name _ => [name.text]
  | .class_ name _ _ => [name.text]
  | .ifElse _ thenBranch none => declaredBy thenBranch
  | .ifElse _ thenBranch (some elseBranch) => declaredBy thenBranch ++ declaredBy elseBranch
  | .while_ _ body => declaredBy body
  | .expression _ => []
  | .print _ => []
  | .block _ => []
  | .break_ _ => []
  | .return_ _ _ => []

/-! ## The occurrences in a tree

They come in the order in which a tree is read, but for an assignment to a
field, whose value comes before its object. -/

namespace Occurrences

/-- The parameters of a function. -/
def params (around : Enclosures) : List Ident → List Occurrence
  | [] => []
  | name :: names => ⟨around, .declaration name⟩ :: params (around.declare name.text) names

mutual

/-- What occurs in an expression, which stands in the initializer of a variable or not. -/
def expr (around : Enclosures) (initializing : Option String) : Expr → List Occurrence
  | .literal _ _ => []
  | .grouping inner _ => expr around initializing inner
  | .unary _ _ operand => expr around initializing operand
  | .binary left _ _ right => expr around initializing left ++ expr around initializing right
  | .logical left _ _ right => expr around initializing left ++ expr around initializing right
  | .var target => [⟨around, .read target.name initializing⟩]
  | .assign _ value => expr around initializing value
  | .call callee _ arguments =>
    expr around initializing callee ++ exprs around initializing arguments
  | .get object _ => expr around initializing object
  | .set object _ value => expr around initializing value ++ expr around initializing object
  | .this _ keyword => [⟨around, .this keyword⟩]
  | .super _ keyword _ => [⟨around, .super keyword⟩]
  | .lambda fn => function around false fn

/-- What occurs in expressions. -/
def exprs (around : Enclosures) (initializing : Option String) : List Expr → List Occurrence
  | [] => []
  | e :: es => expr around initializing e ++ exprs around initializing es

/-- What occurs in a function. -/
def function (around : Enclosures) (isInitializer : Bool) : Lambda → List Occurrence
  | ⟨names, body, _⟩ =>
    let inside : Enclosures := .function isInitializer [] :: around
    params inside names ++ stmts (inside.declareAll (names.map Ident.text)) body

/-- What occurs in a statement. -/
def stmt (around : Enclosures) : Stmt → List Occurrence
  | .expression value => expr around none value
  | .print value => expr around none value
  | .var name none => [⟨around, .declaration name⟩]
  | .var name (some value) =>
    ⟨around, .declaration name⟩ :: expr (around.declare name.text) (some name.text) value
  | .block body => stmts (.block [] :: around) body
  | .ifElse condition thenBranch none => expr around none condition ++ stmt around thenBranch
  | .ifElse condition thenBranch (some elseBranch) =>
    expr around none condition ++ stmt around thenBranch ++
      stmt (around.declareAll (declaredBy thenBranch)) elseBranch
  | .while_ condition body => expr around none condition ++ stmt around body
  | .break_ _ => []
  | .return_ keyword none => [⟨around, .return_ keyword false⟩]
  | .return_ keyword (some value) => ⟨around, .return_ keyword true⟩ :: expr around none value
  | .function name fn =>
    ⟨around, .declaration name⟩ :: function (around.declare name.text) false fn
  | .class_ name none declared =>
    ⟨around, .declaration name⟩ :: methods (.class_ false :: around.declare name.text) declared
  | .class_ name (some parent) declared =>
    let named := around.declare name.text
    ⟨around, .declaration name⟩ :: ⟨named, .inheritance name parent.name⟩ ::
      ⟨named, .read parent.name none⟩ :: methods (.class_ true :: named) declared

/-- What occurs in statements. -/
def stmts (around : Enclosures) : List Stmt → List Occurrence
  | [] => []
  | s :: ss => stmt around s ++ stmts (around.declareAll (declaredBy s)) ss

/-- What occurs in the methods of a class. -/
def methods (around : Enclosures) : List Method → List Occurrence
  | [] => []
  | ⟨name, fn⟩ :: ms => function around (name.text = initializerName) fn ++ methods around ms

end

end Occurrences

end Lox.Scope
