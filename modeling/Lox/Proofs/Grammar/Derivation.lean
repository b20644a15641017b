import Lox.Grammar.Rules

/-! # What the grammar derives

The grammar as a relation between tokens and trees, with no order in which the
alternatives are tried. `Derives phrase p n ts a n'` says that the tokens `ts`,
all of them, derive from `phrase`, that `a` is their tree, and that its nodes
take the numbers from `n` up to `n'`.

```text
program        → declaration* ;
declaration    → classDecl | funDecl | varDecl | statement ;
classDecl      → "class" IDENT ( "<" IDENT )? "{" function* "}" ;
funDecl        → "fun" function ;
function       → IDENT "(" parameters? ")" block ;
varDecl        → "var" IDENT ( "=" expression )? ";" ;
statement      → exprStmt | printStmt | ifStmt | whileStmt | forStmt
               | breakStmt | returnStmt | block ;
forStmt        → "for" "(" ( varDecl | exprStmt | ";" )
                 expression? ";" expression? ")" statement ;
breakStmt      → "break" ";" ;
returnStmt     → "return" expression? ";" ;
block          → "{" declaration* "}" ;
expression     → assignment ;
assignment     → ( call "." )? IDENT "=" assignment | logic_or ;
logic_or       → logic_and ( "or" logic_and )* ;
logic_and      → equality  ( "and" equality )* ;
equality       → comparison ( ( "!=" | "==" ) comparison )* ;
comparison     → term ( ( ">" | ">=" | "<" | "<=" ) term )* ;
term           → factor ( ( "-" | "+" ) factor )* ;
factor         → unary ( ( "/" | "*" ) unary )* ;
unary          → ( "!" | "-" ) unary | call ;
call           → primary ( "(" arguments? ")" | "." IDENT )* ;
primary        → NUMBER | STRING | "true" | "false" | "nil" | "this"
               | IDENT | "(" expression ")" | "super" "." IDENT
               | "fun" "(" parameters? ")" block ;
```

The side conditions are premises: a `break` stands in a loop of the same function
body, a list of parameters or arguments has at most `maxArity` entries, and the
statements, blocks, expressions and operands of unary operators around a place
are never more than `maxNesting`. A statement is `opened` when it ends in an `if`
without `else`; such a statement is no branch before an `else`, which gives every
`else` to the nearest `if`. -/

namespace Lox

/-- The name that an identifier writes. -/
def Token.ident (t : Token) : Ident := ⟨t.lexeme, t.span⟩

namespace Grammar

/-- The symbols of the grammar that tokens derive from. A repetition whose trees
lean to the left is a symbol of its own that knows the tree before it. -/
inductive Phrase where
  | declarations
  | declaration
  | classDeclaration
  | methods
  | function
  /-- Parameters and body of a function whose text starts at `start`. -/
  | closure (start : Span)
  | block
  | varDeclaration
  | statement (opened : Bool)
  | statementBody (opened : Bool)
  | expressionStatement
  | printStatement
  | ifStatement (opened : Bool)
  | whileStatement (opened : Bool)
  | forStatement (opened : Bool)
  | breakStatement
  | returnStatement
  /-- The first clause of a `for`. -/
  | initializer
  | optionalExpression
  | expression
  | assignment
  | operation (level : Level)
  /-- Operators of a level and their right operands, after `left`. -/
  | chain (level : Level) (left : Expr)
  | operand (level : Level)
  | unary
  | call
  /-- Arguments and property names after `callee`. -/
  | suffixes (callee : Expr)
  | argumentList
  | arguments
  | primary

/-- The trees of a phrase. A block has the span of its closing brace with it. -/
@[reducible] def Phrase.Tree : Phrase → Type
  | declarations => List Stmt
  | declaration | classDeclaration | varDeclaration | statement _ | statementBody _
  | expressionStatement | printStatement | ifStatement _ | whileStatement _ | forStatement _
  | breakStatement | returnStatement => Stmt
  | methods => List Method
  | function => Method
  | closure _ => Lambda
  | block => List Stmt × Span
  | initializer => Option Stmt
  | optionalExpression => Option Expr
  | argumentList | arguments => List Expr
  | expression | assignment | operation _ | chain _ _ | operand _ | unary | call | suffixes _
  | primary => Expr

/-- `IDENT ( "," IDENT )*` -/
inductive Names : List Token → List Ident → Prop where
  | last {t : Token} (name : t.kind = .identifier) : Names [t] [t.ident]
  | more {t c : Token} {ts : List Token} {names : List Ident} (name : t.kind = .identifier)
      (comma : c.kind = .symbol .comma) (rest : Names ts names) :
      Names (t :: c :: ts) (t.ident :: names)

/-- `parameters?` -/
inductive Parameters : List Token → List Ident → Prop where
  | none : Parameters [] []
  | some {ts : List Token} {names : List Ident} (list : Names ts names) : Parameters ts names

/-- `( "<" IDENT )?` -/
inductive Superclass (n : Nat) : List Token → Option Reference → Nat → Prop where
  | none : Superclass n [] none n
  | some {l t : Token} (less : l.kind = .symbol .less) (name : t.kind = .identifier) :
      Superclass n [l, t] (some ⟨n, t.ident⟩) (n + 1)

/-- The tokens derive from a phrase, and this is their tree. -/
inductive Derives : (phrase : Phrase) → Place → Nat → List Token → phrase.Tree → Nat → Prop where
  -- declaration*
  | noDeclaration {p n} : Derives .declarations p n [] [] n
  | declarations {p n ts s n' us ss n''} (first : Derives .declaration p n ts s n')
      (rest : Derives .declarations p n' us ss n'') :
      Derives .declarations p n (ts ++ us) (s :: ss) n''
  -- declaration, funDecl
  | classDeclaration {p n ts s n'} (declaration : Derives .classDeclaration p n ts s n') :
      Derives .declaration p n ts s n'
  | function {p n k ts m n'} (keyword : k.kind = .keyword .fun_)
      (function : Derives .function p n ts m n') :
      Derives .declaration p n (k :: ts) (.function m.name m.fn) n'
  | varDeclaration {p n ts s n'} (declaration : Derives .varDeclaration p n ts s n') :
      Derives .declaration p n ts s n'
  | statement {p n opened ts s n'} (statement : Derives (.statement opened) p n ts s n') :
      Derives .declaration p n ts s n'
  -- classDecl
  | class_ {p n k t ts parent n' l us ms n'' r} (keyword : k.kind = .keyword .class_)
      (name : t.kind = .identifier) (superclass : Superclass n ts parent n')
      (opening : l.kind = .symbol .leftBrace) (methods : Derives .methods p n' us ms n'')
      (closing : r.kind = .symbol .rightBrace) :
      Derives .classDeclaration p n (k :: t :: (ts ++ l :: (us ++ [r])))
        (.class_ t.ident parent ms) n''
  -- function*
  | noMethod {p n} : Derives .methods p n [] [] n
  | methods {p n ts m n' us ms n''} (first : Derives .function p n ts m n')
      (rest : Derives .methods p n' us ms n'') :
      Derives .methods p n (ts ++ us) (m :: ms) n''
  -- function
  | named {p n t ts fn n'} (name : t.kind = .identifier)
      (closure : Derives (.closure t.span) p n ts fn n') :
      Derives .function p n (t :: ts) ⟨t.ident, fn⟩ n'
  | closure {p n start l ts params r us b n'} (opening : l.kind = .symbol .leftParen)
      (parameters : Parameters ts params) (few : params.length ≤ maxArity)
      (closing : r.kind = .symbol .rightParen) (body : Derives .block p.function n us b n') :
      Derives (.closure start) p n (l :: (ts ++ r :: us))
        ⟨params, b.1, start.cover b.2⟩ n'
  -- block
  | braces {p n l ts ss n' r} (room : p.depth < maxNesting) (opening : l.kind = .symbol .leftBrace)
      (body : Derives .declarations p.deeper n ts ss n') (closing : r.kind = .symbol .rightBrace) :
      Derives .block p n (l :: (ts ++ [r])) (ss, r.span) n'
  -- varDecl
  | uninitialized {p n k t e} (keyword : k.kind = .keyword .var) (name : t.kind = .identifier)
      (ending : e.kind = .symbol .semicolon) :
      Derives .varDeclaration p n [k, t, e] (.var t.ident none) n
  | initialized {p n k t q ts v n' e} (keyword : k.kind = .keyword .var)
      (name : t.kind = .identifier) (equal : q.kind = .symbol .equal)
      (value : Derives .expression p n ts v n') (ending : e.kind = .symbol .semicolon) :
      Derives .varDeclaration p n (k :: t :: q :: (ts ++ [e])) (.var t.ident (some v)) n'
  -- statement
  | nested {p n opened ts s n'} (room : p.depth < maxNesting)
      (body : Derives (.statementBody opened) p.deeper n ts s n') :
      Derives (.statement opened) p n ts s n'
  | expressionStatement {p n ts s n'} (statement : Derives .expressionStatement p n ts s n') :
      Derives (.statementBody false) p n ts s n'
  | printStatement {p n ts s n'} (statement : Derives .printStatement p n ts s n') :
      Derives (.statementBody false) p n ts s n'
  | ifStatement {p n opened ts s n'} (statement : Derives (.ifStatement opened) p n ts s n') :
      Derives (.statementBody opened) p n ts s n'
  | whileStatement {p n opened ts s n'}
      (statement : Derives (.whileStatement opened) p n ts s n') :
      Derives (.statementBody opened) p n ts s n'
  | forStatement {p n opened ts s n'} (statement : Derives (.forStatement opened) p n ts s n') :
      Derives (.statementBody opened) p n ts s n'
  | breakStatement {p n ts s n'} (statement : Derives .breakStatement p n ts s n') :
      Derives (.statementBody false) p n ts s n'
  | returnStatement {p n ts s n'} (statement : Derives .returnStatement p n ts s n') :
      Derives (.statementBody false) p n ts s n'
  | block {p n ts b n'} (block : Derives .block p n ts b n') :
      Derives (.statementBody false) p n ts (.block b.1) n'
  -- printStmt, ifStmt, whileStmt, forStmt, breakStmt, returnStmt
  | print {p n k ts v n' e} (keyword : k.kind = .keyword .print)
      (value : Derives .expression p n ts v n') (ending : e.kind = .symbol .semicolon) :
      Derives .printStatement p n (k :: (ts ++ [e])) (.print v) n'
  | ifThen {p n k l ts c n' r us opened s n''} (keyword : k.kind = .keyword .if_)
      (opening : l.kind = .symbol .leftParen)
      (condition : Derives .expression p n ts c n')
      (closing : r.kind = .symbol .rightParen)
      (branch : Derives (.statement opened) p n' us s n'') :
      Derives (.ifStatement true) p n (k :: l :: (ts ++ r :: us)) (.ifElse c s none) n''
  | ifElse {p n k l ts c n' r us s n'' x vs opened s' n'''}
      (keyword : k.kind = .keyword .if_) (opening : l.kind = .symbol .leftParen)
      (condition : Derives .expression p n ts c n')
      (closing : r.kind = .symbol .rightParen)
      (thenBranch : Derives (.statement false) p n' us s n'')
      (otherwise : x.kind = .keyword .else_)
      (elseBranch : Derives (.statement opened) p n'' vs s' n''') :
      Derives (.ifStatement opened) p n (k :: l :: (ts ++ r :: (us ++ x :: vs)))
        (.ifElse c s (some s')) n'''
  | while_ {p n k l ts c n' r us opened s n''} (keyword : k.kind = .keyword .while_)
      (opening : l.kind = .symbol .leftParen)
      (condition : Derives .expression p n ts c n')
      (closing : r.kind = .symbol .rightParen)
      (body : Derives (.statement opened) p.loop n' us s n'') :
      Derives (.whileStatement opened) p n (k :: l :: (ts ++ r :: us)) (.while_ c s) n''
  | for_ {p n k l ts i n₁ us c n₂ e vs j n₃ r ws opened s n₄}
      (keyword : k.kind = .keyword .for_) (opening : l.kind = .symbol .leftParen)
      (start : Derives .initializer p n ts i n₁)
      (condition : Derives .optionalExpression p n₁ us c n₂)
      (ending : e.kind = .symbol .semicolon)
      (step : Derives .optionalExpression p n₂ vs j n₃)
      (closing : r.kind = .symbol .rightParen)
      (body : Derives (.statement opened) p.loop n₃ ws s n₄) :
      Derives (.forStatement opened) p n (k :: l :: (ts ++ (us ++ e :: (vs ++ r :: ws))))
        (desugarFor k.span i c j s) n₄
  | break_ {p n k e} (keyword : k.kind = .keyword .break_) (inside : p.inLoop = true)
      (ending : e.kind = .symbol .semicolon) :
      Derives .breakStatement p n [k, e] (.break_ k.span) n
  | return_ {p n k ts v n' e} (keyword : k.kind = .keyword .return_)
      (value : Derives .optionalExpression p n ts v n') (ending : e.kind = .symbol .semicolon) :
      Derives .returnStatement p n (k :: (ts ++ [e])) (.return_ k.span v) n'
  -- exprStmt
  | terminated {p n ts v n' e} (value : Derives .expression p n ts v n')
      (ending : e.kind = .symbol .semicolon) :
      Derives .expressionStatement p n (ts ++ [e]) (.expression v) n'
  -- varDecl | exprStmt | ";"
  | noInitializer {p n e} (ending : e.kind = .symbol .semicolon) :
      Derives .initializer p n [e] none n
  | declaring {p n ts s n'} (declaration : Derives .varDeclaration p n ts s n') :
      Derives .initializer p n ts (some s) n'
  | evaluating {p n ts s n'} (statement : Derives .expressionStatement p n ts s n') :
      Derives .initializer p n ts (some s) n'
  -- expression?
  | noExpression {p n} : Derives .optionalExpression p n [] none n
  | someExpression {p n ts e n'} (value : Derives .expression p n ts e n') :
      Derives .optionalExpression p n ts (some e) n'
  -- expression
  | expression {p n ts e n'} (room : p.depth < maxNesting)
      (assignment : Derives .assignment p.deeper n ts e n') : Derives .expression p n ts e n'
  -- assignment: the number of the variable that the left side was read as stays unused
  | assign {p n t q ts e n'} (name : t.kind = .identifier) (equal : q.kind = .symbol .equal)
      (value : Derives .assignment p (n + 1) ts e n') :
      Derives .assignment p n (t :: q :: ts) (.assign ⟨n', t.ident⟩ e) (n' + 1)
  | set {p n ts o n' d t q us e n''} (object : Derives .call p n ts o n')
      (dot : d.kind = .symbol .dot) (name : t.kind = .identifier)
      (equal : q.kind = .symbol .equal) (value : Derives .assignment p n' us e n'') :
      Derives .assignment p n (ts ++ d :: t :: q :: us) (.set o t.ident e) n''
  | operators {p n ts e n'} (operation : Derives (.operation .or) p n ts e n') :
      Derives .assignment p n ts e n'
  -- logic_or, logic_and, equality, comparison, term, factor
  | operation {p n level ts left n' us e n''} (first : Derives (.operand level) p n ts left n')
      (rest : Derives (.chain level left) p n' us e n'') :
      Derives (.operation level) p n (ts ++ us) e n''
  | noOperator {p n level left} : Derives (.chain level left) p n [] left n
  | operator {p n level left t op ts e n' us e' n''}
      (operator : level.operator? t.kind = some op)
      (right : Derives (.operand level) p n ts e n')
      (rest : Derives (.chain level (op.apply left t.span e)) p n' us e' n'') :
      Derives (.chain level left) p n (t :: (ts ++ us)) e' n''
  | tighter {p n level level' ts e n'} (next : level.tighter? = some level')
      (operation : Derives (.operation level') p n ts e n') :
      Derives (.operand level) p n ts e n'
  | tightest {p n level ts e n'} (last : level.tighter? = none)
      (unary : Derives .unary p n ts e n') : Derives (.operand level) p n ts e n'
  -- unary
  | unary {p n t op ts e n'} (operator : unaryOperator? t.kind = some op)
      (room : p.depth < maxNesting) (operand : Derives .unary p.deeper n ts e n') :
      Derives .unary p n (t :: ts) (.unary op t.span e) n'
  | noUnary {p n ts e n'} (call : Derives .call p n ts e n') : Derives .unary p n ts e n'
  -- call
  | call {p n ts callee n' us e n''} (head : Derives .primary p n ts callee n')
      (rest : Derives (.suffixes callee) p n' us e n'') : Derives .call p n (ts ++ us) e n''
  | noSuffix {p n callee} : Derives (.suffixes callee) p n [] callee n
  | apply {p n callee l ts args n' r us e n''} (opening : l.kind = .symbol .leftParen)
      (arguments : Derives .argumentList p n ts args n') (few : args.length ≤ maxArity)
      (closing : r.kind = .symbol .rightParen)
      (rest : Derives (.suffixes (.call callee r.span args)) p n' us e n'') :
      Derives (.suffixes callee) p n (l :: (ts ++ r :: us)) e n''
  | get {p n callee d t ts e n'} (dot : d.kind = .symbol .dot) (name : t.kind = .identifier)
      (rest : Derives (.suffixes (.get callee t.ident)) p n ts e n') :
      Derives (.suffixes callee) p n (d :: t :: ts) e n'
  -- arguments?
  | noArguments {p n} : Derives .argumentList p n [] [] n
  | someArguments {p n ts args n'} (arguments : Derives .arguments p n ts args n') :
      Derives .argumentList p n ts args n'
  | lastArgument {p n ts e n'} (value : Derives .expression p n ts e n') :
      Derives .arguments p n ts [e] n'
  | moreArguments {p n ts e n' c us args n''} (value : Derives .expression p n ts e n')
      (comma : c.kind = .symbol .comma) (rest : Derives .arguments p n' us args n'') :
      Derives .arguments p n (ts ++ c :: us) (e :: args) n''
  -- primary
  | literal {p n t v} (literal : literal? t.kind = some v) :
      Derives .primary p n [t] (.literal v t.span) n
  | var {p n t} (name : t.kind = .identifier) :
      Derives .primary p n [t] (.var ⟨n, t.ident⟩) (n + 1)
  | grouping {p n l ts e n' r} (opening : l.kind = .symbol .leftParen)
      (inner : Derives .expression p n ts e n') (closing : r.kind = .symbol .rightParen) :
      Derives .primary p n (l :: (ts ++ [r])) (.grouping e (l.span.cover r.span)) n'
  | this {p n k} (keyword : k.kind = .keyword .this) :
      Derives .primary p n [k] (.this n k.span) (n + 1)
  | super {p n k d t} (keyword : k.kind = .keyword .super) (dot : d.kind = .symbol .dot)
      (name : t.kind = .identifier) :
      Derives .primary p n [k, d, t] (.super n k.span t.ident) (n + 1)
  | lambda {p n k ts fn n'} (keyword : k.kind = .keyword .fun_)
      (closure : Derives (.closure k.span) p n ts fn n') :
      Derives .primary p n (k :: ts) (.lambda fn) n'

/-- The tokens derive from `program`: they are declarations at the top. -/
def DerivesProgram (first : Nat) (tokens : List Token) (program : List Stmt) (next : Nat) : Prop :=
  Derives .declarations .top first tokens program next

end Grammar
end Lox
