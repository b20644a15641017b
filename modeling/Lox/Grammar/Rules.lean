import Lox.Grammar.Cursor
import Lox.Grammar.Operators

/-! # The rules of the grammar

```text
program     → declaration* ;
declaration → "class" IDENT ( "<" IDENT )? "{" function* "}"
            | "fun" function | "var" IDENT ( "=" expression )? ";" | statement ;
function    → IDENT "(" parameters? ")" block ;
statement   → expression ";" | "print" expression ";" | "break" ";" | "return" expression? ";"
            | "if" "(" expression ")" statement ( "else" statement )?
            | "while" "(" expression ")" statement
            | "for" "(" ( declaration of a variable | expression? ";" )
              expression? ";" expression? ")" statement
            | block ;
block       → "{" declaration* "}" ;
expression  → assignment ;
assignment  → ( call "." )? IDENT "=" assignment | the levels of operators ;
unary       → ( "!" | "-" ) unary | call ;
call        → primary ( "(" arguments? ")" | "." IDENT )* ;
primary     → a constant | "this" | IDENT | "(" expression ")" | "super" "." IDENT
            | "fun" "(" parameters? ")" block ;
```

Every use of a rule inside a rule takes one step of a bound. Between two tokens
only so many steps can be taken, so a bound that is a multiple of the number of
tokens is never used up; `Lox.Grammar.Program` supplies it. -/

namespace Lox.Grammar
open Rule

/-- What a function is called in messages. -/
inductive Role where
  | function
  | method
deriving Repr, DecidableEq

def Role.word : Role → String
  | function => "function"
  | method => "method"

/-- The names of parameters, after those already read. -/
def parameters : Nat → Array Ident → Rule (Array Ident)
  | 0, _ => starve
  | fuel + 1, done => do
    if maxArity ≤ done.size then noteHere .tooManyParameters
    let param ← name "parameter name"
    match ← accept (.symbol .comma) with
    | some _ => parameters fuel (done.push param)
    | none => pure (done.push param)

/-- The expression that an assignment to `target` builds. -/
def assignTo (target : Expr) (equals : Span) (value : Expr) : Rule Expr :=
  match target with
  | .var ref => do
    let id ← fresh
    pure (.assign ⟨id, ref.name⟩ value)
  | .get object name => pure (.set object name value)
  | other => do
    note .invalidAssignmentTarget equals
    pure other

/-- The superclass, if one is named. -/
def superclassClause : Rule (Option Reference) := do
  match ← accept (.symbol .less) with
  | some _ =>
    let parent ← name "superclass name"
    let id ← fresh
    pure (some ⟨id, parent⟩)
  | none => pure none

/-- A `break` after its keyword. -/
def breakStatement (p : Place) (keyword : Span) : Rule Stmt := do
  if !p.inLoop then note .breakOutsideLoop keyword
  let _ ← expect (.symbol .semicolon) "';' after 'break'"
  pure (.break_ keyword)

/-- A `for` loop, written with the other statements. The increment stands in a
block with the body, the initializer in a block with the loop. -/
def desugarFor (keyword : Span) (initializer : Option Stmt) (condition increment : Option Expr)
    (body : Stmt) : Stmt :=
  let body := match increment with
    | some step => .block [body, .expression step]
    | none => body
  let loop := .while_ (condition.getD (.literal (.bool true) keyword)) body
  match initializer with
  | some start => .block [start, loop]
  | none => loop

mutual

/-- An expression. -/
def expression : Nat → Place → Rule Expr
  | 0, _ => starve
  | fuel + 1, p => nested p fun p => assignment fuel p

/-- An assignment, or what binds tighter. Whether the left side can be assigned
to is seen only after the right side has been read. -/
def assignment : Nat → Place → Rule Expr
  | 0, _ => starve
  | fuel + 1, p => do
    let target ← operation fuel p .or
    match ← accept (.symbol .equal) with
    | some equals =>
      let value ← assignment fuel p
      assignTo target equals.span value
    | none => pure target

/-- Operands of a level, joined by its operators. -/
def operation : Nat → Place → Level → Rule Expr
  | 0, _, _ => starve
  | fuel + 1, p, level => do
    let first ← operand fuel p level
    chain fuel p level first

/-- More operators of a level, with `left` before them. -/
def chain : Nat → Place → Level → Expr → Rule Expr
  | 0, _, _, _ => starve
  | fuel + 1, p, level, left => do
    match ← takeIf level.operator? with
    | some (op, token) =>
      let right ← operand fuel p level
      chain fuel p level (op.apply left token.span right)
    | none => pure left

/-- An operand of a level. -/
def operand : Nat → Place → Level → Rule Expr
  | 0, _, _ => starve
  | fuel + 1, p, level =>
    match level.tighter? with
    | some tighter => operation fuel p tighter
    | none => unary fuel p

/-- Unary operators and what they apply to. -/
def unary : Nat → Place → Rule Expr
  | 0, _ => starve
  | fuel + 1, p => do
    match ← takeIf unaryOperator? with
    | some (op, token) =>
      let operand ← nested p fun p => unary fuel p
      pure (.unary op token.span operand)
    | none =>
      let head ← primary fuel p
      calls fuel p head

/-- Calls and properties of `callee`. -/
def calls : Nat → Place → Expr → Rule Expr
  | 0, _, _ => starve
  | fuel + 1, p, callee => do
    match ← accept (.symbol .leftParen) with
    | some _ =>
      let args ← argumentList fuel p
      let close ← expect (.symbol .rightParen) "')' after arguments"
      calls fuel p (.call callee close.span args)
    | none =>
      match ← accept (.symbol .dot) with
      | some _ =>
        let property ← name "property name after '.'"
        calls fuel p (.get callee property)
      | none => pure callee

/-- The arguments of a call, up to the closing parenthesis. -/
def argumentList : Nat → Place → Rule (List Expr)
  | 0, _ => starve
  | fuel + 1, p => do
    if ← test (·.sees (.symbol .rightParen)) then pure []
    else
      let args ← arguments fuel p #[]
      pure args.toList

/-- Arguments, after those already read. -/
def arguments : Nat → Place → Array Expr → Rule (Array Expr)
  | 0, _, _ => starve
  | fuel + 1, p, done => do
    if maxArity ≤ done.size then noteHere .tooManyArguments
    let arg ← expression fuel p
    match ← accept (.symbol .comma) with
    | some _ => arguments fuel p (done.push arg)
    | none => pure (done.push arg)

/-- The smallest expressions. -/
def primary : Nat → Place → Rule Expr
  | 0, _ => starve
  | fuel + 1, p => do
    match ← takeIf literal? with
    | some (value, token) => pure (.literal value token.span)
    | none =>
    match ← accept .identifier with
    | some token =>
      let id ← fresh
      pure (.var ⟨id, ⟨token.lexeme, token.span⟩⟩)
    | none =>
    match ← accept (.symbol .leftParen) with
    | some opened =>
      let inner ← expression fuel p
      let close ← expect (.symbol .rightParen) "')' after expression"
      pure (.grouping inner (opened.span.cover close.span))
    | none =>
    match ← accept (.keyword .this) with
    | some token =>
      let id ← fresh
      pure (.this id token.span)
    | none =>
    match ← accept (.keyword .super) with
    | some token =>
      let _ ← expect (.symbol .dot) "'.' after 'super'"
      let method ← name "superclass method name"
      let id ← fresh
      pure (.super id token.span method)
    | none =>
    match ← accept (.keyword .fun_) with
    | some token =>
      let _ ← expect (.symbol .leftParen) "'(' after 'fun'"
      let fn ← functionTail fuel p token.span .function
      pure (.lambda fn)
    | none => refuse (.expected "expression")

/-- The parameters and the body of a function whose text starts at `start`. -/
def functionTail : Nat → Place → Span → Role → Rule Lambda
  | 0, _, _, _ => starve
  | fuel + 1, p, start, role => do
    let params ←
      if ← test (·.sees (.symbol .rightParen)) then pure #[] else parameters fuel #[]
    let _ ← expect (.symbol .rightParen) "')' after parameters"
    let _ ← expect (.symbol .leftBrace) ("'\x7b' before " ++ role.word ++ " body")
    let (body, close) ← block fuel p.function
    pure ⟨params.toList, body, start.cover close⟩

/-- A named function or a method, after `fun` if that is written. -/
def namedFunction : Nat → Place → Role → Rule Method
  | 0, _, _ => starve
  | fuel + 1, p, role => do
    let name ← name (role.word ++ " name")
    let _ ← expect (.symbol .leftParen) ("'(' after " ++ role.word ++ " name")
    let fn ← functionTail fuel p name.span role
    pure ⟨name, fn⟩

/-- The statements of a block after its opening brace, and the span of the
closing one. -/
def block : Nat → Place → Rule (List Stmt × Span)
  | 0, _ => starve
  | fuel + 1, p => nested p fun p => do
    let body ← declarations fuel p #[]
    let close ← expect (.symbol .rightBrace) "'\x7d' after block"
    pure (body.toList, close.span)

/-- Declarations up to a closing brace or the end, after those already read. -/
def declarations : Nat → Place → Array Stmt → Rule (Array Stmt)
  | 0, _, _ => starve
  | fuel + 1, p, done => do
    if ← test fun c => c.atEnd || c.sees (.symbol .rightBrace) then pure done
    else
      match ← declaration fuel p with
      | some stmt => declarations fuel p (done.push stmt)
      | none => declarations fuel p done

/-- A declaration or a statement. One that does not fit is skipped. -/
def declaration : Nat → Place → Rule (Option Stmt)
  | 0, _ => starve
  | fuel + 1, p => recover (declared fuel p)

/-- A declaration or a statement that fits. -/
def declared : Nat → Place → Rule Stmt
  | 0, _ => starve
  | fuel + 1, p => do
    match ← accept (.keyword .class_) with
    | some _ => classDeclaration fuel p
    | none =>
    if ← test (·.seesBoth (.keyword .fun_) .identifier) then
      let _ ← accept (.keyword .fun_)
      let declared ← namedFunction fuel p .function
      pure (.function declared.name declared.fn)
    else
      match ← accept (.keyword .var) with
      | some _ => varDeclaration fuel p
      | none => statement fuel p

/-- A class after its keyword. -/
def classDeclaration : Nat → Place → Rule Stmt
  | 0, _ => starve
  | fuel + 1, p => do
    let className ← name "class name"
    let superclass ← superclassClause
    let _ ← expect (.symbol .leftBrace) "'\x7b' before class body"
    let declared ← methods fuel p #[]
    let _ ← expect (.symbol .rightBrace) "'\x7d' after class body"
    pure (.class_ className superclass declared.toList)

/-- Methods up to a closing brace or the end, after those already read. -/
def methods : Nat → Place → Array Method → Rule (Array Method)
  | 0, _, _ => starve
  | fuel + 1, p, done => do
    if ← test fun c => c.atEnd || c.sees (.symbol .rightBrace) then pure done
    else
      let method ← namedFunction fuel p .method
      methods fuel p (done.push method)

/-- A variable after its keyword. -/
def varDeclaration : Nat → Place → Rule Stmt
  | 0, _ => starve
  | fuel + 1, p => do
    let name ← name "variable name"
    let initializer ← do
      match ← accept (.symbol .equal) with
      | some _ => some <$> expression fuel p
      | none => pure none
    let _ ← expect (.symbol .semicolon) "';' after variable declaration"
    pure (.var name initializer)

/-- A statement that declares nothing. -/
def statement : Nat → Place → Rule Stmt
  | 0, _ => starve
  | fuel + 1, p => nested p fun p => statementBody fuel p

/-- A statement, one level deeper. -/
def statementBody : Nat → Place → Rule Stmt
  | 0, _ => starve
  | fuel + 1, p => do
    match ← accept (.keyword .for_) with
    | some token => forStatement fuel p token.span
    | none =>
    match ← accept (.keyword .if_) with
    | some _ => ifStatement fuel p
    | none =>
    match ← accept (.keyword .while_) with
    | some _ => whileStatement fuel p
    | none =>
    match ← accept (.keyword .break_) with
    | some token => breakStatement p token.span
    | none =>
    match ← accept (.keyword .return_) with
    | some token => returnStatement fuel p token.span
    | none =>
    match ← accept (.symbol .leftBrace) with
    | some _ =>
      let (body, _) ← block fuel p
      pure (.block body)
    | none =>
    match ← accept (.keyword .print) with
    | some _ =>
      let value ← expression fuel p
      let _ ← expect (.symbol .semicolon) "';' after value"
      pure (.print value)
    | none => expressionStatement fuel p

/-- An expression with its semicolon. -/
def expressionStatement : Nat → Place → Rule Stmt
  | 0, _ => starve
  | fuel + 1, p => do
    let value ← expression fuel p
    let _ ← expect (.symbol .semicolon) "';' after expression"
    pure (.expression value)

/-- A `for` loop after its keyword. -/
def forStatement : Nat → Place → Span → Rule Stmt
  | 0, _, _ => starve
  | fuel + 1, p, keyword => do
    let _ ← expect (.symbol .leftParen) "'(' after 'for'"
    let initializer ← forInitializer fuel p
    let condition ← optionalExpression fuel p .semicolon
    let _ ← expect (.symbol .semicolon) "';' after loop condition"
    let increment ← optionalExpression fuel p .rightParen
    let _ ← expect (.symbol .rightParen) "')' after for clauses"
    let body ← statement fuel p.loop
    pure (desugarFor keyword initializer condition increment body)

/-- The first clause of a `for` loop, with its semicolon. -/
def forInitializer : Nat → Place → Rule (Option Stmt)
  | 0, _ => starve
  | fuel + 1, p => do
    match ← accept (.symbol .semicolon) with
    | some _ => pure none
    | none =>
    match ← accept (.keyword .var) with
    | some _ => some <$> varDeclaration fuel p
    | none => some <$> expressionStatement fuel p

/-- An expression, unless the symbol that closes its place comes at once. -/
def optionalExpression : Nat → Place → Symbol → Rule (Option Expr)
  | 0, _, _ => starve
  | fuel + 1, p, closing => do
    if ← test (·.sees (.symbol closing)) then pure none
    else some <$> expression fuel p

/-- A conditional after its keyword. An `else` belongs to the nearest `if`. -/
def ifStatement : Nat → Place → Rule Stmt
  | 0, _ => starve
  | fuel + 1, p => do
    let _ ← expect (.symbol .leftParen) "'(' after 'if'"
    let condition ← expression fuel p
    let _ ← expect (.symbol .rightParen) "')' after condition"
    let thenBranch ← statement fuel p
    match ← accept (.keyword .else_) with
    | some _ =>
      let elseBranch ← statement fuel p
      pure (.ifElse condition thenBranch (some elseBranch))
    | none => pure (.ifElse condition thenBranch none)

/-- A `while` loop after its keyword. -/
def whileStatement : Nat → Place → Rule Stmt
  | 0, _ => starve
  | fuel + 1, p => do
    let _ ← expect (.symbol .leftParen) "'(' after 'while'"
    let condition ← expression fuel p
    let _ ← expect (.symbol .rightParen) "')' after condition"
    let body ← statement fuel p.loop
    pure (.while_ condition body)

/-- A `return` after its keyword. -/
def returnStatement : Nat → Place → Span → Rule Stmt
  | 0, _, _ => starve
  | fuel + 1, p, keyword => do
    let value ← optionalExpression fuel p .semicolon
    let _ ← expect (.symbol .semicolon) "';' after return value"
    pure (.return_ keyword value)

end

end Lox.Grammar
