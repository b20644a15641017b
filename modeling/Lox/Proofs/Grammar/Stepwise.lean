import Lox.Grammar.Program

/-! # What holds of all rules

The rules of the grammar are made of a few kinds of steps. A property of rules that
these steps have, and that sequences of steps and the recovery keep, holds of every
rule, whatever the bound on its steps is. -/

namespace Lox.Grammar

open Rule

/-- The steps have a property, and what is made of steps has it if its parts do. A step that notes
an error at a span needs a good one, such as that of a token that has been taken. -/
structure Rule.Stepwise (good : Span → Prop) (P : (α : Type) → Rule α → Prop) : Prop where
  pure {α : Type} (a : α) : P α (pure a)
  starve {α : Type} : P α starve
  refuse {α : Type} (error : GrammarError) : P α (refuse error)
  note (error : GrammarError) {span : Span} (hspan : good span) : P Unit (note error span)
  noteHere (error : GrammarError) : P Unit (noteHere error)
  test (f : Cursor → Bool) : P Bool (test f)
  takeIf {α : Type} (select : TokenKind → Option α) : P (Option (α × Token)) (takeIf select)
  accept (kind : TokenKind) : P (Option Token) (accept kind)
  accepted {β : Type} {kind : TokenKind} {k : Option Token → Rule β}
    (hsome : ∀ t, good t.span → P β (k (some t))) (hnone : P β (k none)) :
    P β (Rule.accept kind >>= k)
  fresh : P Nat fresh
  bind {α β : Type} {r : Rule α} {k : α → Rule β} (hr : P α r) (hk : ∀ a, P β (k a)) :
    P β (r >>= k)
  recover {α : Type} {r : Rule α} (hr : P α r) : P (Option α) (recover r)

namespace Rule.Stepwise

variable {good : Span → Prop} {P : (α : Type) → Rule α → Prop} {α β : Type}

theorem map (h : Stepwise good P) {r : Rule α} (f : α → β) (hr : P α r) : P β (f <$> r) := by
  rw [map_eq_pure_bind]
  exact h.bind hr fun _ => h.pure _

/-- A token may have been taken, or another thing found. -/
theorem found (h : Stepwise good P) {r : Rule (Option α)} {k : Option α → Rule β}
    (hr : P (Option α) r) (hsome : ∀ a, P β (k (some a))) (hnone : P β (k none)) :
    P β (r >>= k) := by
  refine h.bind hr fun result => ?_
  cases result with
  | none => exact hnone
  | some a => exact hsome a

theorem tested (h : Stepwise good P) {f : Cursor → Bool} {k : Bool → Rule β} (htrue : P β (k true))
    (hfalse : P β (k false)) : P β (Rule.test f >>= k) := by
  refine h.bind (h.test f) fun seen => ?_
  cases seen with
  | true => exact htrue
  | false => exact hfalse

/-- An error may be noted first. -/
theorem noteIf (h : Stepwise good P) {reason : Prop} [Decidable reason] {mark : Rule PUnit}
    {k : PUnit → Rule β} (hmark : P PUnit mark) (hk : P β (k ⟨⟩)) :
    P β (if reason then mark >>= k else k ⟨⟩) := by
  split
  · exact h.bind hmark fun _ => hk
  · exact hk

theorem expect (h : Stepwise good P) (kind : TokenKind) (what : String) :
    P Token (Rule.expect kind what) :=
  h.found (h.accept kind) (fun t => h.pure t) (h.refuse _)

theorem name (h : Stepwise good P) (what : String) : P Ident (Rule.name what) :=
  h.bind (h.expect .identifier what) fun _ => h.pure _

theorem nested (h : Stepwise good P) {p : Place} {rule : Place → Rule α} (hrule : P α (rule p.deeper)) :
    P α (Rule.nested p rule) := by
  unfold Rule.nested
  split
  · exact h.refuse _
  · exact hrule

theorem parameters (h : Stepwise good P) : ∀ (fuel : Nat) (done : Array Ident),
    P (Array Ident) (parameters fuel done)
  | 0, _ => h.starve
  | fuel + 1, done => by
    rw [Grammar.parameters]
    refine h.noteIf (h.noteHere _) (h.bind (h.name _) fun param => ?_)
    exact h.found (h.accept _) (fun _ => parameters h fuel _) (h.pure _)

theorem assignTo (h : Stepwise good P) (target : Expr) {equals : Span} (hequals : good equals)
    (value : Expr) : P Expr (assignTo target equals value) := by
  unfold Grammar.assignTo
  split
  · exact h.bind h.fresh fun _ => h.pure _
  · exact h.pure _
  · exact h.bind (h.note _ hequals) fun _ => h.pure _

theorem superclassClause (h : Stepwise good P) : P (Option Reference) superclassClause := by
  unfold Grammar.superclassClause
  refine h.found (h.accept _) (fun _ => ?_) (h.pure _)
  exact h.bind (h.name _) fun parent => h.bind h.fresh fun id => h.pure _

theorem breakStatement (h : Stepwise good P) (p : Place) {keyword : Span}
    (hkeyword : good keyword) : P Stmt (breakStatement p keyword) := by
  unfold Grammar.breakStatement
  exact h.noteIf (h.note _ hkeyword) (h.bind (h.expect ..) fun _ => h.pure _)

end Rule.Stepwise

/-- All rules have a property, within so many steps. -/
structure Throughout (P : (α : Type) → Rule α → Prop) (fuel : Nat) : Prop where
  expression : ∀ p, P Expr (expression fuel p)
  assignment : ∀ p, P Expr (assignment fuel p)
  operation : ∀ p level, P Expr (operation fuel p level)
  chain : ∀ p level left, P Expr (chain fuel p level left)
  operand : ∀ p level, P Expr (operand fuel p level)
  unary : ∀ p, P Expr (unary fuel p)
  calls : ∀ p callee, P Expr (calls fuel p callee)
  argumentList : ∀ p, P (List Expr) (argumentList fuel p)
  arguments : ∀ p done, P (Array Expr) (arguments fuel p done)
  primary : ∀ p, P Expr (primary fuel p)
  functionTail : ∀ p start role, P Lambda (functionTail fuel p start role)
  namedFunction : ∀ p role, P Method (namedFunction fuel p role)
  block : ∀ p, P (List Stmt × Span) (block fuel p)
  declarations : ∀ p done, P (Array Stmt) (declarations fuel p done)
  declaration : ∀ p, P (Option Stmt) (declaration fuel p)
  declared : ∀ p, P Stmt (declared fuel p)
  classDeclaration : ∀ p, P Stmt (classDeclaration fuel p)
  methods : ∀ p done, P (Array Method) (methods fuel p done)
  varDeclaration : ∀ p, P Stmt (varDeclaration fuel p)
  statement : ∀ p, P Stmt (statement fuel p)
  statementBody : ∀ p, P Stmt (statementBody fuel p)
  expressionStatement : ∀ p, P Stmt (expressionStatement fuel p)
  forStatement : ∀ p keyword, P Stmt (forStatement fuel p keyword)
  forInitializer : ∀ p, P (Option Stmt) (forInitializer fuel p)
  optionalExpression : ∀ p closing, P (Option Expr) (optionalExpression fuel p closing)
  ifStatement : ∀ p, P Stmt (ifStatement fuel p)
  whileStatement : ∀ p, P Stmt (whileStatement fuel p)
  returnStatement : ∀ p keyword, P Stmt (returnStatement fuel p keyword)

namespace Throughout

variable {good : Span → Prop} {P : (α : Type) → Rule α → Prop} {fuel : Nat}
  (h : Rule.Stepwise good P) (ih : Throughout P fuel) (p : Place)
include h ih

theorem assignment_succ : P Expr (Grammar.assignment (fuel + 1) p) := by
  rw [Grammar.assignment]
  refine h.bind (ih.operation p .or) fun target => h.accepted (fun equals hequals => ?_) (h.pure _)
  exact h.bind (ih.assignment p) fun value => h.assignTo target hequals value

theorem chain_succ (level : Level) (left : Expr) :
    P Expr (Grammar.chain (fuel + 1) p level left) := by
  rw [Grammar.chain]
  refine h.found (h.takeIf _) (fun found => ?_) (h.pure _)
  exact h.bind (ih.operand p level) fun right => ih.chain p level _

omit h in
theorem operand_succ (level : Level) : P Expr (Grammar.operand (fuel + 1) p level) := by
  rw [Grammar.operand]
  cases level.tighter? with
  | none => exact ih.unary p
  | some tighter => exact ih.operation p tighter

theorem unary_succ : P Expr (Grammar.unary (fuel + 1) p) := by
  rw [Grammar.unary]
  refine h.found (h.takeIf _) (fun found => ?_) ?_
  · exact h.bind (h.nested (ih.unary p.deeper)) fun operand => h.pure _
  · exact h.bind (ih.primary p) fun head => ih.calls p head

theorem calls_succ (callee : Expr) : P Expr (Grammar.calls (fuel + 1) p callee) := by
  rw [Grammar.calls]
  refine h.found (h.accept _) (fun opened => ?_) (h.found (h.accept _) (fun dot => ?_) (h.pure _))
  · exact h.bind (ih.argumentList p) fun args => h.bind (h.expect ..) fun close => ih.calls p _
  · exact h.bind (h.name _) fun property => ih.calls p _

theorem arguments_succ (done : Array Expr) :
    P (Array Expr) (Grammar.arguments (fuel + 1) p done) := by
  rw [Grammar.arguments]
  refine h.noteIf (h.noteHere _) (h.bind (ih.expression p) fun arg => ?_)
  exact h.found (h.accept _) (fun _ => ih.arguments p _) (h.pure _)

theorem primary_succ : P Expr (Grammar.primary (fuel + 1) p) := by
  rw [Grammar.primary]
  refine h.found (h.takeIf _) (fun constant => h.pure _) ?_
  refine h.found (h.accept _) (fun token => h.bind h.fresh fun id => h.pure _) ?_
  refine h.found (h.accept _) (fun opened => ?_) ?_
  · exact h.bind (ih.expression p) fun inner => h.bind (h.expect ..) fun close => h.pure _
  refine h.found (h.accept _) (fun token => h.bind h.fresh fun id => h.pure _) ?_
  refine h.found (h.accept _) (fun token => ?_) (h.found (h.accept _) (fun token => ?_) (h.refuse _))
  · exact h.bind (h.expect ..) fun _ => h.bind (h.name _) fun method =>
      h.bind h.fresh fun id => h.pure _
  · exact h.bind (h.expect ..) fun _ => h.bind (ih.functionTail p _ _) fun fn => h.pure _

theorem functionTail_succ (start : Span) (role : Role) :
    P Lambda (Grammar.functionTail (fuel + 1) p start role) := by
  rw [Grammar.functionTail]
  have hbody (params : Array Ident) : P Lambda
      (Rule.expect (.symbol .rightParen) "')' after parameters" >>= fun _ =>
        Rule.expect (.symbol .leftBrace) ("'\x7b' before " ++ role.word ++ " body") >>= fun _ =>
          Grammar.block fuel p.function >>= fun body =>
            Pure.pure (⟨params.toList, body.1, start.cover body.2⟩ : Lambda)) :=
    h.bind (h.expect ..) fun _ => h.bind (h.expect ..) fun _ =>
      h.bind (ih.block p.function) fun body => h.pure _
  exact h.tested (hbody #[]) (h.bind (h.parameters fuel #[]) hbody)

theorem namedFunction_succ (role : Role) :
    P Method (Grammar.namedFunction (fuel + 1) p role) := by
  rw [Grammar.namedFunction]
  refine h.bind (h.name _) fun name => h.bind (h.expect ..) fun _ => ?_
  exact h.bind (ih.functionTail p name.span role) fun fn => h.pure _

theorem block_succ : P (List Stmt × Span) (Grammar.block (fuel + 1) p) := by
  rw [Grammar.block]
  refine h.nested (h.bind (ih.declarations p.deeper #[]) fun body => ?_)
  exact h.bind (h.expect ..) fun close => h.pure _

theorem declarations_succ (done : Array Stmt) :
    P (Array Stmt) (Grammar.declarations (fuel + 1) p done) := by
  rw [Grammar.declarations]
  refine h.tested (h.pure _) ?_
  exact h.found (ih.declaration p) (fun s => ih.declarations p _) (ih.declarations p done)

theorem declared_succ : P Stmt (Grammar.declared (fuel + 1) p) := by
  rw [Grammar.declared]
  refine h.found (h.accept _) (fun _ => ih.classDeclaration p) (h.tested ?_ ?_)
  · exact h.bind (h.accept _) fun _ => h.bind (ih.namedFunction p .function) fun declared => h.pure _
  · exact h.found (h.accept _) (fun _ => ih.varDeclaration p) (ih.statement p)

theorem classDeclaration_succ : P Stmt (Grammar.classDeclaration (fuel + 1) p) := by
  rw [Grammar.classDeclaration]
  refine h.bind (h.name _) fun className => h.bind h.superclassClause fun superclass => ?_
  refine h.bind (h.expect ..) fun _ => h.bind (ih.methods p #[]) fun declared => ?_
  exact h.bind (h.expect ..) fun _ => h.pure _

theorem methods_succ (done : Array Method) :
    P (Array Method) (Grammar.methods (fuel + 1) p done) := by
  rw [Grammar.methods]
  refine h.tested (h.pure _) ?_
  exact h.bind (ih.namedFunction p .method) fun method => ih.methods p _

theorem varDeclaration_succ : P Stmt (Grammar.varDeclaration (fuel + 1) p) := by
  rw [Grammar.varDeclaration]
  have hend (name : Ident) (initializer : Option Expr) : P Stmt
      (Rule.expect (.symbol .semicolon) "';' after variable declaration" >>= fun _ =>
        Pure.pure (.var name initializer)) :=
    h.bind (h.expect ..) fun _ => h.pure _
  refine h.bind (h.name _) fun name => h.found (h.accept _) (fun _ => ?_) (hend name none)
  exact h.bind (h.map some (ih.expression p)) fun initializer => hend name initializer

theorem statementBody_succ : P Stmt (Grammar.statementBody (fuel + 1) p) := by
  rw [Grammar.statementBody]
  refine h.found (h.accept _) (fun token => ih.forStatement p token.span) ?_
  refine h.found (h.accept _) (fun _ => ih.ifStatement p) ?_
  refine h.found (h.accept _) (fun _ => ih.whileStatement p) ?_
  refine h.accepted (fun token htoken => h.breakStatement p htoken) ?_
  refine h.found (h.accept _) (fun token => ih.returnStatement p token.span) ?_
  refine h.found (h.accept _) (fun _ => h.bind (ih.block p) fun body => h.pure _) ?_
  refine h.found (h.accept _) (fun _ => ?_) (ih.expressionStatement p)
  exact h.bind (ih.expression p) fun value => h.bind (h.expect ..) fun _ => h.pure _

theorem expressionStatement_succ : P Stmt (Grammar.expressionStatement (fuel + 1) p) := by
  rw [Grammar.expressionStatement]
  exact h.bind (ih.expression p) fun value => h.bind (h.expect ..) fun _ => h.pure _

theorem forStatement_succ (keyword : Span) :
    P Stmt (Grammar.forStatement (fuel + 1) p keyword) := by
  rw [Grammar.forStatement]
  refine h.bind (h.expect ..) fun _ => h.bind (ih.forInitializer p) fun initializer => ?_
  refine h.bind (ih.optionalExpression p _) fun condition => h.bind (h.expect ..) fun _ => ?_
  refine h.bind (ih.optionalExpression p _) fun increment => h.bind (h.expect ..) fun _ => ?_
  exact h.bind (ih.statement p.loop) fun body => h.pure _

theorem forInitializer_succ : P (Option Stmt) (Grammar.forInitializer (fuel + 1) p) := by
  rw [Grammar.forInitializer]
  refine h.found (h.accept _) (fun _ => h.pure _) (h.found (h.accept _) (fun _ => ?_) ?_)
  · exact h.map some (ih.varDeclaration p)
  · exact h.map some (ih.expressionStatement p)

theorem optionalExpression_succ (closing : Symbol) :
    P (Option Expr) (Grammar.optionalExpression (fuel + 1) p closing) := by
  rw [Grammar.optionalExpression]
  exact h.tested (h.pure _) (h.map some (ih.expression p))

theorem ifStatement_succ : P Stmt (Grammar.ifStatement (fuel + 1) p) := by
  rw [Grammar.ifStatement]
  refine h.bind (h.expect ..) fun _ => h.bind (ih.expression p) fun condition => ?_
  refine h.bind (h.expect ..) fun _ => h.bind (ih.statement p) fun thenBranch => ?_
  refine h.found (h.accept _) (fun _ => ?_) (h.pure _)
  exact h.bind (ih.statement p) fun elseBranch => h.pure _

theorem whileStatement_succ : P Stmt (Grammar.whileStatement (fuel + 1) p) := by
  rw [Grammar.whileStatement]
  refine h.bind (h.expect ..) fun _ => h.bind (ih.expression p) fun condition => ?_
  exact h.bind (h.expect ..) fun _ => h.bind (ih.statement p.loop) fun body => h.pure _

theorem returnStatement_succ (keyword : Span) :
    P Stmt (Grammar.returnStatement (fuel + 1) p keyword) := by
  rw [Grammar.returnStatement]
  exact h.bind (ih.optionalExpression p _) fun value => h.bind (h.expect ..) fun _ => h.pure _

end Throughout

/-- What the steps have, all rules have. -/
theorem Rule.Stepwise.throughout {good : Span → Prop} {P : (α : Type) → Rule α → Prop}
    (h : Rule.Stepwise good P) : ∀ fuel, Throughout P fuel
  | 0 => by constructor <;> intros <;> exact h.starve
  | fuel + 1 => by
    have ih := throughout h fuel
    exact {
      expression := fun p => h.nested (ih.assignment p.deeper)
      assignment := ih.assignment_succ h
      operation := fun p level => h.bind (ih.operand p level) fun first => ih.chain p level first
      chain := ih.chain_succ h
      operand := ih.operand_succ
      unary := ih.unary_succ h
      calls := ih.calls_succ h
      argumentList := fun p => h.tested (h.pure _) (h.bind (ih.arguments p #[]) fun _ => h.pure _)
      arguments := ih.arguments_succ h
      primary := ih.primary_succ h
      functionTail := ih.functionTail_succ h
      namedFunction := ih.namedFunction_succ h
      block := ih.block_succ h
      declarations := ih.declarations_succ h
      declaration := fun p => h.recover (ih.declared p)
      declared := ih.declared_succ h
      classDeclaration := ih.classDeclaration_succ h
      methods := ih.methods_succ h
      varDeclaration := ih.varDeclaration_succ h
      statement := fun p => h.nested (ih.statementBody p.deeper)
      statementBody := ih.statementBody_succ h
      expressionStatement := ih.expressionStatement_succ h
      forStatement := ih.forStatement_succ h
      forInitializer := ih.forInitializer_succ h
      optionalExpression := ih.optionalExpression_succ h
      ifStatement := ih.ifStatement_succ h
      whileStatement := ih.whileStatement_succ h
      returnStatement := ih.returnStatement_succ h }

theorem Rule.Stepwise.program {good : Span → Prop} {P : (α : Type) → Rule α → Prop}
    (h : Rule.Stepwise good P) : ∀ (fuel : Nat) (done : Array Stmt), P (Array Stmt) (program fuel done)
  | 0, _ => h.starve
  | fuel + 1, done => by
    rw [Grammar.program]
    refine h.tested (h.pure _) (h.found ((h.throughout fuel).declaration .top) (fun s => ?_) ?_)
    · exact program h fuel (done.push s)
    · exact program h fuel done

end Lox.Grammar
