import Lox.Grammar.Program
import Lox.Proofs.Outcome

/-! # The bound on steps of a rule

Within two bounds that are not used up a rule does the same. -/

namespace Lox.Grammar

open Rule

variable {α β : Type}

/-- Wherever both rules have steps enough, they do the same. -/
def Agrees (r r' : Rule α) : Prop :=
  ∀ c, (∃ d, r c = .error .starved d) ∨ (∃ d, r' c = .error .starved d) ∨ r c = r' c

theorem Agrees.refl (r : Rule α) : Agrees r r := fun _ => .inr (.inr rfl)

theorem agrees_starve {r : Rule α} : Agrees starve r := fun c => .inl ⟨c, rfl⟩

theorem starve_agrees {r : Rule α} : Agrees r starve := fun c => .inr (.inl ⟨c, rfl⟩)

theorem Agrees.bind {r r' : Rule α} {k k' : α → Rule β} (h : Agrees r r')
    (hk : ∀ a, Agrees (k a) (k' a)) : Agrees (r >>= k) (r' >>= k') := by
  intro c
  rcases h c with ⟨d, hd⟩ | ⟨d, hd⟩ | hsame
  · exact .inl ⟨d, bind_of_error hd⟩
  · exact .inr (.inl ⟨d, bind_of_error hd⟩)
  · cases hr : r' c with
    | ok a d =>
      rw [bind_of_ok (hsame.trans hr), bind_of_ok hr]
      exact hk a d
    | error halt d =>
      rw [bind_of_error (hsame.trans hr), bind_of_error hr]
      exact .inr (.inr rfl)

theorem Agrees.map {r r' : Rule α} {f : α → β} (h : Agrees r r') : Agrees (f <$> r) (f <$> r') := by
  rw [map_eq_pure_bind, map_eq_pure_bind]
  exact h.bind fun _ => .refl _

/-- What follows on a step that both take. -/
theorem agrees_next {r : Rule α} {k k' : α → Rule β} (hk : ∀ a, Agrees (k a) (k' a)) :
    Agrees (r >>= k) (r >>= k') := (Agrees.refl r).bind hk

/-- Both have taken a token, or neither has. -/
theorem agrees_found {γ : Type} {r : Rule (Option γ)} {k k' : Option γ → Rule β}
    (hsome : ∀ x, Agrees (k (some x)) (k' (some x))) (hnone : Agrees (k none) (k' none)) :
    Agrees (r >>= k) (r >>= k') := by
  refine agrees_next fun found => ?_
  cases found with
  | none => exact hnone
  | some x => exact hsome x

/-- Both have seen the same. -/
theorem agrees_test {f : Cursor → Bool} {k k' : Bool → Rule β} (htrue : Agrees (k true) (k' true))
    (hfalse : Agrees (k false) (k' false)) : Agrees (test f >>= k) (test f >>= k') := by
  refine agrees_next fun seen => ?_
  cases seen with
  | true => exact htrue
  | false => exact hfalse

theorem agrees_noteIf {reason : Prop} [Decidable reason] {mark : Rule PUnit} {k k' : PUnit → Rule β}
    (h : Agrees (k ⟨⟩) (k' ⟨⟩)) :
    Agrees (if reason then mark >>= k else k ⟨⟩) (if reason then mark >>= k' else k' ⟨⟩) := by
  split
  · exact agrees_next fun _ => h
  · exact h

theorem agrees_nested {p : Place} {r r' : Place → Rule α} (h : Agrees (r p.deeper) (r' p.deeper)) :
    Agrees (nested p r) (nested p r') := by
  unfold nested
  split
  · exact .refl _
  · exact h

theorem Agrees.recover {r r' : Rule α} (h : Agrees r r') : Agrees (recover r) (recover r') := by
  intro c
  rcases h c with ⟨d, hd⟩ | ⟨d, hd⟩ | hsame
  · exact .inl ⟨d, by simp only [Rule.recover, hd]⟩
  · exact .inr (.inl ⟨d, by simp only [Rule.recover, hd]⟩)
  · exact .inr (.inr (by simp only [Rule.recover, hsame]))

theorem agrees_parameters : ∀ (fuel fuel' : Nat) (done : Array Ident),
    Agrees (parameters fuel done) (parameters fuel' done)
  | 0, _, _ => agrees_starve
  | _ + 1, 0, _ => starve_agrees
  | fuel + 1, fuel' + 1, done => by
    rw [parameters, parameters]
    refine agrees_noteIf (agrees_next fun param => agrees_found (fun _ => ?_) (.refl _))
    exact agrees_parameters fuel fuel' _

/-- What all rules do within two bounds. -/
structure Agreeing (fuel fuel' : Nat) : Prop where
  expression : ∀ p, Agrees (expression fuel p) (expression fuel' p)
  assignment : ∀ p, Agrees (assignment fuel p) (assignment fuel' p)
  operation : ∀ p level, Agrees (operation fuel p level) (operation fuel' p level)
  chain : ∀ p level left, Agrees (chain fuel p level left) (chain fuel' p level left)
  operand : ∀ p level, Agrees (operand fuel p level) (operand fuel' p level)
  unary : ∀ p, Agrees (unary fuel p) (unary fuel' p)
  calls : ∀ p callee, Agrees (calls fuel p callee) (calls fuel' p callee)
  argumentList : ∀ p, Agrees (argumentList fuel p) (argumentList fuel' p)
  arguments : ∀ p done, Agrees (arguments fuel p done) (arguments fuel' p done)
  primary : ∀ p, Agrees (primary fuel p) (primary fuel' p)
  functionTail : ∀ p start role, Agrees (functionTail fuel p start role)
    (functionTail fuel' p start role)
  namedFunction : ∀ p role, Agrees (namedFunction fuel p role) (namedFunction fuel' p role)
  block : ∀ p, Agrees (block fuel p) (block fuel' p)
  declarations : ∀ p done, Agrees (declarations fuel p done) (declarations fuel' p done)
  declaration : ∀ p, Agrees (declaration fuel p) (declaration fuel' p)
  declared : ∀ p, Agrees (declared fuel p) (declared fuel' p)
  classDeclaration : ∀ p, Agrees (classDeclaration fuel p) (classDeclaration fuel' p)
  methods : ∀ p done, Agrees (methods fuel p done) (methods fuel' p done)
  varDeclaration : ∀ p, Agrees (varDeclaration fuel p) (varDeclaration fuel' p)
  statement : ∀ p, Agrees (statement fuel p) (statement fuel' p)
  statementBody : ∀ p, Agrees (statementBody fuel p) (statementBody fuel' p)
  expressionStatement : ∀ p, Agrees (expressionStatement fuel p) (expressionStatement fuel' p)
  forStatement : ∀ p keyword, Agrees (forStatement fuel p keyword) (forStatement fuel' p keyword)
  forInitializer : ∀ p, Agrees (forInitializer fuel p) (forInitializer fuel' p)
  optionalExpression : ∀ p closing, Agrees (optionalExpression fuel p closing)
    (optionalExpression fuel' p closing)
  ifStatement : ∀ p, Agrees (ifStatement fuel p) (ifStatement fuel' p)
  whileStatement : ∀ p, Agrees (whileStatement fuel p) (whileStatement fuel' p)
  returnStatement : ∀ p keyword, Agrees (returnStatement fuel p keyword)
    (returnStatement fuel' p keyword)

section

variable {fuel fuel' : Nat} (ih : Agreeing fuel fuel')
include ih

theorem agrees_expression (p : Place) :
    Agrees (expression (fuel + 1) p) (expression (fuel' + 1) p) := by
  rw [expression, expression]
  exact agrees_nested (ih.assignment p.deeper)

theorem agrees_assignment (p : Place) :
    Agrees (assignment (fuel + 1) p) (assignment (fuel' + 1) p) := by
  rw [assignment, assignment]
  refine (ih.operation p .or).bind fun target => agrees_found (fun equals => ?_) (.refl _)
  exact (ih.assignment p).bind fun value => .refl _

theorem agrees_operation (p : Place) (level : Level) :
    Agrees (operation (fuel + 1) p level) (operation (fuel' + 1) p level) := by
  rw [operation, operation]
  exact (ih.operand p level).bind fun left => ih.chain p level left

theorem agrees_chain (p : Place) (level : Level) (left : Expr) :
    Agrees (chain (fuel + 1) p level left) (chain (fuel' + 1) p level left) := by
  rw [chain, chain]
  refine agrees_found (fun found => ?_) (.refl _)
  exact (ih.operand p level).bind fun right => ih.chain p level _

theorem agrees_operand (p : Place) (level : Level) :
    Agrees (operand (fuel + 1) p level) (operand (fuel' + 1) p level) := by
  rw [operand, operand]
  cases level.tighter? with
  | none => exact ih.unary p
  | some tighter => exact ih.operation p tighter

theorem agrees_unary (p : Place) : Agrees (unary (fuel + 1) p) (unary (fuel' + 1) p) := by
  rw [unary, unary]
  refine agrees_found (fun found => ?_) ?_
  · exact (agrees_nested (ih.unary p.deeper)).bind fun operand => .refl _
  · exact (ih.primary p).bind fun head => ih.calls p head

theorem agrees_calls (p : Place) (callee : Expr) :
    Agrees (calls (fuel + 1) p callee) (calls (fuel' + 1) p callee) := by
  rw [calls, calls]
  refine agrees_found (fun opened => ?_) (agrees_found (fun dot => ?_) (.refl _))
  · exact (ih.argumentList p).bind fun args => agrees_next fun close => ih.calls p _
  · exact agrees_next fun property => ih.calls p _

theorem agrees_argumentList (p : Place) :
    Agrees (argumentList (fuel + 1) p) (argumentList (fuel' + 1) p) := by
  rw [argumentList, argumentList]
  exact agrees_test (.refl _) ((ih.arguments p #[]).bind fun args => .refl _)

theorem agrees_arguments (p : Place) (done : Array Expr) :
    Agrees (arguments (fuel + 1) p done) (arguments (fuel' + 1) p done) := by
  rw [arguments, arguments]
  refine agrees_noteIf ((ih.expression p).bind fun arg => agrees_found (fun _ => ?_) (.refl _))
  exact ih.arguments p _

theorem agrees_primary (p : Place) : Agrees (primary (fuel + 1) p) (primary (fuel' + 1) p) := by
  rw [primary, primary]
  refine agrees_found (fun _ => .refl _) (agrees_found (fun _ => .refl _)
    (agrees_found (fun opened => ?_) (agrees_found (fun _ => .refl _)
      (agrees_found (fun _ => .refl _) (agrees_found (fun keyword => ?_) (.refl _))))))
  · exact (ih.expression p).bind fun inner => .refl _
  · exact agrees_next fun _ => (ih.functionTail p _ _).bind fun fn => .refl _

theorem agrees_functionTail (p : Place) (start : Span) (role : Role) :
    Agrees (functionTail (fuel + 1) p start role) (functionTail (fuel' + 1) p start role) := by
  rw [functionTail, functionTail]
  have hbody (params : Array Ident) : Agrees
      (expect (.symbol .rightParen) "')' after parameters" >>= fun _ =>
        expect (.symbol .leftBrace) ("'\x7b' before " ++ role.word ++ " body") >>= fun _ =>
          block fuel p.function >>= fun body =>
            pure (⟨params.toList, body.1, start.cover body.2⟩ : Lambda))
      (expect (.symbol .rightParen) "')' after parameters" >>= fun _ =>
        expect (.symbol .leftBrace) ("'\x7b' before " ++ role.word ++ " body") >>= fun _ =>
          block fuel' p.function >>= fun body =>
            pure (⟨params.toList, body.1, start.cover body.2⟩ : Lambda)) :=
    agrees_next fun _ => agrees_next fun _ => (ih.block p.function).bind fun _ => .refl _
  exact agrees_test (hbody #[]) ((agrees_parameters fuel fuel' #[]).bind hbody)

theorem agrees_namedFunction (p : Place) (role : Role) :
    Agrees (namedFunction (fuel + 1) p role) (namedFunction (fuel' + 1) p role) := by
  rw [namedFunction, namedFunction]
  refine agrees_next fun name => agrees_next fun _ => ?_
  exact (ih.functionTail p name.span role).bind fun fn => .refl _

theorem agrees_block (p : Place) : Agrees (block (fuel + 1) p) (block (fuel' + 1) p) := by
  rw [block, block]
  exact agrees_nested ((ih.declarations p.deeper #[]).bind fun body => .refl _)

theorem agrees_declarations (p : Place) (done : Array Stmt) :
    Agrees (declarations (fuel + 1) p done) (declarations (fuel' + 1) p done) := by
  rw [declarations, declarations]
  refine agrees_test (.refl _) ((ih.declaration p).bind fun declared => ?_)
  cases declared with
  | none => exact ih.declarations p done
  | some s => exact ih.declarations p (done.push s)

theorem agrees_declaration (p : Place) :
    Agrees (declaration (fuel + 1) p) (declaration (fuel' + 1) p) := by
  rw [declaration, declaration]
  exact (ih.declared p).recover

theorem agrees_declared (p : Place) : Agrees (declared (fuel + 1) p) (declared (fuel' + 1) p) := by
  rw [declared, declared]
  refine agrees_found (fun _ => ih.classDeclaration p) (agrees_test ?_ ?_)
  · exact agrees_next fun _ => (ih.namedFunction p .function).bind fun declared => .refl _
  · exact agrees_found (fun _ => ih.varDeclaration p) (ih.statement p)

theorem agrees_classDeclaration (p : Place) :
    Agrees (classDeclaration (fuel + 1) p) (classDeclaration (fuel' + 1) p) := by
  rw [classDeclaration, classDeclaration]
  refine agrees_next fun className => agrees_next fun superclass => agrees_next fun _ => ?_
  exact (ih.methods p #[]).bind fun declared => .refl _

theorem agrees_methods (p : Place) (done : Array Method) :
    Agrees (methods (fuel + 1) p done) (methods (fuel' + 1) p done) := by
  rw [methods, methods]
  exact agrees_test (.refl _) ((ih.namedFunction p .method).bind fun m => ih.methods p _)

theorem agrees_varDeclaration (p : Place) :
    Agrees (varDeclaration (fuel + 1) p) (varDeclaration (fuel' + 1) p) := by
  rw [varDeclaration, varDeclaration]
  refine agrees_next fun name => agrees_found (fun _ => ?_) (.refl _)
  exact (ih.expression p).map.bind fun initializer => .refl _

theorem agrees_statement (p : Place) :
    Agrees (statement (fuel + 1) p) (statement (fuel' + 1) p) := by
  rw [statement, statement]
  exact agrees_nested (ih.statementBody p.deeper)

theorem agrees_statementBody (p : Place) :
    Agrees (statementBody (fuel + 1) p) (statementBody (fuel' + 1) p) := by
  rw [statementBody, statementBody]
  refine agrees_found (fun t => ih.forStatement p t.span) (agrees_found (fun _ => ih.ifStatement p)
    (agrees_found (fun _ => ih.whileStatement p) (agrees_found (fun _ => .refl _)
      (agrees_found (fun t => ih.returnStatement p t.span) (agrees_found (fun _ => ?_)
        (agrees_found (fun _ => ?_) (ih.expressionStatement p)))))))
  · exact (ih.block p).bind fun body => .refl _
  · exact (ih.expression p).bind fun value => .refl _

theorem agrees_expressionStatement (p : Place) :
    Agrees (expressionStatement (fuel + 1) p) (expressionStatement (fuel' + 1) p) := by
  rw [expressionStatement, expressionStatement]
  exact (ih.expression p).bind fun value => .refl _

theorem agrees_forStatement (p : Place) (keyword : Span) :
    Agrees (forStatement (fuel + 1) p keyword) (forStatement (fuel' + 1) p keyword) := by
  rw [forStatement, forStatement]
  refine agrees_next fun _ => (ih.forInitializer p).bind fun initializer => ?_
  refine (ih.optionalExpression p .semicolon).bind fun condition => agrees_next fun _ => ?_
  refine (ih.optionalExpression p .rightParen).bind fun increment => agrees_next fun _ => ?_
  exact (ih.statement p.loop).bind fun body => .refl _

theorem agrees_forInitializer (p : Place) :
    Agrees (forInitializer (fuel + 1) p) (forInitializer (fuel' + 1) p) := by
  rw [forInitializer, forInitializer]
  exact agrees_found (fun _ => .refl _)
    (agrees_found (fun _ => (ih.varDeclaration p).map) (ih.expressionStatement p).map)

theorem agrees_optionalExpression (p : Place) (closing : Symbol) :
    Agrees (optionalExpression (fuel + 1) p closing) (optionalExpression (fuel' + 1) p closing) := by
  rw [optionalExpression, optionalExpression]
  exact agrees_test (.refl _) (ih.expression p).map

theorem agrees_ifStatement (p : Place) :
    Agrees (ifStatement (fuel + 1) p) (ifStatement (fuel' + 1) p) := by
  rw [ifStatement, ifStatement]
  refine agrees_next fun _ => (ih.expression p).bind fun condition => agrees_next fun _ => ?_
  refine (ih.statement p).bind fun thenBranch => agrees_found (fun _ => ?_) (.refl _)
  exact (ih.statement p).bind fun elseBranch => .refl _

theorem agrees_whileStatement (p : Place) :
    Agrees (whileStatement (fuel + 1) p) (whileStatement (fuel' + 1) p) := by
  rw [whileStatement, whileStatement]
  refine agrees_next fun _ => (ih.expression p).bind fun condition => agrees_next fun _ => ?_
  exact (ih.statement p.loop).bind fun body => .refl _

theorem agrees_returnStatement (p : Place) (keyword : Span) :
    Agrees (returnStatement (fuel + 1) p keyword) (returnStatement (fuel' + 1) p keyword) := by
  rw [returnStatement, returnStatement]
  exact (ih.optionalExpression p .semicolon).bind fun value => .refl _

end

theorem agreeing : ∀ fuel fuel', Agreeing fuel fuel'
  | 0, _ => by constructor <;> intros <;> exact agrees_starve
  | _ + 1, 0 => by constructor <;> intros <;> exact starve_agrees
  | fuel + 1, fuel' + 1 => by
    have ih := agreeing fuel fuel'
    exact {
      expression := agrees_expression ih
      assignment := agrees_assignment ih
      operation := agrees_operation ih
      chain := agrees_chain ih
      operand := agrees_operand ih
      unary := agrees_unary ih
      calls := agrees_calls ih
      argumentList := agrees_argumentList ih
      arguments := agrees_arguments ih
      primary := agrees_primary ih
      functionTail := agrees_functionTail ih
      namedFunction := agrees_namedFunction ih
      block := agrees_block ih
      declarations := agrees_declarations ih
      declaration := agrees_declaration ih
      declared := agrees_declared ih
      classDeclaration := agrees_classDeclaration ih
      methods := agrees_methods ih
      varDeclaration := agrees_varDeclaration ih
      statement := agrees_statement ih
      statementBody := agrees_statementBody ih
      expressionStatement := agrees_expressionStatement ih
      forStatement := agrees_forStatement ih
      forInitializer := agrees_forInitializer ih
      optionalExpression := agrees_optionalExpression ih
      ifStatement := agrees_ifStatement ih
      whileStatement := agrees_whileStatement ih
      returnStatement := agrees_returnStatement ih }

/-- A result within one bound is the result within every bound that is not used up. -/
theorem Agrees.of_ok {r r' : Rule α} {c c' : Cursor} {a : α} (h : Agrees r r')
    (hr : r c = .ok a c') : r' c = .ok a c' ∨ ∃ d, r' c = .error .starved d := by
  rcases h c with ⟨d, hd⟩ | hstarved | hsame
  · rw [hr] at hd
    cases hd
  · exact .inr hstarved
  · exact .inl (hsame.symm.trans hr)

end Lox.Grammar
