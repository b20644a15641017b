import Lox.Proofs.Outcome
import Lox.Proofs.Session.Readings
import Mathlib.Data.List.Perm.Subperm

/-! # Numbers in whatever is read

Every rule draws numbers in sequence, and each of them goes into one node at most:
some are lost, with the left side of an assignment or with a construct in which an
error was found. So the numbers in a tree are all different, whatever the tokens
are, and they lie between the next number before the rule and the next one after it. -/

namespace Lox.Grammar

open Rule

variable {n n' : Nat} {drawn drawn' : List Nat}

theorem drawn_nothing (h : n ≤ n') : Drawn n [] n' := ⟨h, .nil, by simp⟩

theorem Drawn.of_subperm (h : Drawn n drawn n') (hsub : drawn'.Subperm drawn) :
    Drawn n drawn' n' := by
  refine ⟨h.le, ?_, fun id hid => h.bounds id (hsub.subset hid)⟩
  obtain ⟨kept, hperm, hkept⟩ := hsub
  exact hperm.nodup_iff.mp (h.nodup.sublist hkept)

/-- A rule that is given trees with some numbers ends in one the numbers of which are among these
and those that it draws. -/
structure Draws {α : Type} (r : Rule α) (given : List Nat) (ids : α → List Nat) : Prop where
  ends : ∀ c, Ends r c
    (fun a d => ∃ new, Drawn c.nextId new d.nextId ∧ (ids a).Subperm (given ++ new))
    fun _ d => c.nextId ≤ d.nextId

variable {α β : Type} {r : Rule α} {k : α → Rule β} {given given' : List Nat}
  {ids ids' : α → List Nat} {out : β → List Nat}

/-! ## Steps -/

theorem draws_pure {a : α} (h : (ids a).Subperm given) : Draws (pure a) given ids :=
  ⟨fun c => ⟨[], drawn_nothing (Nat.le_refl c.nextId), (List.append_nil given).symm ▸ h⟩⟩

/-- The numbers that were given stand in the tree, in order. -/
theorem draws_same {a : α} (h : ids a = given) : Draws (pure a) given ids :=
  draws_pure (h ▸ .refl _)

theorem draws_starve : Draws (starve : Rule α) given ids := ⟨fun c => Nat.le_refl c.nextId⟩

theorem draws_refuse (error : GrammarError) : Draws (refuse error : Rule α) given ids :=
  ⟨fun c => Nat.le_refl c.nextId⟩

/-- A step that draws no number and ends in no tree. -/
theorem draws_of_same
    (h : ∀ c, Ends r c (fun _ d => d.nextId = c.nextId) fun _ d => d.nextId = c.nextId) :
    Draws r [] fun _ => [] := by
  refine ⟨fun c => (h c).imp (fun a d hsame => ?_) fun _ d hsame => Nat.le_of_eq hsame.symm⟩
  exact ⟨[], drawn_nothing (Nat.le_of_eq hsame.symm), .refl _⟩

theorem draws_test (f : Cursor → Bool) : Draws (test f) [] fun _ => [] :=
  draws_of_same fun _ => rfl

theorem draws_note (error : GrammarError) (span : Span) : Draws (note error span) [] fun _ => [] :=
  draws_of_same fun _ => rfl

theorem draws_noteHere (error : GrammarError) : Draws (noteHere error) [] fun _ => [] :=
  draws_of_same fun _ => rfl

theorem draws_takeIf {γ : Type} (select : TokenKind → Option γ) :
    Draws (takeIf select) [] fun _ => [] := by
  refine draws_of_same fun c => ?_
  unfold Ends takeIf
  cases c.tokens with
  | nil => rfl
  | cons t rest =>
    dsimp only
    cases select t.kind <;> rfl

theorem draws_accept (kind : TokenKind) : Draws (accept kind) [] fun _ => [] := by
  refine draws_of_same fun c => ?_
  unfold Ends accept
  cases c.tokens with
  | nil => rfl
  | cons t rest =>
    dsimp only
    by_cases hkind : t.kind = kind
    · rw [if_pos hkind]
    · rw [if_neg hkind]

theorem draws_fresh : Draws fresh [] fun id => [id] :=
  ⟨fun c => ⟨[c.nextId], drawn_one, .refl _⟩⟩

/-- What a rule ends in is given to the next one. -/
theorem Draws.bind (hr : Draws r [] ids) (hk : ∀ a, Draws (k a) (given ++ ids a) out) :
    Draws (r >>= k) given out := by
  constructor
  intro c
  rw [ends_bind]
  refine (hr.ends c).imp ?_ fun _ _ h => h
  rintro a d ⟨new, hnew, hids⟩
  refine ((hk a).ends d).imp ?_ fun _ e he => Nat.le_trans hnew.le he
  rintro b e ⟨new', hnew', hout⟩
  refine ⟨new ++ new', hnew.append hnew', hout.trans ?_⟩
  rw [← List.append_assoc]
  exact (List.subperm_append_right new').mpr ((List.subperm_append_left given).mpr hids)

/-- A step that ends in no tree comes before others. -/
theorem Draws.next (hr : Draws r [] fun _ => []) (hk : ∀ a, Draws (k a) given out) :
    Draws (r >>= k) given out :=
  hr.bind fun a => (List.append_nil given).symm ▸ hk a

theorem Draws.map {f : α → β} (hr : Draws r [] ids) (hf : ∀ a, out (f a) = ids a) :
    Draws (f <$> r) [] out := by
  rw [map_eq_pure_bind]
  exact hr.bind fun a => draws_same (hf a)

/-- A token may have been taken, or another thing found. -/
theorem Draws.found {r : Rule (Option α)} {k : Option α → Rule β} (hr : Draws r [] fun _ => [])
    (hsome : ∀ a, Draws (k (some a)) given out) (hnone : Draws (k none) given out) :
    Draws (r >>= k) given out := by
  refine hr.next fun result => ?_
  cases result with
  | none => exact hnone
  | some a => exact hsome a

theorem draws_tested {f : Cursor → Bool} {k : Bool → Rule β} (htrue : Draws (k true) given out)
    (hfalse : Draws (k false) given out) : Draws (test f >>= k) given out := by
  refine (draws_test f).next fun seen => ?_
  cases seen with
  | true => exact htrue
  | false => exact hfalse

/-- An error may be noted first. -/
theorem draws_noteIf {reason : Prop} [Decidable reason] {mark : Rule PUnit} {k : PUnit → Rule β}
    (hmark : Draws mark [] fun _ => []) (hk : Draws (k ⟨⟩) given out) :
    Draws (if reason then mark >>= k else k ⟨⟩) given out := by
  split
  · exact hmark.next fun _ => hk
  · exact hk

theorem draws_expect (kind : TokenKind) (what : String) : Draws (expect kind what) [] fun _ => [] :=
  (draws_accept kind).found (fun _ => draws_same rfl) (draws_refuse _)

theorem draws_name (what : String) : Draws (name what) [] fun _ => [] :=
  (draws_expect .identifier what).next fun _ => draws_same rfl

theorem draws_nested {p : Place} {rule : Place → Rule α} (h : Draws (rule p.deeper) given ids) :
    Draws (nested p rule) given ids := by
  unfold nested
  split
  · exact draws_refuse _
  · exact h

/-- The numbers of what is skipped are lost. -/
theorem Draws.recover (hr : Draws r [] ids) :
    Draws (recover r) [] fun result => (result.map ids).getD [] := by
  constructor
  intro c
  have hends := hr.ends c
  unfold Ends at hends ⊢
  unfold Rule.recover
  cases hrun : r c with
  | ok a d =>
    rw [hrun] at hends
    exact hends
  | error halt d =>
    rw [hrun] at hends
    cases halt with
    | unwound => exact ⟨[], drawn_nothing hends, .refl _⟩
    | starved => exact hends

/-! ## Lists that grow -/

theorem exprs_snoc (es : List Expr) (e : Expr) :
    Nodes.exprs [] (es ++ [e]) = Nodes.exprs [] es ++ Nodes.expr [] e := by
  induction es with
  | nil => exact (List.nil_append _).symm
  | cons first es ih =>
    rw [List.cons_append, Nodes.exprs, Nodes.expr_append first, ih, Nodes.exprs,
      Nodes.expr_append first (Nodes.exprs [] es), List.append_assoc]

theorem stmts_snoc (ss : List Stmt) (s : Stmt) :
    Nodes.stmts [] (ss ++ [s]) = Nodes.stmts [] ss ++ Nodes.stmt [] s := by
  induction ss with
  | nil => exact (List.nil_append _).symm
  | cons first ss ih =>
    rw [List.cons_append, Nodes.stmts, Nodes.stmt_append first, ih, Nodes.stmts,
      Nodes.stmt_append first (Nodes.stmts [] ss), List.append_assoc]

theorem methods_snoc (ms : List Method) (m : Method) :
    Nodes.methods [] (ms ++ [m]) = Nodes.methods [] ms ++ Nodes.lambda [] m.fn := by
  induction ms with
  | nil => exact (ids_methods m []).trans (List.append_nil _)
  | cons first ms ih => rw [List.cons_append, ids_methods, ih, ids_methods, List.append_assoc]

/-! ## Rules -/

theorem draws_parameters : ∀ (fuel : Nat) (done : Array Ident),
    Draws (parameters fuel done) [] fun _ => []
  | 0, _ => draws_starve
  | fuel + 1, done => by
    rw [parameters]
    refine draws_noteIf (draws_noteHere _) ((draws_name _).next fun param => ?_)
    exact (draws_accept _).found (fun _ => draws_parameters fuel _) (draws_same rfl)

/-- The number of a variable that is assigned to is lost, and the assignment gets one of its own. -/
theorem draws_assignTo (target : Expr) (equals : Span) (value : Expr) :
    Draws (assignTo target equals value) (Nodes.expr [] target ++ Nodes.expr [] value)
      (Nodes.expr []) := by
  unfold assignTo
  split
  · next ref =>
    refine draws_fresh.bind fun id => draws_pure ?_
    refine List.Subperm.trans ?_ (List.sublist_cons_self ref.id _).subperm
    exact (List.perm_append_singleton id (Nodes.expr [] value)).symm.subperm
  · next object _ => exact draws_same (Nodes.expr_append object _)
  -- What cannot be assigned to stays, and the value is lost.
  · exact (draws_note _ _).next fun _ => draws_pure (List.sublist_append_left ..).subperm

theorem draws_superclassClause :
    Draws superclassClause [] fun parent => parent.toList.map Reference.id := by
  unfold superclassClause
  refine (draws_accept _).found (fun _ => ?_) (draws_same rfl)
  exact (draws_name _).next fun parent => draws_fresh.bind fun id => draws_same rfl

theorem draws_breakStatement (p : Place) (keyword : Span) :
    Draws (breakStatement p keyword) [] (Nodes.stmt []) := by
  unfold breakStatement
  exact draws_noteIf (draws_note _ _) ((draws_expect ..).next fun _ => draws_same rfl)

/-- The numbers in a statement that may be missing. -/
def optionalStmt (s : Option Stmt) : List Nat := (s.map (Nodes.stmt [])).getD []

/-- The numbers in an expression that may be missing. -/
def optionalExpr (e : Option Expr) : List Nat := (e.map (Nodes.expr [])).getD []

/-- All rules draw numbers, within so many steps. -/
structure Drawing (fuel : Nat) : Prop where
  expression : ∀ p, Draws (expression fuel p) [] (Nodes.expr [])
  assignment : ∀ p, Draws (assignment fuel p) [] (Nodes.expr [])
  operation : ∀ p level, Draws (operation fuel p level) [] (Nodes.expr [])
  chain : ∀ p level left, Draws (chain fuel p level left) (Nodes.expr [] left) (Nodes.expr [])
  operand : ∀ p level, Draws (operand fuel p level) [] (Nodes.expr [])
  unary : ∀ p, Draws (unary fuel p) [] (Nodes.expr [])
  calls : ∀ p callee, Draws (calls fuel p callee) (Nodes.expr [] callee) (Nodes.expr [])
  argumentList : ∀ p, Draws (argumentList fuel p) [] (Nodes.exprs [])
  arguments : ∀ p done, Draws (arguments fuel p done) (Nodes.exprs [] done.toList)
    fun es => Nodes.exprs [] es.toList
  primary : ∀ p, Draws (primary fuel p) [] (Nodes.expr [])
  functionTail : ∀ p start role, Draws (functionTail fuel p start role) [] (Nodes.lambda [])
  namedFunction : ∀ p role, Draws (namedFunction fuel p role) [] fun m => Nodes.lambda [] m.fn
  block : ∀ p, Draws (block fuel p) [] fun body => Nodes.stmts [] body.1
  declarations : ∀ p done, Draws (declarations fuel p done) (Nodes.stmts [] done.toList)
    fun ss => Nodes.stmts [] ss.toList
  declaration : ∀ p, Draws (declaration fuel p) [] optionalStmt
  declared : ∀ p, Draws (declared fuel p) [] (Nodes.stmt [])
  classDeclaration : ∀ p, Draws (classDeclaration fuel p) [] (Nodes.stmt [])
  methods : ∀ p done, Draws (methods fuel p done) (Nodes.methods [] done.toList)
    fun ms => Nodes.methods [] ms.toList
  varDeclaration : ∀ p, Draws (varDeclaration fuel p) [] (Nodes.stmt [])
  statement : ∀ p, Draws (statement fuel p) [] (Nodes.stmt [])
  statementBody : ∀ p, Draws (statementBody fuel p) [] (Nodes.stmt [])
  expressionStatement : ∀ p, Draws (expressionStatement fuel p) [] (Nodes.stmt [])
  forStatement : ∀ p keyword, Draws (forStatement fuel p keyword) [] (Nodes.stmt [])
  forInitializer : ∀ p, Draws (forInitializer fuel p) [] optionalStmt
  optionalExpression : ∀ p closing, Draws (optionalExpression fuel p closing) [] optionalExpr
  ifStatement : ∀ p, Draws (ifStatement fuel p) [] (Nodes.stmt [])
  whileStatement : ∀ p, Draws (whileStatement fuel p) [] (Nodes.stmt [])
  returnStatement : ∀ p keyword, Draws (returnStatement fuel p keyword) [] (Nodes.stmt [])

namespace Drawing

variable {fuel : Nat} (ih : Drawing fuel) (p : Place)
include ih

theorem assignment_succ : Draws (Grammar.assignment (fuel + 1) p) [] (Nodes.expr []) := by
  rw [Grammar.assignment]
  refine (ih.operation p .or).bind fun target => (draws_accept _).found (fun equals => ?_) ?_
  · exact (ih.assignment p).bind fun value => draws_assignTo target equals.span value
  · exact draws_same rfl

theorem chain_succ (level : Level) (left : Expr) :
    Draws (Grammar.chain (fuel + 1) p level left) (Nodes.expr [] left) (Nodes.expr []) := by
  rw [Grammar.chain]
  refine (draws_takeIf _).found (fun found => ?_) (draws_same rfl)
  obtain ⟨op, token⟩ := found
  refine (ih.operand p level).bind fun right => ?_
  rw [← ids_apply op left token.span right]
  exact ih.chain p level _

theorem operand_succ (level : Level) :
    Draws (Grammar.operand (fuel + 1) p level) [] (Nodes.expr []) := by
  rw [Grammar.operand]
  cases level.tighter? with
  | none => exact ih.unary p
  | some tighter => exact ih.operation p tighter

theorem unary_succ : Draws (Grammar.unary (fuel + 1) p) [] (Nodes.expr []) := by
  rw [Grammar.unary]
  refine (draws_takeIf _).found (fun found => ?_) ?_
  · exact (draws_nested (ih.unary p.deeper)).bind fun operand => draws_same rfl
  · exact (ih.primary p).bind fun head => ih.calls p head

theorem calls_succ (callee : Expr) :
    Draws (Grammar.calls (fuel + 1) p callee) (Nodes.expr [] callee) (Nodes.expr []) := by
  rw [Grammar.calls]
  refine (draws_accept _).found (fun opened => ?_) ((draws_accept _).found (fun dot => ?_) ?_)
  · refine (ih.argumentList p).bind fun args => (draws_expect ..).next fun close => ?_
    rw [← Nodes.expr_append callee (Nodes.exprs [] args)]
    exact ih.calls p (.call callee close.span args)
  · exact (draws_name _).next fun property => ih.calls p (.get callee property)
  · exact draws_same rfl

theorem argumentList_succ : Draws (Grammar.argumentList (fuel + 1) p) [] (Nodes.exprs []) := by
  rw [Grammar.argumentList]
  exact draws_tested (draws_same rfl) ((ih.arguments p #[]).bind fun args => draws_same rfl)

theorem arguments_succ (done : Array Expr) : Draws (Grammar.arguments (fuel + 1) p done)
    (Nodes.exprs [] done.toList) fun es => Nodes.exprs [] es.toList := by
  rw [Grammar.arguments]
  refine draws_noteIf (draws_noteHere _) ((ih.expression p).bind fun arg => ?_)
  rw [← exprs_snoc, ← Array.toList_push]
  exact (draws_accept _).found (fun _ => ih.arguments p _) (draws_same rfl)

theorem primary_succ : Draws (Grammar.primary (fuel + 1) p) [] (Nodes.expr []) := by
  rw [Grammar.primary]
  refine (draws_takeIf _).found (fun constant => draws_same rfl) ?_
  refine (draws_accept _).found (fun token => draws_fresh.bind fun id => draws_same rfl) ?_
  refine (draws_accept _).found (fun opened => ?_) ?_
  · exact (ih.expression p).bind fun inner => (draws_expect ..).next fun close => draws_same rfl
  refine (draws_accept _).found (fun token => draws_fresh.bind fun id => draws_same rfl) ?_
  refine (draws_accept _).found (fun token => ?_)
    ((draws_accept _).found (fun token => ?_) (draws_refuse _))
  · exact (draws_expect ..).next fun _ => (draws_name _).next fun method =>
      draws_fresh.bind fun id => draws_same rfl
  · exact (draws_expect ..).next fun _ => (ih.functionTail p _ _).bind fun fn => draws_same rfl

theorem functionTail_succ (start : Span) (role : Role) :
    Draws (Grammar.functionTail (fuel + 1) p start role) [] (Nodes.lambda []) := by
  rw [Grammar.functionTail]
  have hbody (params : Array Ident) : Draws
      (Rule.expect (.symbol .rightParen) "')' after parameters" >>= fun _ =>
        Rule.expect (.symbol .leftBrace) ("'\x7b' before " ++ role.word ++ " body") >>= fun _ =>
          Grammar.block fuel p.function >>= fun body =>
            Pure.pure (⟨params.toList, body.1, start.cover body.2⟩ : Lambda)) []
      (Nodes.lambda []) :=
    (draws_expect ..).next fun _ => (draws_expect ..).next fun _ =>
      (ih.block p.function).bind fun body => draws_same rfl
  exact draws_tested (hbody #[]) ((draws_parameters fuel #[]).next hbody)

theorem namedFunction_succ (role : Role) :
    Draws (Grammar.namedFunction (fuel + 1) p role) [] fun m => Nodes.lambda [] m.fn := by
  rw [Grammar.namedFunction]
  refine (draws_name _).next fun name => (draws_expect ..).next fun _ => ?_
  exact (ih.functionTail p name.span role).bind fun fn => draws_same rfl

theorem block_succ : Draws (Grammar.block (fuel + 1) p) [] fun body => Nodes.stmts [] body.1 := by
  rw [Grammar.block]
  refine draws_nested ((ih.declarations p.deeper #[]).bind fun body => ?_)
  exact (draws_expect ..).next fun close => draws_same rfl

theorem declarations_succ (done : Array Stmt) : Draws (Grammar.declarations (fuel + 1) p done)
    (Nodes.stmts [] done.toList) fun ss => Nodes.stmts [] ss.toList := by
  rw [Grammar.declarations]
  refine draws_tested (draws_same rfl) ((ih.declaration p).bind fun result => ?_)
  cases result with
  | none => exact (List.append_nil _).symm ▸ ih.declarations p done
  | some s =>
    have h := ih.declarations p (done.push s)
    rw [Array.toList_push, stmts_snoc] at h
    exact h

theorem declared_succ : Draws (Grammar.declared (fuel + 1) p) [] (Nodes.stmt []) := by
  rw [Grammar.declared]
  refine (draws_accept _).found (fun _ => ih.classDeclaration p) (draws_tested ?_ ?_)
  · exact (draws_accept _).next fun _ => (ih.namedFunction p .function).bind fun declared =>
      draws_same rfl
  · exact (draws_accept _).found (fun _ => ih.varDeclaration p) (ih.statement p)

theorem classDeclaration_succ :
    Draws (Grammar.classDeclaration (fuel + 1) p) [] (Nodes.stmt []) := by
  rw [Grammar.classDeclaration]
  refine (draws_name _).next fun className => draws_superclassClause.bind fun superclass => ?_
  refine (draws_expect ..).next fun _ => (ih.methods p #[]).bind fun declared => ?_
  refine (draws_expect ..).next fun _ => draws_same ?_
  cases superclass <;> rfl

theorem methods_succ (done : Array Method) : Draws (Grammar.methods (fuel + 1) p done)
    (Nodes.methods [] done.toList) fun ms => Nodes.methods [] ms.toList := by
  rw [Grammar.methods]
  refine draws_tested (draws_same rfl) ((ih.namedFunction p .method).bind fun method => ?_)
  rw [← methods_snoc, ← Array.toList_push]
  exact ih.methods p _

theorem varDeclaration_succ : Draws (Grammar.varDeclaration (fuel + 1) p) [] (Nodes.stmt []) := by
  rw [Grammar.varDeclaration]
  have hend (name : Ident) (initializer : Option Expr) : Draws
      (Rule.expect (.symbol .semicolon) "';' after variable declaration" >>= fun _ =>
        Pure.pure (.var name initializer)) (optionalExpr initializer) (Nodes.stmt []) := by
    refine (draws_expect ..).next fun _ => draws_same ?_
    cases initializer <;> rfl
  refine (draws_name _).next fun name => (draws_accept _).found (fun _ => ?_) (hend name none)
  have hsome : Draws (some <$> Grammar.expression fuel p) [] optionalExpr :=
    (ih.expression p).map fun _ => rfl
  exact hsome.bind fun initializer => hend name initializer

theorem statementBody_succ : Draws (Grammar.statementBody (fuel + 1) p) [] (Nodes.stmt []) := by
  rw [Grammar.statementBody]
  refine (draws_accept _).found (fun token => ih.forStatement p token.span) ?_
  refine (draws_accept _).found (fun _ => ih.ifStatement p) ?_
  refine (draws_accept _).found (fun _ => ih.whileStatement p) ?_
  refine (draws_accept _).found (fun token => draws_breakStatement p token.span) ?_
  refine (draws_accept _).found (fun token => ih.returnStatement p token.span) ?_
  refine (draws_accept _).found (fun _ => (ih.block p).bind fun body => draws_same rfl) ?_
  refine (draws_accept _).found (fun _ => ?_) (ih.expressionStatement p)
  exact (ih.expression p).bind fun value => (draws_expect ..).next fun _ => draws_same rfl

theorem expressionStatement_succ :
    Draws (Grammar.expressionStatement (fuel + 1) p) [] (Nodes.stmt []) := by
  rw [Grammar.expressionStatement]
  exact (ih.expression p).bind fun value => (draws_expect ..).next fun _ => draws_same rfl

theorem forStatement_succ (keyword : Span) :
    Draws (Grammar.forStatement (fuel + 1) p keyword) [] (Nodes.stmt []) := by
  rw [Grammar.forStatement]
  refine (draws_expect ..).next fun _ => (ih.forInitializer p).bind fun initializer => ?_
  refine (ih.optionalExpression p _).bind fun condition => (draws_expect ..).next fun _ => ?_
  refine (ih.optionalExpression p _).bind fun increment => (draws_expect ..).next fun _ => ?_
  refine (ih.statement p.loop).bind fun body => draws_pure ?_
  have hids := (ids_desugarFor keyword initializer condition increment body).symm.subperm
  rw [← List.append_assoc, ← List.append_assoc] at hids
  exact hids

theorem forInitializer_succ : Draws (Grammar.forInitializer (fuel + 1) p) [] optionalStmt := by
  rw [Grammar.forInitializer]
  refine (draws_accept _).found (fun _ => draws_same rfl) ((draws_accept _).found (fun _ => ?_) ?_)
  · exact (ih.varDeclaration p).map fun _ => rfl
  · exact (ih.expressionStatement p).map fun _ => rfl

theorem optionalExpression_succ (closing : Symbol) :
    Draws (Grammar.optionalExpression (fuel + 1) p closing) [] optionalExpr := by
  rw [Grammar.optionalExpression]
  exact draws_tested (draws_same rfl) ((ih.expression p).map fun _ => rfl)

theorem ifStatement_succ : Draws (Grammar.ifStatement (fuel + 1) p) [] (Nodes.stmt []) := by
  rw [Grammar.ifStatement]
  refine (draws_expect ..).next fun _ => (ih.expression p).bind fun condition => ?_
  refine (draws_expect ..).next fun _ => (ih.statement p).bind fun thenBranch => ?_
  refine (draws_accept _).found (fun _ => ?_) (draws_same (Nodes.expr_append condition _))
  refine (ih.statement p).bind fun elseBranch => draws_same ?_
  rw [Nodes.stmt, Nodes.stmt_append thenBranch, Nodes.expr_append condition, ← List.append_assoc]
  rfl

theorem whileStatement_succ : Draws (Grammar.whileStatement (fuel + 1) p) [] (Nodes.stmt []) := by
  rw [Grammar.whileStatement]
  refine (draws_expect ..).next fun _ => (ih.expression p).bind fun condition => ?_
  refine (draws_expect ..).next fun _ => (ih.statement p.loop).bind fun body => ?_
  exact draws_same (Nodes.expr_append condition _)

theorem returnStatement_succ (keyword : Span) :
    Draws (Grammar.returnStatement (fuel + 1) p keyword) [] (Nodes.stmt []) := by
  rw [Grammar.returnStatement]
  refine (ih.optionalExpression p _).bind fun value => (draws_expect ..).next fun _ => draws_same ?_
  cases value <;> rfl

end Drawing

/-- Every rule draws numbers in sequence, and uses each of them once at most. -/
theorem drawing : ∀ fuel, Drawing fuel
  | 0 => by constructor <;> intros <;> exact draws_starve
  | fuel + 1 => by
    have ih := drawing fuel
    exact {
      expression := fun p => draws_nested (ih.assignment p.deeper)
      assignment := ih.assignment_succ
      operation := fun p level => (ih.operand p level).bind fun first => ih.chain p level first
      chain := ih.chain_succ
      operand := ih.operand_succ
      unary := ih.unary_succ
      calls := ih.calls_succ
      argumentList := ih.argumentList_succ
      arguments := ih.arguments_succ
      primary := ih.primary_succ
      functionTail := ih.functionTail_succ
      namedFunction := ih.namedFunction_succ
      block := ih.block_succ
      declarations := ih.declarations_succ
      declaration := fun p => (ih.declared p).recover
      declared := ih.declared_succ
      classDeclaration := ih.classDeclaration_succ
      methods := ih.methods_succ
      varDeclaration := ih.varDeclaration_succ
      statement := fun p => draws_nested (ih.statementBody p.deeper)
      statementBody := ih.statementBody_succ
      expressionStatement := ih.expressionStatement_succ
      forStatement := ih.forStatement_succ
      forInitializer := ih.forInitializer_succ
      optionalExpression := ih.optionalExpression_succ
      ifStatement := ih.ifStatement_succ
      whileStatement := ih.whileStatement_succ
      returnStatement := ih.returnStatement_succ }

/-! ## Whole texts -/

theorem draws_program : ∀ (fuel : Nat) (done : Array Stmt),
    Draws (program fuel done) (Nodes.stmts [] done.toList) fun ss => Nodes.stmts [] ss.toList
  | 0, _ => draws_starve
  | fuel + 1, done => by
    rw [program]
    refine draws_tested (draws_same rfl) (((drawing fuel).declaration .top).bind fun result => ?_)
    cases result with
    | none => exact (List.append_nil _).symm ▸ draws_program fuel done
    | some s =>
      have h := draws_program fuel (done.push s)
      rw [Array.toList_push, stmts_snoc] at h
      exact h

/-- The numbers in a program are all different, whatever is wrong with it. -/
theorem drawn_parseProgram (stream : TokenStream) (first : Nat) :
    Drawn first (Nodes.program (parseProgram stream first).value)
      (parseProgram stream first).nextId := by
  have h := (draws_program (stepBound stream.tokens.length) #[]).ends (.start stream first)
  unfold Ends at h
  unfold parseProgram parse
  cases hrun : program (stepBound stream.tokens.length) #[] (.start stream first) with
  | ok ss c =>
    rw [hrun] at h
    obtain ⟨new, hnew, hids⟩ := h
    exact hnew.of_subperm hids
  | error halt c =>
    rw [hrun] at h
    exact drawn_nothing h

/-- The numbers in an expression are all different, whatever follows on it. -/
theorem drawn_parseExpression (stream : TokenStream) (first : Nat) :
    Drawn first (optionalExpr (parseExpression stream first).value)
      (parseExpression stream first).nextId := by
  have h := ((drawing (stepBound stream.tokens.length)).expression .top).ends (.start stream first)
  have hnext (c : Cursor) :
      (if c.atEnd then c else c.note .trailingTokens c.here).nextId = c.nextId := by
    split <;> rfl
  unfold Ends at h
  unfold parseExpression parse wholeExpression
  cases hrun : expression (stepBound stream.tokens.length) .top (.start stream first) with
  | ok e c =>
    rw [hrun] at h
    obtain ⟨new, hnew, hids⟩ := h
    dsimp only
    rw [hnext]
    exact hnew.of_subperm hids
  | error halt c =>
    rw [hrun] at h
    dsimp only
    rw [hnext]
    exact drawn_nothing h

end Lox.Grammar
