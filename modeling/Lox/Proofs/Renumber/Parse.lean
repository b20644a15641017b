import Lox.Grammar.Program
import Lox.Proofs.Outcome
import Lox.Proofs.Renumber.Syntax

/-! # Parses that number from further on

A parse that begins with a number `k` further on finds the same errors, and
builds the same tree with numbers that are `k` further on. -/

namespace Lox.Grammar

open Rule Renumber

/-- The same place, where numbers are `k` further on. -/
def Cursor.ahead (k : Nat) (c : Cursor) : Cursor := { c with nextId := c.nextId + k }

variable {α α' β β' : Type} {n k : Nat} {ρ : Nat → Nat}

/-- A parse has come from `c` to `d`: it has drawn numbers and noted errors of the text. -/
structure Cursor.Since (c d : Cursor) : Prop where
  nextId : c.nextId ≤ d.nextId
  errors : (∀ e ∈ c.errors, e.isStatic = true) → ∀ e ∈ d.errors, e.isStatic = true

theorem Cursor.Since.refl (c : Cursor) : c.Since c := ⟨Nat.le_refl _, fun h => h⟩

theorem Cursor.Since.trans {c d e : Cursor} (h : c.Since d) (h' : d.Since e) : c.Since e :=
  ⟨Nat.le_trans h.nextId h'.nextId, fun hc => h'.errors (h.errors hc)⟩

theorem since_note (c : Cursor) (error : GrammarError) (span : Span) :
    c.Since (c.note error span) := by
  refine ⟨Nat.le_refl _, fun h e he => ?_⟩
  rcases Array.mem_push.mp he with hmem | rfl
  · exact h e hmem
  · rfl

/-- From cursors on that number from `n` on, the second rule does `k` numbers ahead what
the first one does, and its result is changed by `f`. -/
def Shifts (n k : Nat) (f : α → α') (r : Rule α) (r' : Rule α') : Prop :=
  ∀ c : Cursor, n ≤ c.nextId → Ends r c
    (fun a d => c.Since d ∧ r' (c.ahead k) = .ok (f a) (d.ahead k))
    fun halt d => c.Since d ∧ r' (c.ahead k) = .error halt (d.ahead k)

theorem shifts_pure {f : α → α'} (a : α) : Shifts n k f (pure a) (pure (f a)) :=
  fun _ _ => ⟨.refl _, rfl⟩

theorem shifts_starve {f : α → α'} : Shifts n k f (starve : Rule α) starve :=
  fun _ _ => ⟨.refl _, rfl⟩

theorem shifts_refuse {f : α → α'} {error : GrammarError} :
    Shifts n k f (refuse error : Rule α) (refuse error) :=
  fun _ _ => ⟨since_note .., rfl⟩

theorem Shifts.bind {f : α → α'} {g : β → β'} {r : Rule α} {r' : Rule α'} {q : α → Rule β}
    {q' : α' → Rule β'} (h : Shifts n k f r r') (hq : ∀ a, Shifts n k g (q a) (q' (f a))) :
    Shifts n k g (r >>= q) (r' >>= q') := by
  intro c hn
  rw [ends_bind]
  refine Ends.imp (h c hn) ?_ ?_
  · rintro a d ⟨hsince, hr'⟩
    refine Ends.imp (hq a d (Nat.le_trans hn hsince.nextId)) ?_ ?_
    · rintro b e ⟨hsince', hq'⟩
      exact ⟨hsince.trans hsince', (bind_of_ok hr').trans hq'⟩
    · rintro halt e ⟨hsince', hq'⟩
      exact ⟨hsince.trans hsince', (bind_of_ok hr').trans hq'⟩
  · rintro halt d ⟨hsince, hr'⟩
    exact ⟨hsince, bind_of_error hr'⟩

theorem Shifts.map {f : α → α'} {g : β → β'} {r : Rule α} {r' : Rule α'} {t : α → β}
    {t' : α' → β'} (h : Shifts n k f r r') (ht : ∀ a, t' (f a) = g (t a)) :
    Shifts n k g (t <$> r) (t' <$> r') := by
  rw [map_eq_pure_bind, map_eq_pure_bind]
  refine h.bind fun a => ?_
  rw [ht]
  exact shifts_pure _

theorem shifts_ite {f : α → α'} {p : Prop} [Decidable p] {r q : Rule α} {r' q' : Rule α'}
    (hr : p → Shifts n k f r r') (hq : ¬ p → Shifts n k f q q') :
    Shifts n k f (if p then r else q) (if p then r' else q') := by
  by_cases hp : p
  · rw [if_pos hp, if_pos hp]
    exact hr hp
  · rw [if_neg hp, if_neg hp]
    exact hq hp

/-! ## Single steps -/

theorem shifts_test {f : Cursor → Bool} (hf : ∀ c : Cursor, f (c.ahead k) = f c) :
    Shifts n k id (test f) (test f) := by
  intro c _
  exact ⟨.refl _, congrArg (fun b => EStateM.Result.ok b (c.ahead k)) (hf c)⟩

theorem shifts_note {error : GrammarError} {span : Span} :
    Shifts n k id (note error span) (note error span) :=
  fun _ _ => ⟨since_note .., rfl⟩

theorem shifts_noteHere {error : GrammarError} :
    Shifts n k id (noteHere error) (noteHere error) :=
  fun _ _ => ⟨since_note .., rfl⟩

/-- An error is noted, if there is reason to. -/
theorem shifts_noteIf {f : α → α'} {reason : Prop} [Decidable reason] {mark : Rule PUnit}
    {q : PUnit → Rule α} {q' : PUnit → Rule α'} (hmark : Shifts n k id mark mark)
    (h : Shifts n k f (q ⟨⟩) (q' ⟨⟩)) :
    Shifts n k f (if reason then mark >>= q else q ⟨⟩) (if reason then mark >>= q' else q' ⟨⟩) :=
  shifts_ite (fun _ => hmark.bind fun _ => h) fun _ => h

theorem shifts_takeIf {γ : Type} {select : TokenKind → Option γ} :
    Shifts n k id (takeIf select) (takeIf select) := by
  rintro ⟨ts, finish, i, errors⟩ _
  unfold Ends takeIf
  cases ts with
  | nil => exact ⟨.refl _, rfl⟩
  | cons t ts =>
    cases hselect : select t.kind with
    | none =>
      simp only [hselect, Cursor.ahead]
      exact ⟨.refl _, rfl⟩
    | some a =>
      simp only [hselect, Cursor.ahead]
      exact ⟨⟨Nat.le_refl _, fun h => h⟩, rfl⟩

theorem shifts_accept {kind : TokenKind} : Shifts n k id (accept kind) (accept kind) := by
  rintro ⟨ts, finish, i, errors⟩ _
  unfold Ends accept
  cases ts with
  | nil => exact ⟨.refl _, rfl⟩
  | cons t ts =>
    by_cases hkind : t.kind = kind
    · simp only [if_pos hkind, Cursor.ahead]
      exact ⟨⟨Nat.le_refl _, fun h => h⟩, rfl⟩
    · simp only [if_neg hkind, Cursor.ahead]
      exact ⟨.refl _, rfl⟩

theorem shifts_expect {kind : TokenKind} {what : String} :
    Shifts n k id (expect kind what) (expect kind what) := by
  refine shifts_accept.bind fun found => ?_
  cases found with
  | none => exact shifts_refuse
  | some t => exact shifts_pure t

theorem shifts_name {what : String} : Shifts n k id (name what) (name what) :=
  shifts_expect.bind fun _ => shifts_pure _

theorem shifts_fresh (hρ : ∀ i, n ≤ i → ρ i = i + k) : Shifts n k ρ fresh fresh := by
  intro c hn
  refine ⟨⟨Nat.le_succ _, fun h => h⟩, ?_⟩
  simp only [fresh, Cursor.ahead, hρ _ hn, Nat.add_right_comm]

theorem shifts_nested {f : α → α'} {p : Place} {r : Place → Rule α} {r' : Place → Rule α'}
    (h : Shifts n k f (r p.deeper) (r' p.deeper)) : Shifts n k f (nested p r) (nested p r') :=
  shifts_ite (fun _ => shifts_refuse) fun _ => h

theorem Shifts.recover {f : α → α'} {r : Rule α} {r' : Rule α'} (h : Shifts n k f r r') :
    Shifts n k (Option.map f) (recover r) (recover r') := by
  intro c hn
  have hc := h c hn
  unfold Ends at hc ⊢
  unfold Rule.recover
  cases hr : r c with
  | ok a d =>
    rw [hr] at hc
    exact ⟨hc.1, by simp only [hc.2, Option.map_some]⟩
  | error halt d =>
    rw [hr] at hc
    cases halt with
    | unwound => exact ⟨⟨hc.1.nextId, hc.1.errors⟩, by simp only [hc.2]; rfl⟩
    | starved => exact ⟨hc.1, by simp only [hc.2]⟩

/-! ## Rules of expressions -/

theorem apply_expr (op : Operator) (left : Expr) (span : Span) (right : Expr) :
    op.apply (expr ρ left) span (expr ρ right) = expr ρ (op.apply left span right) := by
  cases op <;> rfl

theorem shifts_assignTo (hρ : ∀ i, n ≤ i → ρ i = i + k) (target : Expr) (span : Span)
    (value : Expr) : Shifts n k (expr ρ) (assignTo target span value)
      (assignTo (expr ρ target) span (expr ρ value)) := by
  cases target
  case var target => exact (shifts_fresh hρ).bind fun id => shifts_pure _
  case get object name => exact shifts_pure _
  all_goals exact shifts_note.bind fun _ => shifts_pure _

theorem shifts_parameters : ∀ (fuel : Nat) (done : Array Ident),
    Shifts n k id (parameters fuel done) (parameters fuel done)
  | 0, _ => shifts_starve
  | fuel + 1, done => by
    rw [parameters]
    refine shifts_noteIf shifts_noteHere ?_
    refine shifts_name.bind fun param => shifts_accept.bind fun comma => ?_
    cases comma with
    | none => exact shifts_pure _
    | some _ => exact shifts_parameters fuel _

/-- What all rules do, `k` numbers ahead. -/
structure Shifting (n k : Nat) (ρ : Nat → Nat) (fuel : Nat) : Prop where
  expression : ∀ p, Shifts n k (expr ρ) (expression fuel p) (expression fuel p)
  assignment : ∀ p, Shifts n k (expr ρ) (assignment fuel p) (assignment fuel p)
  operation : ∀ p level, Shifts n k (expr ρ) (operation fuel p level) (operation fuel p level)
  chain : ∀ p level left, Shifts n k (expr ρ) (chain fuel p level left)
    (chain fuel p level (expr ρ left))
  operand : ∀ p level, Shifts n k (expr ρ) (operand fuel p level) (operand fuel p level)
  unary : ∀ p, Shifts n k (expr ρ) (unary fuel p) (unary fuel p)
  calls : ∀ p callee, Shifts n k (expr ρ) (calls fuel p callee) (calls fuel p (expr ρ callee))
  argumentList : ∀ p, Shifts n k (exprs ρ) (argumentList fuel p) (argumentList fuel p)
  arguments : ∀ p done, Shifts n k (Array.map (expr ρ)) (arguments fuel p done)
    (arguments fuel p (done.map (expr ρ)))
  primary : ∀ p, Shifts n k (expr ρ) (primary fuel p) (primary fuel p)
  functionTail : ∀ p start role, Shifts n k (lambda ρ) (functionTail fuel p start role)
    (functionTail fuel p start role)
  namedFunction : ∀ p role, Shifts n k (method ρ) (namedFunction fuel p role)
    (namedFunction fuel p role)
  block : ∀ p, Shifts n k (Prod.map (stmts ρ) id) (block fuel p) (block fuel p)
  declarations : ∀ p done, Shifts n k (Array.map (stmt ρ)) (declarations fuel p done)
    (declarations fuel p (done.map (stmt ρ)))
  declaration : ∀ p, Shifts n k (Option.map (stmt ρ)) (declaration fuel p) (declaration fuel p)
  declared : ∀ p, Shifts n k (stmt ρ) (declared fuel p) (declared fuel p)
  classDeclaration : ∀ p, Shifts n k (stmt ρ) (classDeclaration fuel p) (classDeclaration fuel p)
  methods : ∀ p done, Shifts n k (Array.map (method ρ)) (methods fuel p done)
    (methods fuel p (done.map (method ρ)))
  varDeclaration : ∀ p, Shifts n k (stmt ρ) (varDeclaration fuel p) (varDeclaration fuel p)
  statement : ∀ p, Shifts n k (stmt ρ) (statement fuel p) (statement fuel p)
  statementBody : ∀ p, Shifts n k (stmt ρ) (statementBody fuel p) (statementBody fuel p)
  expressionStatement : ∀ p, Shifts n k (stmt ρ) (expressionStatement fuel p)
    (expressionStatement fuel p)
  forStatement : ∀ p keyword, Shifts n k (stmt ρ) (forStatement fuel p keyword)
    (forStatement fuel p keyword)
  forInitializer : ∀ p, Shifts n k (Option.map (stmt ρ)) (forInitializer fuel p)
    (forInitializer fuel p)
  optionalExpression : ∀ p closing, Shifts n k (Option.map (expr ρ))
    (optionalExpression fuel p closing) (optionalExpression fuel p closing)
  ifStatement : ∀ p, Shifts n k (stmt ρ) (ifStatement fuel p) (ifStatement fuel p)
  whileStatement : ∀ p, Shifts n k (stmt ρ) (whileStatement fuel p) (whileStatement fuel p)
  returnStatement : ∀ p keyword, Shifts n k (stmt ρ) (returnStatement fuel p keyword)
    (returnStatement fuel p keyword)

variable {fuel : Nat} (ih : Shifting n k ρ fuel) (hρ : ∀ i, n ≤ i → ρ i = i + k)
include ih

theorem shifts_expression (p : Place) :
    Shifts n k (expr ρ) (expression (fuel + 1) p) (expression (fuel + 1) p) := by
  rw [expression]
  exact shifts_nested (ih.assignment p.deeper)

include hρ in
theorem shifts_assignment (p : Place) :
    Shifts n k (expr ρ) (assignment (fuel + 1) p) (assignment (fuel + 1) p) := by
  rw [assignment]
  refine (ih.operation p .or).bind fun target => shifts_accept.bind fun equals => ?_
  cases equals with
  | none => exact shifts_pure target
  | some equals => exact (ih.assignment p).bind fun value => shifts_assignTo hρ target _ value

theorem shifts_operation (p : Place) (level : Level) :
    Shifts n k (expr ρ) (operation (fuel + 1) p level) (operation (fuel + 1) p level) := by
  rw [operation]
  exact (ih.operand p level).bind fun left => ih.chain p level left

theorem shifts_chain (p : Place) (level : Level) (left : Expr) :
    Shifts n k (expr ρ) (chain (fuel + 1) p level left)
      (chain (fuel + 1) p level (expr ρ left)) := by
  rw [chain, chain]
  refine shifts_takeIf.bind fun found => ?_
  cases found with
  | none => exact shifts_pure left
  | some found =>
    obtain ⟨op, token⟩ := found
    refine (ih.operand p level).bind fun right => ?_
    rw [apply_expr]
    exact ih.chain p level _

theorem shifts_operand (p : Place) (level : Level) :
    Shifts n k (expr ρ) (operand (fuel + 1) p level) (operand (fuel + 1) p level) := by
  rw [operand]
  cases level.tighter? with
  | none => exact ih.unary p
  | some tighter => exact ih.operation p tighter

theorem shifts_unary (p : Place) :
    Shifts n k (expr ρ) (unary (fuel + 1) p) (unary (fuel + 1) p) := by
  rw [unary]
  refine shifts_takeIf.bind fun found => ?_
  cases found with
  | none => exact (ih.primary p).bind fun head => ih.calls p head
  | some found =>
    obtain ⟨op, token⟩ := found
    exact (shifts_nested (ih.unary p.deeper)).bind fun operand => shifts_pure _

theorem shifts_calls (p : Place) (callee : Expr) :
    Shifts n k (expr ρ) (calls (fuel + 1) p callee) (calls (fuel + 1) p (expr ρ callee)) := by
  rw [calls, calls]
  refine shifts_accept.bind fun opened => ?_
  cases opened with
  | some _ =>
    refine (ih.argumentList p).bind fun args => shifts_expect.bind fun close => ?_
    exact ih.calls p (.call callee close.span args)
  | none =>
    refine shifts_accept.bind fun dot => ?_
    cases dot with
    | some _ => exact shifts_name.bind fun property => ih.calls p (.get callee property)
    | none => exact shifts_pure callee

theorem shifts_argumentList (p : Place) :
    Shifts n k (exprs ρ) (argumentList (fuel + 1) p) (argumentList (fuel + 1) p) := by
  rw [argumentList]
  refine (shifts_test fun _ => rfl).bind fun done? => shifts_ite (fun _ => shifts_pure _) fun _ => ?_
  have harguments := ih.arguments p #[]
  rw [Array.map_empty] at harguments
  refine harguments.bind fun args => ?_
  rw [Array.toList_map, ← exprs_eq_map]
  exact shifts_pure _

theorem shifts_arguments (p : Place) (done : Array Expr) :
    Shifts n k (Array.map (expr ρ)) (arguments (fuel + 1) p done)
      (arguments (fuel + 1) p (done.map (expr ρ))) := by
  rw [arguments, arguments, Array.size_map]
  refine shifts_noteIf shifts_noteHere ?_
  refine (ih.expression p).bind fun arg => shifts_accept.bind fun comma => ?_
  rw [← Array.map_push]
  cases comma with
  | none => exact shifts_pure _
  | some _ => exact ih.arguments p _

include hρ in
theorem shifts_primary (p : Place) :
    Shifts n k (expr ρ) (primary (fuel + 1) p) (primary (fuel + 1) p) := by
  rw [primary]
  refine shifts_takeIf.bind fun found => ?_
  cases found with
  | some found => exact shifts_pure _
  | none =>
  refine shifts_accept.bind fun found => ?_
  cases found with
  | some token => exact (shifts_fresh hρ).bind fun id => shifts_pure _
  | none =>
  refine shifts_accept.bind fun found => ?_
  cases found with
  | some opened =>
    exact (ih.expression p).bind fun inner => shifts_expect.bind fun close => shifts_pure _
  | none =>
  refine shifts_accept.bind fun found => ?_
  cases found with
  | some token => exact (shifts_fresh hρ).bind fun id => shifts_pure _
  | none =>
  refine shifts_accept.bind fun found => ?_
  cases found with
  | some token =>
    refine shifts_expect.bind fun _ => shifts_name.bind fun name => ?_
    exact (shifts_fresh hρ).bind fun id => shifts_pure _
  | none =>
  refine shifts_accept.bind fun found => ?_
  cases found with
  | some token =>
    refine shifts_expect.bind fun _ => ?_
    exact (ih.functionTail p token.span .function).bind fun fn => shifts_pure _
  | none => exact shifts_refuse

/-! ## Rules of statements and declarations -/

theorem shifts_functionTail (p : Place) (start : Span) (role : Role) :
    Shifts n k (lambda ρ) (functionTail (fuel + 1) p start role)
      (functionTail (fuel + 1) p start role) := by
  rw [functionTail]
  refine (shifts_test fun _ => rfl).bind fun done? => ?_
  extract_lets tail
  have htail (params : Array Ident) : Shifts n k (lambda ρ) (tail params) (tail params) := by
    refine shifts_expect.bind fun _ => shifts_expect.bind fun _ => ?_
    exact (ih.block p.function).bind fun body => shifts_pure _
  refine shifts_ite (fun _ => htail #[]) fun _ => ?_
  exact (shifts_parameters fuel #[]).bind fun params => htail params

theorem shifts_namedFunction (p : Place) (role : Role) :
    Shifts n k (method ρ) (namedFunction (fuel + 1) p role)
      (namedFunction (fuel + 1) p role) := by
  rw [namedFunction]
  refine shifts_name.bind fun name => shifts_expect.bind fun _ => ?_
  exact (ih.functionTail p name.span role).bind fun fn => shifts_pure _

theorem shifts_block (p : Place) :
    Shifts n k (Prod.map (stmts ρ) id) (block (fuel + 1) p) (block (fuel + 1) p) := by
  rw [block]
  have hdeclarations := ih.declarations p.deeper #[]
  rw [Array.map_empty] at hdeclarations
  refine shifts_nested (hdeclarations.bind fun body => shifts_expect.bind fun close => ?_)
  rw [Array.toList_map, ← stmts_eq_map]
  exact shifts_pure _

theorem shifts_declarations (p : Place) (done : Array Stmt) :
    Shifts n k (Array.map (stmt ρ)) (declarations (fuel + 1) p done)
      (declarations (fuel + 1) p (done.map (stmt ρ))) := by
  rw [declarations, declarations]
  refine (shifts_test fun _ => rfl).bind fun done? => shifts_ite (fun _ => shifts_pure _) fun _ => ?_
  refine (ih.declaration p).bind fun declared => ?_
  cases declared with
  | none => exact ih.declarations p done
  | some s =>
    have h := ih.declarations p (done.push s)
    rw [Array.map_push] at h
    exact h

theorem shifts_declaration (p : Place) :
    Shifts n k (Option.map (stmt ρ)) (declaration (fuel + 1) p) (declaration (fuel + 1) p) := by
  rw [declaration]
  exact (ih.declared p).recover

theorem shifts_declared (p : Place) :
    Shifts n k (stmt ρ) (declared (fuel + 1) p) (declared (fuel + 1) p) := by
  rw [declared]
  refine shifts_accept.bind fun found => ?_
  cases found with
  | some _ => exact ih.classDeclaration p
  | none =>
    refine (shifts_test fun _ => rfl).bind fun both => shifts_ite (fun _ => ?_) fun _ => ?_
    · refine shifts_accept.bind fun _ => ?_
      exact (ih.namedFunction p .function).bind fun declared => shifts_pure _
    · refine shifts_accept.bind fun found => ?_
      cases found with
      | some _ => exact ih.varDeclaration p
      | none => exact ih.statement p

omit ih in
include hρ in
theorem shifts_superclassClause :
    Shifts n k (Option.map (reference ρ)) superclassClause superclassClause := by
  refine shifts_accept.bind fun found => ?_
  cases found with
  | none => exact shifts_pure none
  | some _ => exact shifts_name.bind fun parent => (shifts_fresh hρ).bind fun id => shifts_pure _

include hρ in
theorem shifts_classDeclaration (p : Place) :
    Shifts n k (stmt ρ) (classDeclaration (fuel + 1) p) (classDeclaration (fuel + 1) p) := by
  rw [classDeclaration]
  refine shifts_name.bind fun className => (shifts_superclassClause hρ).bind fun superclass => ?_
  have hmethods := ih.methods p #[]
  rw [Array.map_empty] at hmethods
  refine shifts_expect.bind fun _ => hmethods.bind fun declared => shifts_expect.bind fun _ => ?_
  rw [Array.toList_map, ← methods_eq_map]
  exact shifts_pure _

theorem shifts_methods (p : Place) (done : Array Method) :
    Shifts n k (Array.map (method ρ)) (methods (fuel + 1) p done)
      (methods (fuel + 1) p (done.map (method ρ))) := by
  rw [methods, methods]
  refine (shifts_test fun _ => rfl).bind fun done? => shifts_ite (fun _ => shifts_pure _) fun _ => ?_
  refine (ih.namedFunction p .method).bind fun m => ?_
  have h := ih.methods p (done.push m)
  rw [Array.map_push] at h
  exact h

theorem shifts_varDeclaration (p : Place) :
    Shifts n k (stmt ρ) (varDeclaration (fuel + 1) p) (varDeclaration (fuel + 1) p) := by
  rw [varDeclaration]
  refine shifts_name.bind fun name => shifts_accept.bind fun found => ?_
  cases found with
  | none => exact shifts_expect.bind fun _ => shifts_pure _
  | some _ =>
    have hinitializer : Shifts n k (Option.map (expr ρ)) (some <$> expression fuel p)
        (some <$> expression fuel p) := (ih.expression p).map fun _ => rfl
    refine hinitializer.bind fun initializer => shifts_expect.bind fun _ => ?_
    cases initializer <;> exact shifts_pure _

theorem shifts_statement (p : Place) :
    Shifts n k (stmt ρ) (statement (fuel + 1) p) (statement (fuel + 1) p) := by
  rw [statement]
  exact shifts_nested (ih.statementBody p.deeper)

omit ih in
theorem shifts_breakStatement (p : Place) (keyword : Span) :
    Shifts n k (stmt ρ) (breakStatement p keyword) (breakStatement p keyword) := by
  unfold breakStatement
  exact shifts_noteIf shifts_note (shifts_expect.bind fun _ => shifts_pure _)

theorem shifts_statementBody (p : Place) :
    Shifts n k (stmt ρ) (statementBody (fuel + 1) p) (statementBody (fuel + 1) p) := by
  rw [statementBody]
  refine shifts_accept.bind fun found => ?_
  cases found with
  | some token => exact ih.forStatement p token.span
  | none =>
  refine shifts_accept.bind fun found => ?_
  cases found with
  | some _ => exact ih.ifStatement p
  | none =>
  refine shifts_accept.bind fun found => ?_
  cases found with
  | some _ => exact ih.whileStatement p
  | none =>
  refine shifts_accept.bind fun found => ?_
  cases found with
  | some token => exact shifts_breakStatement p token.span
  | none =>
  refine shifts_accept.bind fun found => ?_
  cases found with
  | some token => exact ih.returnStatement p token.span
  | none =>
  refine shifts_accept.bind fun found => ?_
  cases found with
  | some _ => exact (ih.block p).bind fun body => shifts_pure _
  | none =>
  refine shifts_accept.bind fun found => ?_
  cases found with
  | some _ => exact (ih.expression p).bind fun value => shifts_expect.bind fun _ => shifts_pure _
  | none => exact ih.expressionStatement p

theorem shifts_expressionStatement (p : Place) :
    Shifts n k (stmt ρ) (expressionStatement (fuel + 1) p) (expressionStatement (fuel + 1) p) := by
  rw [expressionStatement]
  exact (ih.expression p).bind fun value => shifts_expect.bind fun _ => shifts_pure _

omit ih in
theorem desugarFor_stmt (keyword : Span) (initializer : Option Stmt)
    (condition increment : Option Expr) (body : Stmt) :
    desugarFor keyword (initializer.map (stmt ρ)) (condition.map (expr ρ))
      (increment.map (expr ρ)) (stmt ρ body) =
      stmt ρ (desugarFor keyword initializer condition increment body) := by
  cases initializer <;> cases condition <;> cases increment <;> rfl

theorem shifts_forStatement (p : Place) (keyword : Span) :
    Shifts n k (stmt ρ) (forStatement (fuel + 1) p keyword)
      (forStatement (fuel + 1) p keyword) := by
  rw [forStatement]
  refine shifts_expect.bind fun _ => (ih.forInitializer p).bind fun initializer => ?_
  refine (ih.optionalExpression p .semicolon).bind fun condition => shifts_expect.bind fun _ => ?_
  refine (ih.optionalExpression p .rightParen).bind fun increment => shifts_expect.bind fun _ => ?_
  refine (ih.statement p.loop).bind fun body => ?_
  rw [desugarFor_stmt]
  exact shifts_pure _

theorem shifts_forInitializer (p : Place) :
    Shifts n k (Option.map (stmt ρ)) (forInitializer (fuel + 1) p)
      (forInitializer (fuel + 1) p) := by
  rw [forInitializer]
  refine shifts_accept.bind fun found => ?_
  cases found with
  | some _ => exact shifts_pure none
  | none =>
  refine shifts_accept.bind fun found => ?_
  cases found with
  | some _ => exact (ih.varDeclaration p).map fun _ => rfl
  | none => exact (ih.expressionStatement p).map fun _ => rfl

theorem shifts_optionalExpression (p : Place) (closing : Symbol) :
    Shifts n k (Option.map (expr ρ)) (optionalExpression (fuel + 1) p closing)
      (optionalExpression (fuel + 1) p closing) := by
  rw [optionalExpression]
  refine (shifts_test fun _ => rfl).bind fun done? => shifts_ite (fun _ => shifts_pure none) fun _ => ?_
  exact (ih.expression p).map fun _ => rfl

theorem shifts_ifStatement (p : Place) :
    Shifts n k (stmt ρ) (ifStatement (fuel + 1) p) (ifStatement (fuel + 1) p) := by
  rw [ifStatement]
  refine shifts_expect.bind fun _ => (ih.expression p).bind fun condition => ?_
  refine shifts_expect.bind fun _ => (ih.statement p).bind fun thenBranch => ?_
  refine shifts_accept.bind fun found => ?_
  cases found with
  | some _ => exact (ih.statement p).bind fun elseBranch => shifts_pure _
  | none => exact shifts_pure _

theorem shifts_whileStatement (p : Place) :
    Shifts n k (stmt ρ) (whileStatement (fuel + 1) p) (whileStatement (fuel + 1) p) := by
  rw [whileStatement]
  refine shifts_expect.bind fun _ => (ih.expression p).bind fun condition => ?_
  refine shifts_expect.bind fun _ => (ih.statement p.loop).bind fun body => shifts_pure _

theorem shifts_returnStatement (p : Place) (keyword : Span) :
    Shifts n k (stmt ρ) (returnStatement (fuel + 1) p keyword)
      (returnStatement (fuel + 1) p keyword) := by
  rw [returnStatement]
  refine (ih.optionalExpression p .semicolon).bind fun value => shifts_expect.bind fun _ => ?_
  cases value <;> exact shifts_pure _

omit ih
include hρ

theorem shifting : ∀ fuel, Shifting n k ρ fuel
  | 0 => by constructor <;> intros <;> exact shifts_starve
  | fuel + 1 => by
    have ih := shifting fuel
    exact {
      expression := shifts_expression ih
      assignment := shifts_assignment ih hρ
      operation := shifts_operation ih
      chain := shifts_chain ih
      operand := shifts_operand ih
      unary := shifts_unary ih
      calls := shifts_calls ih
      argumentList := shifts_argumentList ih
      arguments := shifts_arguments ih
      primary := shifts_primary ih hρ
      functionTail := shifts_functionTail ih
      namedFunction := shifts_namedFunction ih
      block := shifts_block ih
      declarations := shifts_declarations ih
      declaration := shifts_declaration ih
      declared := shifts_declared ih
      classDeclaration := shifts_classDeclaration ih hρ
      methods := shifts_methods ih
      varDeclaration := shifts_varDeclaration ih
      statement := shifts_statement ih
      statementBody := shifts_statementBody ih
      expressionStatement := shifts_expressionStatement ih
      forStatement := shifts_forStatement ih
      forInitializer := shifts_forInitializer ih
      optionalExpression := shifts_optionalExpression ih
      ifStatement := shifts_ifStatement ih
      whileStatement := shifts_whileStatement ih
      returnStatement := shifts_returnStatement ih }

/-! ## Whole texts -/

theorem shifts_program : ∀ (fuel : Nat) (done : Array Stmt),
    Shifts n k (Array.map (stmt ρ)) (program fuel done) (program fuel (done.map (stmt ρ)))
  | 0, _ => shifts_starve
  | fuel + 1, done => by
    rw [program, program]
    refine (shifts_test fun _ => rfl).bind fun done? =>
      shifts_ite (fun _ => shifts_pure _) fun _ => ?_
    refine ((shifting hρ fuel).declaration .top).bind fun declared => ?_
    cases declared with
    | none => exact shifts_program fuel done
    | some s =>
      have h := shifts_program fuel (done.push s)
      rw [Array.map_push] at h
      exact h

/-- A program parsed with numbers from `k` further on. -/
theorem parseProgram_ahead (stream : TokenStream) {first : Nat} (hfirst : n ≤ first) :
    first ≤ (parseProgram stream first).nextId ∧
      (∀ e ∈ (parseProgram stream first).errors, e.isStatic = true) ∧
      parseProgram stream (first + k) = ⟨stmts ρ (parseProgram stream first).value,
        (parseProgram stream first).errors, (parseProgram stream first).nextId + k⟩ := by
  have h := shifts_program hρ (stepBound stream.tokens.length) #[] (.start stream first) hfirst
  rw [Array.map_empty] at h
  have hstart : (Cursor.start stream first).ahead k = .start stream (first + k) := rfl
  have hempty : ∀ e ∈ (Cursor.start stream first).errors, e.isStatic = true := by
    intro e he
    cases Array.not_mem_empty e he
  unfold Ends at h
  unfold parseProgram parse
  cases hrule : program (stepBound stream.tokens.length) #[] (.start stream first) with
  | ok all c =>
    rw [hrule, hstart] at h
    obtain ⟨hsince, hahead⟩ := h
    refine ⟨hsince.nextId, hsince.errors hempty, ?_⟩
    simp only [hahead, Array.toList_map, ← stmts_eq_map]
    rfl
  | error halt c =>
    rw [hrule, hstart] at h
    obtain ⟨hsince, hahead⟩ := h
    refine ⟨hsince.nextId, hsince.errors hempty, ?_⟩
    simp only [hahead]
    rfl

/-- An expression parsed with numbers from `k` further on. -/
theorem parseExpression_ahead (stream : TokenStream) {first : Nat} (hfirst : n ≤ first) :
    first ≤ (parseExpression stream first).nextId ∧
      (∀ e ∈ (parseExpression stream first).errors, e.isStatic = true) ∧
      parseExpression stream (first + k) = ⟨(parseExpression stream first).value.map (expr ρ),
        (parseExpression stream first).errors, (parseExpression stream first).nextId + k⟩ := by
  have h := (shifting hρ (stepBound stream.tokens.length)).expression .top (.start stream first)
    hfirst
  have hstart : (Cursor.start stream first).ahead k = .start stream (first + k) := rfl
  have hempty : ∀ e ∈ (Cursor.start stream first).errors, e.isStatic = true := by
    intro e he
    cases Array.not_mem_empty e he
  unfold Ends at h
  unfold parseExpression parse wholeExpression
  cases hrule : expression (stepBound stream.tokens.length) .top (.start stream first) with
  | ok e c =>
    rw [hrule, hstart] at h
    obtain ⟨hsince, hahead⟩ := h
    have hend : (c.ahead k).atEnd = c.atEnd := rfl
    simp only [hahead, hend]
    cases c.atEnd with
    | true => exact ⟨hsince.nextId, hsince.errors hempty, rfl⟩
    | false =>
      exact ⟨hsince.nextId, (since_note c .trailingTokens c.here).errors (hsince.errors hempty), rfl⟩
  | error halt c =>
    rw [hrule, hstart] at h
    obtain ⟨hsince, hahead⟩ := h
    have hend : (c.ahead k).atEnd = c.atEnd := rfl
    simp only [hahead, hend]
    cases c.atEnd with
    | true => exact ⟨hsince.nextId, hsince.errors hempty, rfl⟩
    | false =>
      exact ⟨hsince.nextId, (since_note c .trailingTokens c.here).errors (hsince.errors hempty), rfl⟩

end Lox.Grammar
