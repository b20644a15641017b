import Lox.Proofs.Grammar.Recovery.Steps

/-! # Statements track the guide

One lemma for each rule from a declaration down. Statements end with a token of
their own, so that the hole may stand behind them; an `if` looks whether an `else`
comes, and none stands at the hole. -/

namespace Lox.Grammar

open Rule

variable {H : Hole} {J : Type} {F : J → Filling H} {fuel : Nat} {g : J → Nat}

theorem tracks_namedFunction (ih : Tracking H fuel) (p : Place) (role : Role) :
    Tracks F true Filling.SameMethod (namedFunction (fuel + 1) p role)
      fun j => namedFunction (g j) p role := by
  refine tracks_succ (fun _ fuel => namedFunction fuel p role) (fun _ => rfl) fun π m => ?_
  simp only [namedFunction]
  refine tracks_name (fun _ _ _ _ => (barred_expect (by decide)).bind.stuck.tracksAt) ?_
  intro name _ _ name' hname
  refine tracks_expect (fun _ _ _ _ => ?_) fun _ _ ρ _ _ => ?_
  · exact (barred_functionTail fuel p _ _).bind.stuck.tracksAt
  refine (ih.functionTail p _ _ _).bind (fun fn _ σ _ hfn => tracksAt_pure fun i => ?_)
    fun fn _ σ _ hfn => tracks_pure fun i => ?_
  · exact (hfn i).method (hname (ρ (σ i))).1
  · exact (hfn i).method (hname (ρ (σ i))).1

theorem tracks_declared (ih : Tracking H fuel) (p : Place) :
    Tracks F true Filling.SameStmt (declared (fuel + 1) p) fun j => declared (g j) p := by
  refine tracks_succ (fun _ fuel => declared fuel p) (fun _ => rfl) fun π m => ?_
  simp only [declared]
  refine tracks_accept (fun _ _ _ _ => (barred_classDeclaration fuel p).stuck.tracksAt)
    (fun _ _ _ _ _ => ih.classDeclaration p) ?_
  refine tracks_test (fun c hoff => ?_) fun seen => ?_
  · by_cases hshut : c.Shut
    · simp only [hshut.seesBoth]
      exact .inl (barred_accept (by decide) (barred_statement fuel p) c hshut)
    · exact .inr fun j d h => h.seesBoth hoff hshut _
  cases seen with
  | true =>
    have hfunction : ∀ {I : Type} (ρ : I → _), Tracks (fun i => F (π (ρ i))) true Filling.SameStmt
        (namedFunction fuel p .function >>= fun declared => pure (.function declared.name declared.fn))
        fun i => namedFunction (m (ρ i)) p .function >>= fun declared =>
          pure (.function declared.name declared.fn) :=
      fun ρ => (ih.namedFunction p .function).bind
        (fun _ _ _ _ h => tracksAt_pure fun i => (h i).function)
        fun _ _ _ _ h => tracks_pure fun i => (h i).function
    refine tracks_accept (fun _ _ _ _ => ?_) (fun _ _ ρ _ _ => hfunction ρ) (hfunction id)
    exact (barred_namedFunction fuel p .function).bind.stuck.tracksAt
  | false =>
    exact tracks_accept (fun _ _ _ _ => (barred_varDeclaration fuel p).stuck.tracksAt)
      (fun _ _ _ _ _ => ih.varDeclaration p) (ih.statement p)

theorem tracks_superclassClause :
    Tracks F false (fun _ a b => b.map Reference.outline = a.map Reference.outline) superclassClause
      fun _ => superclassClause := by
  simp only [superclassClause]
  refine tracks_accept (fun _ _ _ _ => barred_name.bind.stuck.tracksAt) (fun _ _ _ _ _ => ?_)
    (tracks_pure fun _ => rfl)
  refine tracks_name (fun _ _ _ _ => (idle_fresh fun _ => idle_pure _).stuck.tracksAt) ?_
  intro parent _ _ parent' hparent
  refine tracks_fresh fun id _ π id' => tracks_pure fun i => ?_
  exact congrArg (fun name => some (Reference.mk 0 name)) (hparent (π i)).1

theorem tracks_classDeclaration (ih : Tracking H fuel) (p : Place) :
    Tracks F true Filling.SameStmt (classDeclaration (fuel + 1) p)
      fun j => classDeclaration (g j) p := by
  refine tracks_succ (fun _ fuel => classDeclaration fuel p) (fun _ => rfl) fun π m => ?_
  simp only [classDeclaration]
  refine tracks_name (fun _ _ _ _ => ?_) fun name _ ρ name' hname => ?_
  · exact (barred_superclassClause (barred_expect (by decide)).bind).stuck.tracksAt
  refine tracks_superclassClause.bindLoose (fun _ => (barred_expect (by decide)).bind.stuck) ?_
  intro parent _ σ parent' hparent
  refine tracks_expect (fun _ _ _ _ => (barred_methods fuel p _).bind.stuck.tracksAt) ?_
  intro _ _ τ _ _
  refine (ih.methods p fun _ => Each.empty).bind
    (fun _ _ _ _ _ => (barred_expect (by decide)).bind.stuck.tracksAt) ?_
  intro ms _ υ ms' hmethods
  refine tracks_expect (fun _ _ ω _ => tracksAt_pure fun i => ?_)
    fun _ _ ω _ _ => tracks_pure fun i => ?_
  · exact Filling.sameStmt_class (hname _).1 (hname (σ (τ (υ (ω i))))).2 (hparent _) (hmethods _)
  · exact Filling.sameStmt_class (hname _).1 (hname (σ (τ (υ (ω i))))).2 (hparent _) (hmethods _)

theorem tracks_methods (ih : Tracking H fuel) (p : Place) {done : Array Method}
    {done' : J → Array Method} (hdone : ∀ j, Each (F j).SameMethod done (done' j)) :
    Tracks F true (fun G => Each G.SameMethod) (methods (fuel + 1) p done)
      fun j => methods (g j) p (done' j) := by
  refine tracks_succ (fun j fuel => methods fuel p (done' j)) (fun _ => rfl) fun π m => ?_
  simp only [methods]
  refine tracks_test (fun c hoff => .inr fun j d h => ?_) fun seen => ?_
  · rw [h.atEnd hoff, h.sees hoff]
  cases seen with
  | true => exact tracks_pure fun i => hdone (π i)
  | false =>
    refine (ih.namedFunction p .method).bind
      (fun _ _ _ _ _ => (barred_methods fuel p _).stuck.tracksAt) ?_
    exact fun method _ ρ method' hmethod => ih.methods p fun i => (hdone _).push (hmethod i)

theorem tracks_varDeclaration (ih : Tracking H fuel) (p : Place) :
    Tracks F true Filling.SameStmt (varDeclaration (fuel + 1) p) fun j => varDeclaration (g j) p := by
  refine tracks_succ (fun _ fuel => varDeclaration fuel p) (fun _ => rfl) fun π m => ?_
  simp only [varDeclaration, pure_bind]
  refine tracks_name (fun _ _ _ _ => ?_) fun name _ ρ name' hname => ?_
  · exact Stuck.tracksAt (Barred.stuck (barred_accept (by decide) (barred_expect (by decide)).bind))
  have hend : ∀ {I : Type} (σ : I → _) {value : Option Expr} {value' : I → Option Expr},
      (∀ i, Option.Rel (F (π (ρ (σ i)))).SameExpr value (value' i)) →
        Tracks (fun i => F (π (ρ (σ i)))) true Filling.SameStmt
          (expect (.symbol .semicolon) "';' after variable declaration" >>= fun _ =>
            pure (.var name value))
          fun i => expect (.symbol .semicolon) "';' after variable declaration" >>= fun _ =>
            pure (.var (name' (σ i)) (value' i)) := by
    intro I σ value value' hvalue
    exact tracks_expect
      (fun _ _ τ _ => tracksAt_pure fun i => Filling.sameStmt_var (hname _).1 (hvalue (τ i)))
      fun _ _ τ _ _ => tracks_pure fun i => Filling.sameStmt_var (hname _).1 (hvalue (τ i))
  refine tracks_accept (fun _ _ _ _ => (barred_expression fuel p).map.bind.stuck.tracksAt)
    (fun _ _ σ _ _ => ?_) (hend id fun _ => .none)
  have hsome : Tracks (fun i => F (π (ρ (σ i)))) false (fun G => Option.Rel G.SameExpr)
      (some <$> expression fuel p) fun i => some <$> expression (m (ρ (σ i))) p :=
    (ih.expression p).map fun _ _ _ h => .some h
  refine hsome.bindLoose (fun _ => (barred_expect (by decide)).bind.stuck) ?_
  exact fun value _ τ value' hvalue => hend (fun i => σ (τ i)) hvalue

theorem tracks_statement (ih : Tracking H fuel) (p : Place) :
    Tracks F true Filling.SameStmt (statement (fuel + 1) p) fun j => statement (g j) p := by
  refine tracks_succ (fun _ fuel => statement fuel p) (fun _ => rfl) fun π m => ?_
  simp only [statement]
  exact tracks_nested (ih.statementBody p.deeper)

/-- An expression and the symbol that ends the statement. -/
theorem tracks_terminated (ih : Tracking H fuel) {p : Place} {what : String} {f : Expr → Stmt}
    (hf : ∀ (G : Filling H) a b, G.SameExpr a b → G.SameStmt (f a) (f b)) :
    Tracks F true Filling.SameStmt
      (expression fuel p >>= fun value => expect (.symbol .semicolon) what >>= fun _ => pure (f value))
      fun j => expression (g j) p >>= fun value => expect (.symbol .semicolon) what >>= fun _ =>
        pure (f value) := by
  refine (ih.expression p).bindLoose (fun _ => (barred_expect (by decide)).bind.stuck) ?_
  intro value _ π value' hvalue
  exact tracks_expect (fun _ _ ρ _ => tracksAt_pure fun i => hf _ _ _ (hvalue (ρ i)))
    fun _ _ ρ _ _ => tracks_pure fun i => hf _ _ _ (hvalue (ρ i))

theorem tracks_expressionStatement (ih : Tracking H fuel) (p : Place) :
    Tracks F true Filling.SameStmt (expressionStatement (fuel + 1) p)
      fun j => expressionStatement (g j) p := by
  refine tracks_succ (fun _ fuel => expressionStatement fuel p) (fun _ => rfl) fun π m => ?_
  simp only [expressionStatement]
  exact tracks_terminated ih fun _ _ _ h => h.expression

theorem tracks_breakStatement (p : Place) {keyword : Span} {keyword' : J → Span} :
    Tracks F true Filling.SameStmt (breakStatement p keyword)
      fun j => breakStatement p (keyword' j) := by
  simp only [breakStatement]
  refine tracks_noteIf ends_note (fun _ h => h) ?_
  exact tracks_expect (fun _ _ _ _ => tracksAt_pure fun _ => Filling.sameStmt_break)
    fun _ _ _ _ _ => tracks_pure fun _ => Filling.sameStmt_break

theorem tracks_statementBody (ih : Tracking H fuel) (p : Place) :
    Tracks F true Filling.SameStmt (statementBody (fuel + 1) p) fun j => statementBody (g j) p := by
  refine tracks_succ (fun _ fuel => statementBody fuel p) (fun _ => rfl) fun π m => ?_
  simp only [statementBody]
  refine tracks_accept (fun _ _ _ _ => (barred_forStatement fuel p _).stuck.tracksAt)
    (fun _ _ _ _ _ => ih.forStatement p _ _) ?_
  refine tracks_accept (fun _ _ _ _ => (barred_ifStatement fuel p).stuck.tracksAt)
    (fun _ _ _ _ _ => ih.ifStatement p) ?_
  refine tracks_accept (fun _ _ _ _ => (barred_whileStatement fuel p).stuck.tracksAt)
    (fun _ _ _ _ _ => ih.whileStatement p) ?_
  refine tracks_accept (fun _ _ _ _ => (barred_breakStatement p _).stuck.tracksAt)
    (fun _ _ _ _ _ => tracks_breakStatement p) ?_
  refine tracks_accept (fun _ _ _ _ => (barred_returnStatement fuel p _).stuck.tracksAt)
    (fun _ _ _ _ _ => ih.returnStatement p _ _) ?_
  have hblock : ∀ {I : Type} (ρ : I → _), TracksThrough (fun i => F (π (ρ i))) Filling.SameStmt
      (block fuel p >>= fun body => pure (.block body.1))
      fun i => block (m (ρ i)) p >>= fun body => pure (.block body.1) :=
    fun ρ => (ih.block p).andPure fun _ _ _ hbody => hbody.block
  refine tracks_accept (fun _ _ ρ _ => (hblock ρ).at) (fun _ _ ρ _ _ => (hblock ρ).toTracks) ?_
  exact tracks_accept (fun _ _ _ _ => (barred_expression fuel p).bind.stuck.tracksAt)
    (fun _ _ _ _ _ => tracks_terminated ih fun _ _ _ h => h.print) (ih.expressionStatement p)

theorem tracks_forInitializer (ih : Tracking H fuel) (p : Place) :
    Tracks F true (fun G => Option.Rel G.SameStmt) (forInitializer (fuel + 1) p)
      fun j => forInitializer (g j) p := by
  refine tracks_succ (fun _ fuel => forInitializer fuel p) (fun _ => rfl) fun π m => ?_
  simp only [forInitializer]
  refine tracks_accept (fun _ _ _ _ => tracksAt_pure fun _ => .none)
    (fun _ _ _ _ _ => tracks_pure fun _ => .none) ?_
  exact tracks_accept (fun _ _ _ _ => (barred_varDeclaration fuel p).map.stuck.tracksAt)
    (fun _ _ _ _ _ => (ih.varDeclaration p).map fun _ _ _ h => .some h)
    ((ih.expressionStatement p).map fun _ _ _ h => .some h)

theorem tracks_optionalExpression (ih : Tracking H fuel) (p : Place) (closing : Symbol) :
    Tracks F false (fun G => Option.Rel G.SameExpr) (optionalExpression (fuel + 1) p closing)
      fun j => optionalExpression (g j) p closing := by
  refine tracks_succ (fun _ fuel => optionalExpression fuel p closing) (fun _ => rfl) fun π m => ?_
  simp only [optionalExpression]
  refine tracks_test (fun c hoff => .inr fun j d h => h.sees hoff _) fun seen => ?_
  cases seen with
  | true => exact tracks_pure fun _ => .none
  | false => exact (ih.expression p).map fun _ _ _ h => .some h

theorem tracks_forStatement (ih : Tracking H fuel) (p : Place) (keyword : Span)
    (keyword' : J → Span) :
    Tracks F true Filling.SameStmt (forStatement (fuel + 1) p keyword)
      fun j => forStatement (g j) p (keyword' j) := by
  refine tracks_succ (fun j fuel => forStatement fuel p (keyword' j)) (fun _ => rfl) fun π m => ?_
  simp only [forStatement]
  refine tracks_expect (fun _ _ _ _ => (barred_forInitializer fuel p).bind.stuck.tracksAt) ?_
  intro _ _ _ _ _
  refine (ih.forInitializer p).bind
    (fun _ _ _ _ _ => (barred_optionalExpression fuel p _).bind.stuck.tracksAt) ?_
  intro initializer _ ρ _ hinitializer
  refine (ih.optionalExpression p .semicolon).bindLoose
    (fun _ => (barred_expect (by decide)).bind.stuck) fun condition _ σ _ hcondition => ?_
  refine tracks_expect
    (fun _ _ _ _ => (barred_optionalExpression fuel p _).bind.stuck.tracksAt) fun _ _ τ _ _ => ?_
  refine (ih.optionalExpression p .rightParen).bindLoose
    (fun _ => (barred_expect (by decide)).bind.stuck) fun increment _ υ _ hincrement => ?_
  refine tracks_expect
    (fun _ _ _ _ => (barred_statement fuel p.loop).bind.stuck.tracksAt) fun _ _ ω _ _ => ?_
  refine (ih.statement p.loop).bind (fun body _ φ _ hbody => tracksAt_pure fun i => ?_)
    fun body _ φ _ hbody => tracks_pure fun i => ?_
  · exact Filling.sameStmt_for (hinitializer _) (hcondition _) (hincrement _) (hbody i)
  · exact Filling.sameStmt_for (hinitializer _) (hcondition _) (hincrement _) (hbody i)

theorem tracks_ifStatement (ih : Tracking H fuel) (p : Place) :
    Tracks F true Filling.SameStmt (ifStatement (fuel + 1) p) fun j => ifStatement (g j) p := by
  refine tracks_succ (fun _ fuel => ifStatement fuel p) (fun _ => rfl) fun π m => ?_
  simp only [ifStatement]
  refine tracks_expect (fun _ _ _ _ => (barred_expression fuel p).bind.stuck.tracksAt) ?_
  intro _ _ _ _ _
  refine (ih.expression p).bindLoose (fun _ => (barred_expect (by decide)).bind.stuck) ?_
  intro condition _ _ _ hcondition
  refine tracks_expect (fun _ _ _ _ => (barred_statement fuel p).bind.stuck.tracksAt) ?_
  intro _ _ _ _ _
  refine (ih.statement p).bind (fun thenBranch _ _ _ hthen => ?_) fun thenBranch _ _ _ hthen => ?_
  · refine tracksAt_acceptElse (tracksAt_pure fun i => ?_)
    exact Filling.sameStmt_ifElse (hcondition _) (hthen i) .none
  · refine tracks_accept (fun _ _ _ _ => (barred_statement fuel p).bind.stuck.tracksAt)
      (fun _ _ _ _ _ => ?_) (tracks_pure fun i => ?_)
    · refine (ih.statement p).bind (fun _ _ _ _ helse => tracksAt_pure fun i => ?_)
        fun _ _ _ _ helse => tracks_pure fun i => ?_
      · exact Filling.sameStmt_ifElse (hcondition _) (hthen _) (.some (helse i))
      · exact Filling.sameStmt_ifElse (hcondition _) (hthen _) (.some (helse i))
    · exact Filling.sameStmt_ifElse (hcondition _) (hthen i) .none

theorem tracks_whileStatement (ih : Tracking H fuel) (p : Place) :
    Tracks F true Filling.SameStmt (whileStatement (fuel + 1) p) fun j => whileStatement (g j) p := by
  refine tracks_succ (fun _ fuel => whileStatement fuel p) (fun _ => rfl) fun π m => ?_
  simp only [whileStatement]
  refine tracks_expect (fun _ _ _ _ => (barred_expression fuel p).bind.stuck.tracksAt) ?_
  intro _ _ _ _ _
  refine (ih.expression p).bindLoose (fun _ => (barred_expect (by decide)).bind.stuck) ?_
  intro condition _ _ _ hcondition
  refine tracks_expect (fun _ _ _ _ => (barred_statement fuel p.loop).bind.stuck.tracksAt) ?_
  intro _ _ _ _ _
  refine (ih.statement p.loop).bind (fun _ _ _ _ hbody => tracksAt_pure fun i => ?_)
    fun _ _ _ _ hbody => tracks_pure fun i => ?_
  · exact (hbody i).while_ (hcondition _)
  · exact (hbody i).while_ (hcondition _)

theorem tracks_returnStatement (ih : Tracking H fuel) (p : Place) (keyword : Span)
    (keyword' : J → Span) :
    Tracks F true Filling.SameStmt (returnStatement (fuel + 1) p keyword)
      fun j => returnStatement (g j) p (keyword' j) := by
  refine tracks_succ (fun j fuel => returnStatement fuel p (keyword' j)) (fun _ => rfl)
    fun π m => ?_
  simp only [returnStatement]
  refine (ih.optionalExpression p .semicolon).bindLoose
    (fun _ => (barred_expect (by decide)).bind.stuck) fun value _ _ _ hvalue => ?_
  exact tracks_expect (fun _ _ _ _ => tracksAt_pure fun i => Filling.sameStmt_return (hvalue _))
    fun _ _ _ _ _ => tracks_pure fun i => Filling.sameStmt_return (hvalue _)

end Lox.Grammar
