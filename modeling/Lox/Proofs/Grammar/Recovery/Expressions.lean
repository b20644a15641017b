import Lox.Proofs.Grammar.Recovery.Steps

/-! # Expressions track the guide

One lemma for each rule from the whole expression down to the smallest ones, and
for the parameters and arguments of functions. -/

namespace Lox.Grammar

open Rule

variable {H : Hole} {J : Type} {F : J → Filling H} {fuel : Nat} {g : J → Nat}

theorem tracks_expression (ih : Tracking H fuel) (p : Place) :
    Tracks F false Filling.SameExpr (expression (fuel + 1) p) fun j => expression (g j) p := by
  refine tracks_succ (fun _ fuel => expression fuel p) (fun _ => rfl) fun π m => ?_
  simp only [expression]
  exact tracks_nested (ih.assignment p.deeper)

/-- The right side is read before the left side is looked at. -/
theorem tracks_assignTo {target value : Expr} {target' value' : J → Expr} {equals : Span}
    {equals' : J → Span} (htarget : ∀ j, (F j).SameExpr target (target' j))
    (hvalue : ∀ j, (F j).SameExpr value (value' j)) :
    Tracks F false Filling.SameExpr (assignTo target equals value)
      fun j => assignTo (target' j) (equals' j) (value' j) := by
  cases target with
  | var target =>
    obtain ⟨name, rfl, hname⟩ := Filling.sameExpr_of_var htarget
    exact tracks_fresh fun id _ π id' => tracks_pure fun i => (hvalue (π i)).assign (hname (π i))
  | get object name =>
    obtain ⟨object', name', rfl, hsame⟩ := Filling.sameExpr_of_get htarget
    exact tracks_pure fun j => (hsame j).1.set (hsame j).2 (hvalue j)
  | _ => exact tracks_noted ends_note (moves_pure _)

theorem tracks_assignment (ih : Tracking H fuel) (p : Place) :
    Tracks F false Filling.SameExpr (assignment (fuel + 1) p) fun j => assignment (g j) p := by
  refine tracks_succ (fun _ fuel => assignment fuel p) (fun _ => rfl) fun π m => ?_
  simp only [assignment]
  refine (ih.operation p .or).bindLoose (fun target => ?_) fun target I π target' htarget => ?_
  · exact (idle_accept (by decide) (idle_pure target)).stuck
  refine tracks_accept (fun _ _ _ _ => ?_) (fun equals _ π equals' _ => ?_) (tracks_pure htarget)
  · exact (barred_assignment fuel p).bind.stuck.tracksAt
  refine (ih.assignment p).bindLoose (fun value => (idle_assignTo target _ value).stuck) ?_
  exact fun value _ π value' hvalue => tracks_assignTo (fun i => htarget _) hvalue

theorem tracks_operation (ih : Tracking H fuel) (p : Place) (level : Level) :
    Tracks F false Filling.SameExpr (operation (fuel + 1) p level) fun j => operation (g j) p level := by
  refine tracks_succ (fun _ fuel => operation fuel p level) (fun _ => rfl) fun π m => ?_
  simp only [operation]
  refine (ih.operand p level).bindLoose (fun left => (idle_chain fuel p level left).stuck) ?_
  exact fun left _ π left' hleft => ih.chain p level hleft

theorem tracks_chain (ih : Tracking H fuel) (p : Place) (level : Level) {left : Expr}
    {left' : J → Expr} (hleft : ∀ j, (F j).SameExpr left (left' j)) :
    Tracks F false Filling.SameExpr (chain (fuel + 1) p level left)
      fun j => chain (g j) p level (left' j) := by
  refine tracks_succ (fun j fuel => chain fuel p level (left' j)) (fun _ => rfl) fun π m => ?_
  simp only [chain]
  refine tracks_takeIf (fun op t _ _ _ _ _ => ?_) (fun op t _ π t' _ _ => ?_)
    (tracks_pure fun i => hleft (π i))
  · exact (barred_operand fuel p level).bind.stuck.tracksAt
  refine (ih.operand p level).bindLoose (fun right => (idle_chain fuel p level _).stuck) ?_
  exact fun right _ π right' hright => ih.chain p level fun i => (hleft _).apply (hright i)

theorem tracks_operand (ih : Tracking H fuel) (p : Place) (level : Level) :
    Tracks F false Filling.SameExpr (operand (fuel + 1) p level) fun j => operand (g j) p level := by
  refine tracks_succ (fun _ fuel => operand fuel p level) (fun _ => rfl) fun π m => ?_
  simp only [operand]
  cases level.tighter? with
  | none => exact ih.unary p
  | some tighter => exact ih.operation p tighter

theorem tracks_unary (ih : Tracking H fuel) (p : Place) :
    Tracks F false Filling.SameExpr (unary (fuel + 1) p) fun j => unary (g j) p := by
  refine tracks_succ (fun _ fuel => unary fuel p) (fun _ => rfl) fun π m => ?_
  simp only [unary]
  refine tracks_takeIf (fun op t _ _ _ _ _ => ?_) (fun op t _ π t' _ _ => ?_) ?_
  · exact (barred_nested (barred_unary fuel p.deeper)).bind.stuck.tracksAt
  · refine (tracks_nested (ih.unary p.deeper)).bindLoose (fun operand => ?_)
      fun operand _ π operand' h => tracks_pure fun i => (h i).unary
    exact (idle_pure _).stuck
  · refine (ih.primary p).bindLoose (fun head => (idle_calls fuel p head).stuck) ?_
    exact fun head _ π head' hhead => ih.calls p hhead

theorem tracks_calls (ih : Tracking H fuel) (p : Place) {callee : Expr} {callee' : J → Expr}
    (hcallee : ∀ j, (F j).SameExpr callee (callee' j)) :
    Tracks F false Filling.SameExpr (calls (fuel + 1) p callee) fun j => calls (g j) p (callee' j) := by
  refine tracks_succ (fun j fuel => calls fuel p (callee' j)) (fun _ => rfl) fun π m => ?_
  simp only [calls]
  refine tracks_accept (fun _ _ _ _ => ?_) (fun _ _ π _ _ => ?_) ?_
  · exact (barred_argumentList fuel p).bind.stuck.tracksAt
  · refine (ih.argumentList p).bindLoose (fun _ => (barred_expect (by decide)).bind.stuck) ?_
    intro args _ π args' hargs
    refine tracks_expect (fun _ _ _ _ => (idle_calls fuel p _).stuck.tracksAt) ?_
    exact fun _ _ π _ _ => ih.calls p fun i => (hcallee _).call (hargs _).symm
  · refine tracks_accept (fun _ _ _ _ => barred_name.bind.stuck.tracksAt) (fun _ _ π _ _ => ?_)
      (tracks_pure fun i => hcallee (π i))
    refine tracks_name (fun _ _ _ _ => (idle_calls fuel p _).stuck.tracksAt) ?_
    exact fun _ _ π _ hname => ih.calls p fun i => (hcallee _).get (hname i).1

theorem tracks_argumentList (ih : Tracking H fuel) (p : Place) :
    Tracks F false (fun G a b => b.map Outline.expr = a.map G.cut.expr) (argumentList (fuel + 1) p)
      fun j => argumentList (g j) p := by
  refine tracks_succ (fun _ fuel => argumentList fuel p) (fun _ => rfl) fun π m => ?_
  simp only [argumentList]
  refine tracks_test (fun c hoff => .inr fun j d h => h.sees hoff _) fun seen => ?_
  cases seen with
  | true => exact tracks_pure fun _ => rfl
  | false =>
    refine (ih.arguments p fun _ => Each.empty).bindLoose (fun _ => (idle_pure _).stuck) ?_
    exact fun args _ π args' hargs => tracks_pure fun i => (hargs i).map fun _ _ h => h

theorem tracks_arguments (ih : Tracking H fuel) (p : Place) {done : Array Expr}
    {done' : J → Array Expr} (hdone : ∀ j, Each (F j).SameExpr done (done' j)) :
    Tracks F false (fun G => Each G.SameExpr) (arguments (fuel + 1) p done)
      fun j => arguments (g j) p (done' j) := by
  refine tracks_succ (fun j fuel => arguments fuel p (done' j)) (fun _ => rfl) fun π m => ?_
  simp only [arguments]
  refine tracks_noteIf ends_noteHere (fun i hi => by rwa [(hdone (π i)).size] at hi) ?_
  refine (ih.expression p).bindLoose (fun arg => ?_) fun arg _ ρ arg' harg => ?_
  · exact Idle.stuck (idle_accept (by decide) (idle_pure _))
  have hpush := fun i => (hdone (π (ρ i))).push (harg i)
  refine tracks_accept (fun _ _ _ _ => ?_) (fun _ _ _ _ _ => ih.arguments p fun i => hpush _)
    (tracks_pure hpush)
  exact (barred_arguments fuel p _).stuck.tracksAt

theorem tracks_primary (ih : Tracking H fuel) (p : Place) :
    Tracks F false Filling.SameExpr (primary (fuel + 1) p) fun j => primary (g j) p := by
  refine tracks_succ (fun _ fuel => primary fuel p) (fun _ => rfl) fun π m => ?_
  simp only [primary]
  -- constants
  refine tracks_takeIf (fun _ _ _ _ _ _ _ => (idle_pure _).stuck.tracksAt)
    (fun _ _ _ _ _ _ _ => tracks_pure fun _ => Filling.sameExpr_literal) ?_
  -- variables
  refine tracks_accept (fun _ _ _ _ => (idle_fresh fun _ => idle_pure _).stuck.tracksAt)
    (fun t _ _ t' hlike => tracks_fresh fun _ _ π _ => tracks_pure fun i => ?_) ?_
  · exact Filling.sameExpr_var (sameName_of_like (hlike (π i)))
  -- parentheses
  refine tracks_accept (fun _ _ _ _ => (barred_expression fuel p).bind.stuck.tracksAt)
    (fun opened _ _ _ _ => ?_) ?_
  · refine (ih.expression p).bindLoose (fun _ => (barred_expect (by decide)).bind.stuck) ?_
    intro inner _ _ inner' hinner
    refine tracks_expect (fun _ _ _ _ => (idle_pure _).stuck.tracksAt) ?_
    exact fun _ _ π _ _ => tracks_pure fun i => (hinner (π i)).grouping
  -- this
  refine tracks_accept (fun _ _ _ _ => (idle_fresh fun _ => idle_pure _).stuck.tracksAt)
    (fun t _ _ t' _ => tracks_fresh fun _ _ _ _ => tracks_pure fun _ => Filling.sameExpr_this) ?_
  -- super
  refine tracks_accept (fun _ _ _ _ => (barred_expect (by decide)).bind.stuck.tracksAt)
    (fun t _ _ t' _ => ?_) ?_
  · refine tracks_expect (fun _ _ _ _ => barred_name.bind.stuck.tracksAt) fun _ _ _ _ _ => ?_
    refine tracks_name (fun _ _ _ _ => (idle_fresh fun _ => idle_pure _).stuck.tracksAt) ?_
    intro method _ _ method' hmethod
    exact tracks_fresh fun _ _ π _ => tracks_pure fun i => Filling.sameExpr_super (hmethod (π i)).1
  -- functions
  refine tracks_accept (fun _ _ _ _ => (barred_expect (by decide)).bind.stuck.tracksAt)
    (fun t _ _ t' _ => ?_) tracks_refuse
  refine tracks_expect (fun _ _ _ _ => ?_) fun _ _ _ _ _ => ?_
  · exact (barred_functionTail fuel p _ _).bind.stuck.tracksAt
  refine (ih.functionTail p _ _ _).bind (fun _ _ _ _ _ => (idle_pure _).stuck.tracksAt) ?_
  exact fun fn _ _ fn' hfn => tracks_pure fun i => (hfn i).expr

theorem tracks_parameters (ih : Tracking H fuel) {done : Array Ident} {done' : J → Array Ident}
    (hdone : ∀ j, Each SameName done (done' j)) :
    Tracks F false (fun _ => Each SameName) (parameters (fuel + 1) done)
      fun j => parameters (g j) (done' j) := by
  refine tracks_succ (fun j fuel => parameters fuel (done' j)) (fun _ => rfl) fun π m => ?_
  simp only [parameters]
  refine tracks_noteIf ends_noteHere (fun i hi => by rwa [(hdone (π i)).size] at hi) ?_
  refine tracks_name (fun param _ _ _ => ?_) fun param _ ρ param' hparam => ?_
  · exact Stuck.tracksAt (Idle.stuck (idle_accept (by decide) (idle_pure _)))
  have hpush := fun i => (hdone (π (ρ i))).push (hparam i).1
  refine tracks_accept (fun _ _ _ _ => ?_) (fun _ _ _ _ _ => ih.parameters fun i => hpush _)
    (tracks_pure hpush)
  exact (barred_parameters fuel _).stuck.tracksAt

/-- The body of a function, when its parameters have been read. -/
theorem tracks_closure (ih : Tracking H fuel) {q : Place} {start : Span} {start' : J → Span}
    {role : String} {ps : Array Ident} {ps' : J → Array Ident}
    (hparams : ∀ j, Each SameName ps (ps' j)) :
    Tracks F true Filling.SameLambda
      (do
        let _ ← expect (.symbol .rightParen) "')' after parameters"
        let _ ← expect (.symbol .leftBrace) role
        let (body, close) ← block fuel q
        pure ⟨ps.toList, body, start.cover close⟩)
      (fun j => do
        let _ ← expect (.symbol .rightParen) "')' after parameters"
        let _ ← expect (.symbol .leftBrace) role
        let (body, close) ← block (g j) q
        pure ⟨(ps' j).toList, body, (start' j).cover close⟩) := by
  refine tracks_expect (fun _ _ _ _ => (barred_expect (by decide)).bind.stuck.tracksAt) ?_
  intro _ _ _ _ _
  -- behind the opening brace the hole may stand
  have hblock : ∀ {I : Type} (π : I → J), TracksThrough (fun i => F (π i)) Filling.SameLambda
      (block fuel q >>= fun body => pure ⟨ps.toList, body.1, start.cover body.2⟩)
      fun i => block (g (π i)) q >>= fun body =>
        pure ⟨(ps' (π i)).toList, body.1, (start' (π i)).cover body.2⟩ :=
    fun π => (ih.block q).andPure fun _ _ i hbody => hbody.lambda (hparams (π i))
  exact tracks_expect (fun _ _ _ _ => (hblock _).at) fun _ _ _ _ _ => (hblock _).toTracks

theorem tracks_functionTail (ih : Tracking H fuel) (p : Place) (start : Span) (start' : J → Span)
    (role : Role) :
    Tracks F true Filling.SameLambda (functionTail (fuel + 1) p start role)
      fun j => functionTail (g j) p (start' j) role := by
  refine tracks_succ (fun j fuel => functionTail fuel p (start' j) role) (fun _ => rfl)
    fun π m => ?_
  simp only [functionTail]
  refine tracks_test (fun c hoff => .inr fun j d h => h.sees hoff _) fun seen => ?_
  cases seen with
  | true => exact tracks_closure ih fun _ => Each.empty
  | false =>
    refine (ih.parameters fun _ => Each.empty).bindLoose (fun _ => ?_) ?_
    · exact (barred_expect (by decide)).bind.stuck
    · exact fun params _ ρ params' hparams => tracks_closure ih hparams

end Lox.Grammar
