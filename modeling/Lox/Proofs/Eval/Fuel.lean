import Lox.Proofs.Eval.Steady
import Lox.Session

/-! # A greater bound on steps

A computation that does not reach its bound on steps has the same ending within
every greater bound. -/

namespace Lox

namespace Run

variable {α β : Type} {r r' r'' : Run α}

/-- The second computation ends as the first one does, unless that one reaches its bound. -/
structure Prolongs (r r' : Run α) : Prop where
  ends : ∀ m, Ends r m (fun a t => r' m = .ok a t) fun stop t =>
    stop ≠ .outOfFuel → r' m = .error stop t

theorem Prolongs.refl (r : Run α) : Prolongs r r := by
  constructor
  intro m
  unfold Ends
  cases r m with
  | ok a t => rfl
  | error stop t => exact fun _ => rfl

theorem prolongs_exhaust (r : Run α) : Prolongs exhaust r := ⟨fun _ h => absurd rfl h⟩

theorem Prolongs.trans (h : Prolongs r r') (h' : Prolongs r' r'') : Prolongs r r'' := by
  constructor
  intro m
  refine (h.ends m).imp (fun a t hr' => (h'.ends m).of_ok hr') fun stop t hr' hstop => ?_
  exact (h'.ends m).of_error (hr' hstop) hstop

theorem Prolongs.bind {k k' : α → Run β} (h : Prolongs r r') (hk : ∀ a, Prolongs (k a) (k' a)) :
    Prolongs (r >>= k) (r' >>= k') := by
  constructor
  intro m
  rw [ends_bind]
  refine (h.ends m).imp (fun a t hr' => ?_) fun stop t hr' hstop => bind_of_error (hr' hstop)
  rw [bind_of_ok hr']
  exact (hk a).ends t

theorem Prolongs.within (h : Prolongs r r') (frame : FrameId) :
    Prolongs (within frame r) (within frame r') := by
  constructor
  intro m
  rw [ends_within]
  exact (h.ends _).imp (fun a t hr' => within_of_ok hr')
    fun stop t hr' hstop => within_of_error (hr' hstop)

theorem Prolongs.asCall (h : Prolongs r r') : Prolongs (asCall r) (asCall r') := by
  constructor
  intro m
  rw [ends_asCall]
  exact (h.ends _).imp (fun a t hr' => asCall_of_ok hr')
    fun stop t hr' hstop => asCall_of_error (hr' hstop)

theorem attempt_of_ok {a : α} {m t : Machine} (hr : r m = .ok a t) :
    attempt r m = .ok (.ok a) t := by
  simp only [attempt, hr]

theorem attempt_of_failed {d : Diagnostic} {m t : Machine} (hr : r m = .error (.failed d) t) :
    attempt r m = .ok (.error d) t := by
  simp only [attempt, hr]

theorem Prolongs.attempt (h : Prolongs r r') : Prolongs (attempt r) (attempt r') := by
  constructor
  intro m
  rw [ends_attempt]
  refine (h.ends m).imp (fun a t hr' => attempt_of_ok hr') fun stop t hr' => ?_
  cases stop with
  | failed d => exact attempt_of_failed (hr' fun heq => by cases heq)
  | outOfFuel => exact fun hstop => absurd rfl hstop

end Run

namespace Eval
open Run

/-- One more step changes nothing but whether the bound is reached. -/
structure Prolonged (fuel : Nat) : Prop where
  expr : ∀ e, Prolongs (Eval.expr fuel e) (Eval.expr (fuel + 1) e)
  exprs : ∀ es, Prolongs (Eval.exprs fuel es) (Eval.exprs (fuel + 1) es)
  call : ∀ callee args paren,
    Prolongs (Eval.call fuel callee args paren) (Eval.call (fuel + 1) callee args paren)
  construct : ∀ c args, Prolongs (Eval.construct fuel c args) (Eval.construct (fuel + 1) c args)
  callFunction : ∀ f args,
    Prolongs (Eval.callFunction fuel f args) (Eval.callFunction (fuel + 1) f args)
  stmt : ∀ s, Prolongs (Eval.stmt fuel s) (Eval.stmt (fuel + 1) s)
  stmts : ∀ ss, Prolongs (Eval.stmts fuel ss) (Eval.stmts (fuel + 1) ss)

variable {fuel : Nat}

theorem prolongs_expr (ih : Prolonged fuel) (e : Expr) :
    Prolongs (Eval.expr (fuel + 1) e) (Eval.expr (fuel + 2) e) := by
  cases e with
  | grouping inner _ => exact ih.expr inner
  | unary op opSpan operand => exact (ih.expr operand).bind fun _ => .refl _
  | binary left op opSpan right =>
    exact (ih.expr left).bind fun _ => (ih.expr right).bind fun _ => .refl _
  | logical left op opSpan right =>
    refine (ih.expr left).bind fun a => ?_
    by_cases hsettled : op.settledBy a = true
    · rw [if_pos hsettled, if_pos hsettled]
      exact .refl _
    · rw [if_neg hsettled, if_neg hsettled]
      exact ih.expr right
  | assign target value => exact (ih.expr value).bind fun _ => .refl _
  | call callee paren arguments =>
    refine (ih.expr callee).bind fun f => (ih.exprs arguments).bind fun args => ?_
    exact (Prolongs.refl _).bind fun _ => (ih.call f args paren).asCall
  | get object name => exact (ih.expr object).bind fun _ => .refl _
  | set object name value =>
    refine (ih.expr object).bind fun o => (Prolongs.refl _).bind fun i => ?_
    exact (ih.expr value).bind fun _ => .refl _
  | literal | var | this | super | lambda => exact .refl _

theorem prolongs_exprs (ih : Prolonged fuel) (es : List Expr) :
    Prolongs (Eval.exprs (fuel + 1) es) (Eval.exprs (fuel + 2) es) := by
  cases es with
  | nil => exact .refl _
  | cons e es => exact (ih.expr e).bind fun _ => (ih.exprs es).bind fun _ => .refl _

theorem prolongs_call (ih : Prolonged fuel) (callee : Value) (args : List Value) (paren : Span) :
    Prolongs (Eval.call (fuel + 1) callee args paren) (Eval.call (fuel + 2) callee args paren) := by
  cases callee with
  | function f =>
    exact (Prolongs.refl _).bind fun _ => (Prolongs.refl _).bind fun o => ih.callFunction o args
  | class_ c => exact ih.construct c args
  | _ => exact .refl _

theorem prolongs_construct (ih : Prolonged fuel) (c : ClassId) (args : List Value) :
    Prolongs (Eval.construct (fuel + 1) c args) (Eval.construct (fuel + 2) c args) := by
  refine (Prolongs.refl _).bind fun i => (Prolongs.refl _).bind fun found => ?_
  cases found with
  | none => exact .refl _
  | some method =>
    exact (Prolongs.refl _).bind fun bound => (ih.callFunction bound args).bind fun _ => .refl _

theorem prolongs_callFunction (ih : Prolonged fuel) (f : FunctionObject) (args : List Value) :
    Prolongs (Eval.callFunction (fuel + 1) f args) (Eval.callFunction (fuel + 2) f args) :=
  (Prolongs.refl _).bind fun frame => ((ih.stmts f.fn.body).within frame).bind fun _ => .refl _

theorem prolongs_stmt (ih : Prolonged fuel) (s : Stmt) :
    Prolongs (Eval.stmt (fuel + 1) s) (Eval.stmt (fuel + 2) s) := by
  cases s with
  | expression value | print value => exact (ih.expr value).bind fun _ => .refl _
  | var name initializer =>
    cases initializer with
    | none => exact .refl _
    | some value => exact (ih.expr value).bind fun _ => .refl _
  | block body =>
    refine (Prolongs.refl _).bind fun outer => (Prolongs.refl _).bind fun frame => ?_
    exact (ih.stmts body).within frame
  | ifElse condition thenBranch elseBranch =>
    refine (ih.expr condition).bind fun v => ?_
    by_cases htruthy : v.truthy = true
    · rw [if_pos htruthy, if_pos htruthy]
      exact ih.stmt thenBranch
    · rw [if_neg htruthy, if_neg htruthy]
      cases elseBranch with
      | none => exact .refl _
      | some branch => exact ih.stmt branch
  | while_ condition body =>
    refine (ih.expr condition).bind fun v => ?_
    by_cases htruthy : v.truthy = true
    · rw [if_pos htruthy, if_pos htruthy]
      refine (ih.stmt body).bind fun flow => ?_
      cases flow with
      | normal => exact ih.stmt (.while_ condition body)
      | _ => exact .refl _
    · rw [if_neg htruthy, if_neg htruthy]
      exact .refl _
  | return_ keyword value =>
    cases value with
    | none => exact .refl _
    | some value => exact (ih.expr value).bind fun _ => .refl _
  | break_ | function | class_ => exact .refl _

theorem prolongs_stmts (ih : Prolonged fuel) (ss : List Stmt) :
    Prolongs (Eval.stmts (fuel + 1) ss) (Eval.stmts (fuel + 2) ss) := by
  cases ss with
  | nil => exact .refl _
  | cons s ss =>
    refine (ih.stmt s).bind fun flow => ?_
    cases flow with
    | normal => exact ih.stmts ss
    | _ => exact .refl _

theorem prolonged (fuel : Nat) : Prolonged fuel := by
  induction fuel with
  | zero => constructor <;> intros <;> exact prolongs_exhaust _
  | succ fuel ih =>
    exact ⟨prolongs_expr ih, prolongs_exprs ih, prolongs_call ih, prolongs_construct ih,
      prolongs_callFunction ih, prolongs_stmt ih, prolongs_stmts ih⟩

/-- What holds of one more step holds of any number of them. -/
theorem prolongs_of_le {α : Type} {r : Nat → Run α} (h : ∀ fuel, Prolongs (r fuel) (r (fuel + 1)))
    {fuel fuel' : Nat} (hle : fuel ≤ fuel') : Prolongs (r fuel) (r fuel') := by
  induction hle with
  | refl => exact .refl _
  | step _ ih => exact ih.trans (h _)

theorem prolongs_program (ss : List Stmt) (flows : Array Flow) :
    Prolongs (program fuel flows ss) (program (fuel + 1) flows ss) := by
  induction ss generalizing flows with
  | nil => exact .refl _
  | cons s ss ih =>
    refine ((prolonged fuel).stmt s).attempt.bind fun outcome => ?_
    cases outcome with
    | ok flow => exact ih (flows.push flow)
    | error d => exact .refl _

end Eval

/-- More steps change nothing about a program that ends. -/
theorem Session.prolongs_execute (fuel : Nat) (ss : List Stmt) :
    Run.Prolongs (Session.execute fuel ss) (Session.execute (fuel + 1) ss) := by
  have hprogram : Run.Prolongs (Eval.program fuel #[] ss >>= fun c => pure c.error)
      (Eval.program (fuel + 1) #[] ss >>= fun c => pure c.error) :=
    (Eval.prolongs_program ss #[]).bind fun _ => .refl _
  rcases ss with _ | ⟨s, _ | ⟨s', rest⟩⟩
  · exact hprogram
  · cases s with
    | expression e =>
      refine Run.Prolongs.bind (Run.Prolongs.attempt ?_) fun _ => .refl _
      exact ((Eval.prolonged fuel).expr e).bind fun _ => .refl _
    | _ => exact hprogram
  · cases s <;> exact hprogram

end Lox
