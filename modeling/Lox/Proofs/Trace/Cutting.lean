import Lox.Proofs.Trace.Cuts

/-! # A failing sink cuts every evaluation

Every rule of evaluation hands the error of the sink on at once: what is evaluated
on a sink that fails ends at the line at which it fails. -/

namespace Lox.Trace

open Run Eval

variable {S : Sinks} {fuel : Nat}

/-- Within a bound on steps the error of the sink ends every evaluation. -/
structure CutsWithin (S : Sinks) (fuel : Nat) : Prop where
  expr : ∀ e, Cuts S S.Stopped (Trace.expr fuel e)
  exprs : ∀ es, Cuts S S.Stopped (Trace.exprs fuel es)
  call : ∀ f args paren, Cuts S S.Stopped (Trace.call fuel f args paren)
  construct : ∀ c args, Cuts S S.Stopped (Trace.construct fuel c args)
  callFunction : ∀ f args, Cuts S S.Stopped (Trace.callFunction fuel f args)
  stmt : ∀ here s, Cuts S S.Stopped (Trace.stmt fuel here s)
  stmts : ∀ here ss, Cuts S S.Stopped (Trace.stmts fuel here ss)

/-- The kinds of steps that rules are made of write nothing. -/
theorem mute : Stepwise fun _ r => Mute r := mute_stepwise

theorem cuts_expr_step (ih : CutsWithin S fuel) (e : Expr) :
    Cuts S S.Stopped (Trace.expr (fuel + 1) e) := by
  rw [Trace.expr.eq_def]
  dsimp only
  cases e with
  | literal value _ => exact cuts_pure value.value
  | grouping inner _ => exact ih.expr inner
  | unary op opSpan operand => exact .bind (ih.expr operand) fun _ => cuts_lift (mute.orFail ..)
  | binary left op opSpan right =>
    exact .bind (ih.expr left) fun _ => .bind (ih.expr right) fun _ => cuts_lift (mute.orFail ..)
  | logical left op _ right =>
    refine .bind (ih.expr left) fun a => ?_
    split
    · exact cuts_pure a
    · exact ih.expr right
  | var target => exact cuts_lift (mute.readVariable ..)
  | assign target value =>
    refine .bind (ih.expr value) fun v => ?_
    exact .bind (cuts_lift (mute_writeVariable target v)) fun _ => cuts_pure v
  | call callee paren arguments =>
    refine .bind (ih.expr callee) fun f => .bind (ih.exprs arguments) fun args => ?_
    exact .bind (cuts_lift (mute.checkCall ..)) fun _ => .asCall (ih.call f args paren)
  | get object name =>
    exact .bind (ih.expr object) fun o => cuts_lift (mute.property mute_boundMethod o name)
  | set object name value =>
    refine .bind (ih.expr object) fun o => .bind (cuts_lift (mute.fieldOwner o name)) fun i => ?_
    refine .bind (ih.expr value) fun v => ?_
    exact .bind (cuts_lift (mute_onHeap _)) fun _ => cuts_pure v
  | this id span => exact cuts_lift (mute.readVariable ..)
  | super id keyword method => exact cuts_lift (mute.superMethod mute_boundMethod ..)
  | lambda fn => exact cuts_lift (mute_closure none fn)

theorem cuts_exprs_step (ih : CutsWithin S fuel) (es : List Expr) :
    Cuts S S.Stopped (Trace.exprs (fuel + 1) es) := by
  cases es with
  | nil => exact cuts_pure []
  | cons e es =>
    exact .bind (ih.expr e) fun v => .bind (ih.exprs es) fun vs => cuts_pure (v :: vs)

theorem cuts_call_step (ih : CutsWithin S fuel) (callee : Value) (args : List Value) (paren : Span) :
    Cuts S S.Stopped (Trace.call (fuel + 1) callee args paren) := by
  rw [Trace.call.eq_def]
  cases callee with
  | native n => exact cuts_lift (mute_callNative n args paren)
  | function f =>
    refine .bind (cuts_lift (mute.ask fun _ _ => rfl)) fun _ => ?_
    exact .bind (cuts_lift (mute.orElseFail ..)) fun object => ih.callFunction object args
  | class_ c => exact ih.construct c args
  | _ => exact cuts_lift (mute.fail ..)

theorem cuts_construct_step (ih : CutsWithin S fuel) (c : ClassId) (args : List Value) :
    Cuts S S.Stopped (Trace.construct (fuel + 1) c args) := by
  rw [Trace.construct]
  refine .bind (cuts_lift (mute_onHeap _)) fun i => ?_
  refine .bind (cuts_lift (mute.ask fun _ _ => rfl)) fun method? => ?_
  cases method? with
  | none => exact cuts_pure (Value.instance_ i)
  | some method =>
    refine .bind (cuts_lift (mute_onHeap _)) fun bound => ?_
    exact .bind (ih.callFunction bound args) fun _ => cuts_pure (Value.instance_ i)

theorem cuts_callFunction_step (ih : CutsWithin S fuel) (f : FunctionObject) (args : List Value) :
    Cuts S S.Stopped (Trace.callFunction (fuel + 1) f args) := by
  rw [Trace.callFunction]
  refine .bind (cuts_lift (mute_onHeap _)) fun frame => .bind (cuts_note rfl) fun called => ?_
  refine .bind (.within (ih.stmts ⟨some called, []⟩ f.fn.body) frame) fun signal => ?_
  exact .bind (cuts_note rfl) fun _ => cuts_lift (mute.callResult f signal.flow)

theorem cuts_stmt_step (ih : CutsWithin S fuel) (here : Spot) (s : Stmt) :
    Cuts S S.Stopped (Trace.stmt (fuel + 1) here s) := by
  have hnormal : Cuts S S.Stopped (pure Signal.normal) := cuts_pure Signal.normal
  rw [Trace.stmt.eq_def]
  dsimp only
  cases s with
  | expression value => exact .bind (ih.expr value) fun _ => hnormal
  | print value => exact .bind (ih.expr value) fun v => .bind (cuts_writeValue v) fun _ => hnormal
  | var name initializer =>
    cases initializer with
    | none => exact .bind (cuts_lift (mute.define ..)) fun _ => hnormal
    | some initializer =>
      exact .bind (ih.expr initializer) fun v => .bind (cuts_lift (mute.define ..)) fun _ => hnormal
  | block body =>
    refine .bind (cuts_lift (mute.ask fun _ _ => rfl)) fun outer => ?_
    exact .bind (cuts_lift (mute_onHeap _)) fun frame => .within (ih.stmts here body) frame
  | ifElse condition thenBranch elseBranch =>
    refine .bind (ih.expr condition) fun v => ?_
    split
    · exact ih.stmt here thenBranch
    · cases elseBranch with
      | some branch => exact ih.stmt here branch
      | none => exact hnormal
  | while_ condition body =>
    refine .bind (ih.expr condition) fun v => ?_
    split
    · refine .bind (cuts_note rfl) fun round => .bind (ih.stmt _ body) fun signal => ?_
      cases signal with
      | normal => exact ih.stmt here (.while_ condition body)
      | break_ raised => exact .bind (cuts_note rfl) fun _ => hnormal
      | return_ raised value => exact cuts_pure (Signal.return_ raised value)
    · exact hnormal
  | break_ keyword => exact .bind (cuts_note rfl) fun raised => cuts_pure (Signal.break_ raised)
  | return_ keyword value =>
    cases value with
    | none => exact .bind (cuts_note rfl) fun raised => cuts_pure (Signal.return_ raised .nil)
    | some value =>
      refine .bind (ih.expr value) fun v => ?_
      exact .bind (cuts_note rfl) fun raised => cuts_pure (Signal.return_ raised v)
  | function name fn =>
    refine .bind (cuts_lift (mute_closure _ fn)) fun v => ?_
    exact .bind (cuts_lift (mute.define ..)) fun _ => hnormal
  | class_ name superclass methods =>
    exact .bind (cuts_lift (mute_declareClass name superclass methods)) fun _ => hnormal

theorem cuts_stmts_step (ih : CutsWithin S fuel) (here : Spot) (ss : List Stmt) :
    Cuts S S.Stopped (Trace.stmts (fuel + 1) here ss) := by
  cases ss with
  | nil => exact cuts_pure Signal.normal
  | cons s rest =>
    refine .bind (ih.stmt here s) fun signal => ?_
    cases signal with
    | normal => exact ih.stmts here rest
    | break_ raised => exact cuts_pure (Signal.break_ raised)
    | return_ raised value => exact cuts_pure (Signal.return_ raised value)

theorem cutsWithin (S : Sinks) (fuel : Nat) : CutsWithin S fuel := by
  induction fuel with
  | zero => constructor <;> intros <;> exact cuts_lift mute_exhaust
  | succ fuel ih =>
    exact ⟨cuts_expr_step ih, cuts_exprs_step ih, cuts_call_step ih, cuts_construct_step ih,
      cuts_callFunction_step ih, cuts_stmt_step ih, cuts_stmts_step ih⟩

/-! ## Programs -/

variable {α β : Type}

/-- The error of the sink has become a result. -/
def Sinks.Caught (S : Sinks) (r : EStateM.Result Stop Tape (Except Diagnostic α)) : Prop :=
  ∃ v, r = .ok (.error S.error) v

theorem Cuts.attempt {w : Traced α} (h : Cuts S S.Stopped w) : Cuts S S.Caught (attempt w) := by
  have htape : ∀ t, tapeOf (Trace.attempt w t) = tapeOf (w t) := by
    intro t
    unfold Trace.attempt
    cases w t with
    | ok a u => rfl
    | error stop u => cases stop <;> rfl
  constructor
  · intro t ht
    rw [htape]
    exact h.fills t ht
  · intro t ht hle
    rw [htape] at hle
    unfold Trace.attempt
    rw [h.follows t ht hle]
    cases w t with
    | ok a u => rfl
    | error stop u => cases stop <;> rfl
  · intro t ht hle hlt
    rw [htape] at hlt
    obtain ⟨⟨v, hv⟩, hcut⟩ := h.halts t ht hle hlt
    rw [htape, htape]
    refine ⟨⟨v, ?_⟩, hcut⟩
    unfold Trace.attempt
    rw [hv]

/-- What handles an error may end with it. -/
theorem Cuts.handle {w : Traced α} {halted : EStateM.Result Stop Tape β → Prop}
    {k : Except Diagnostic α → Traced β} (h : Cuts S S.Stopped w) (hk : ∀ r, Cuts S halted (k r))
    {b : β} (hend : k (.error S.error) = pure b) (hb : ∀ v, halted (.ok b v)) :
    Cuts S halted (Trace.attempt w >>= k) := by
  refine h.attempt.seq hk ?_
  rintro t ⟨v, hv⟩
  rw [bind_of_ok hv, hend, hv]
  exact ⟨hb v, rfl⟩

/-- A program has ended with the error of the sink. -/
def Sinks.Ended (S : Sinks) (r : EStateM.Result Stop Tape Eval.Completion) : Prop :=
  ∃ flows v, r = .ok ⟨flows, some S.error⟩ v

theorem cuts_program (S : Sinks) (fuel : Nat) (ss : List Stmt) (flows : Array Flow) :
    Cuts S S.Ended (program fuel flows ss) := by
  induction ss generalizing flows with
  | nil => exact cuts_pure _
  | cons s rest ih =>
    refine ((cutsWithin S fuel).stmt .top s).handle (fun r => ?_) rfl fun v => ⟨flows, v, rfl⟩
    cases r with
    | ok signal =>
      have hnote : Cuts S (fun _ => False) (note (.done signal)) := cuts_note rfl
      exact hnote.seq (fun _ => ih (flows.push signal.flow)) fun _ hfalse => hfalse.elim
    | error diagnostic => exact cuts_pure _

theorem cuts_echo (S : Sinks) (fuel : Nat) (e : Expr) : Cuts S S.Stopped (echo fuel e) :=
  .bind ((cutsWithin S fuel).expr e) fun v => cuts_writeValue v

/-- An accepted program has ended with the error of the sink. -/
def Sinks.Told (S : Sinks) (r : EStateM.Result Stop Tape (Option Diagnostic)) : Prop :=
  ∃ v, r = .ok (some S.error) v

theorem cuts_execute (S : Sinks) (fuel : Nat) (ss : List Stmt) :
    Cuts S S.Told (execute fuel ss) := by
  rw [execute.eq_def]
  split
  · next e =>
    refine (cuts_echo S fuel e).handle (fun r => ?_) rfl fun v => ⟨v, rfl⟩
    cases r <;> exact cuts_pure _
  · refine (cuts_program S fuel _ #[]).seq (fun completion => cuts_pure completion.error) ?_
    rintro t ⟨flows, v, hv⟩
    rw [bind_of_ok hv, hv]
    exact ⟨⟨v, rfl⟩, rfl⟩

end Lox.Trace
