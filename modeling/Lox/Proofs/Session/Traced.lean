import Lox.Proofs.Session.Inputs
import Lox.Proofs.Trace.Eval

/-! # Tracing changes nothing

Without its entries a traced evaluation is the evaluation: on every machine it
has the same result but for where signals were raised, stops for the same reason
and leaves the same machine, within every bound on steps. -/

namespace Lox.Trace

variable {α β α' β' : Type}

/-- Leaves the entries away, and changes the result. -/
def forget (f : α → α') : EStateM.Result Stop Tape α → EStateM.Result Stop Machine α'
  | .ok a t => .ok (f a) t.machine
  | .error stop t => .error stop t.machine

/-- A traced computation does to the machine what a computation does, and has the result that `f`
makes of its own. -/
structure Erases (f : α → α') (w : Traced α) (r : Run α') : Prop where
  eq : ∀ t, forget f (w t) = r t.machine

variable {f : α → α'} {g : β → β'} {w : Traced α} {r : Run α'}

theorem erases_lift (r : Run α) : Erases id (lift r) r := by
  constructor
  intro t
  unfold lift forget
  cases r t.machine <;> rfl

theorem erases_pure (a : α) : Erases f (pure a) (pure (f a)) := ⟨fun _ => rfl⟩

/-- A computation that stops has no result. -/
theorem erases_stop {stop : Stop} : Erases f (lift (throw stop)) (throw stop) := ⟨fun _ => rfl⟩

theorem Erases.bind {k : α → Traced β} {k' : α' → Run β'} (h : Erases f w r)
    (hk : ∀ a, Erases g (k a) (k' (f a))) : Erases g (w >>= k) (r >>= k') := by
  constructor
  intro t
  have ht := h.eq t
  cases hw : w t with
  | ok a u =>
    rw [hw] at ht
    rw [bind_of_ok hw, bind_of_ok ht.symm]
    exact (hk a).eq u
  | error stop u =>
    rw [hw] at ht
    rw [bind_of_error hw, bind_of_error ht.symm]
    rfl

/-- Entries can be left away before a computation. -/
theorem erases_note {entry : Entry} {k : Nat → Traced β} {r : Run β'}
    (hk : ∀ i, Erases g (k i) r) : Erases g (note entry >>= k) r :=
  ⟨fun t => (hk t.entries.size).eq { t with entries := t.entries.push entry }⟩

theorem Erases.within (h : Erases f w r) (frame : FrameId) :
    Erases f (within frame w) (Run.within frame r) := by
  constructor
  intro t
  have ht := h.eq { t with machine := { t.machine with current := frame } }
  simp only [Trace.within, Run.within]
  rw [← ht]
  cases w { t with machine := { t.machine with current := frame } } <;> rfl

theorem Erases.asCall (h : Erases f w r) : Erases f (asCall w) (Run.asCall r) := by
  constructor
  intro t
  have ht := h.eq { t with machine := { t.machine with callDepth := t.machine.callDepth + 1 } }
  simp only [Trace.asCall, Run.asCall]
  rw [← ht]
  cases w { t with machine := { t.machine with callDepth := t.machine.callDepth + 1 } } <;> rfl

theorem Erases.attempt (h : Erases f w r) :
    Erases (Except.map f) (attempt w) (Run.attempt r) := by
  constructor
  intro t
  have ht := h.eq t
  unfold Trace.attempt Run.attempt
  rw [← ht]
  cases w t with
  | ok a u => rfl
  | error stop u => cases stop <;> rfl

theorem erases_writeValue (v : Value) : Erases id (writeValue v)
    (do Run.writeLine (← Run.ask fun m => m.heap.describe v)) := by
  refine .bind (erases_lift _) fun text => ?_
  exact ⟨fun t => (erases_note fun _ => erases_lift _).eq t⟩

/-! ## Evaluation -/

/-- Within a bound on steps, tracing changes nothing. -/
structure ErasesWithin (fuel : Nat) : Prop where
  expr : ∀ e, Erases id (Trace.expr fuel e) (Eval.expr fuel e)
  exprs : ∀ es, Erases id (Trace.exprs fuel es) (Eval.exprs fuel es)
  call : ∀ f args paren, Erases id (Trace.call fuel f args paren) (Eval.call fuel f args paren)
  construct : ∀ c args, Erases id (Trace.construct fuel c args) (Eval.construct fuel c args)
  callFunction : ∀ f args, Erases id (Trace.callFunction fuel f args) (Eval.callFunction fuel f args)
  stmt : ∀ here s, Erases Signal.flow (Trace.stmt fuel here s) (Eval.stmt fuel s)
  stmts : ∀ here ss, Erases Signal.flow (Trace.stmts fuel here ss) (Eval.stmts fuel ss)

variable {fuel : Nat}

theorem erases_expr_step (ih : ErasesWithin fuel) (e : Expr) :
    Erases id (Trace.expr (fuel + 1) e) (Eval.expr (fuel + 1) e) := by
  rw [Trace.expr.eq_def, Eval.expr.eq_def]
  dsimp only
  cases e with
  | literal value _ => exact erases_pure value.value
  | grouping inner _ => exact ih.expr inner
  | unary op opSpan operand => exact .bind (ih.expr operand) fun _ => erases_lift _
  | binary left op opSpan right =>
    exact .bind (ih.expr left) fun _ => .bind (ih.expr right) fun _ => erases_lift _
  | logical left op _ right =>
    refine .bind (ih.expr left) fun a => ?_
    dsimp only [id]
    split
    · exact erases_pure a
    · exact ih.expr right
  | var | this | super | lambda => exact erases_lift _
  | assign target value =>
    refine .bind (ih.expr value) fun v => ?_
    exact .bind (erases_lift _) fun _ => erases_pure v
  | call callee paren arguments =>
    refine .bind (ih.expr callee) fun f => .bind (ih.exprs arguments) fun args => ?_
    exact .bind (erases_lift _) fun _ => .asCall (ih.call f args paren)
  | get object name => exact .bind (ih.expr object) fun _ => erases_lift _
  | set object name value =>
    refine .bind (ih.expr object) fun _ => .bind (erases_lift _) fun _ => ?_
    refine .bind (ih.expr value) fun v => ?_
    exact .bind (erases_lift _) fun _ => erases_pure v

theorem erases_exprs_step (ih : ErasesWithin fuel) (es : List Expr) :
    Erases id (Trace.exprs (fuel + 1) es) (Eval.exprs (fuel + 1) es) := by
  cases es with
  | nil => exact erases_pure []
  | cons e es =>
    exact .bind (ih.expr e) fun v => .bind (ih.exprs es) fun vs => erases_pure (v :: vs)

theorem erases_call_step (ih : ErasesWithin fuel) (callee : Value) (args : List Value)
    (paren : Span) :
    Erases id (Trace.call (fuel + 1) callee args paren) (Eval.call (fuel + 1) callee args paren) := by
  rw [Trace.call.eq_def, Eval.call.eq_def]
  cases callee with
  | native n => exact erases_lift _
  | function f =>
    refine .bind (erases_lift _) fun _ => .bind (erases_lift _) fun object => ?_
    exact ih.callFunction object args
  | class_ c => exact ih.construct c args
  | _ => exact erases_lift _

theorem erases_construct_step (ih : ErasesWithin fuel) (c : ClassId) (args : List Value) :
    Erases id (Trace.construct (fuel + 1) c args) (Eval.construct (fuel + 1) c args) := by
  rw [Trace.construct, Eval.construct]
  refine .bind (erases_lift _) fun i => .bind (erases_lift _) fun method? => ?_
  cases method? with
  | none => exact erases_pure (Value.instance_ i)
  | some method =>
    refine .bind (erases_lift _) fun bound => ?_
    exact .bind (ih.callFunction bound args) fun _ => erases_pure (Value.instance_ i)

theorem erases_callFunction_step (ih : ErasesWithin fuel) (f : FunctionObject)
    (args : List Value) :
    Erases id (Trace.callFunction (fuel + 1) f args) (Eval.callFunction (fuel + 1) f args) := by
  rw [Trace.callFunction, Eval.callFunction]
  refine .bind (erases_lift _) fun frame => erases_note fun called => ?_
  refine .bind (.within (ih.stmts ⟨some called, []⟩ f.fn.body) frame) fun signal => ?_
  exact erases_note fun _ => erases_lift _

theorem erases_stmt_step (ih : ErasesWithin fuel) (here : Spot) (s : Stmt) :
    Erases Signal.flow (Trace.stmt (fuel + 1) here s) (Eval.stmt (fuel + 1) s) := by
  have hnormal : Erases Signal.flow (pure .normal) (pure .normal) := erases_pure Signal.normal
  rw [Trace.stmt.eq_def, Eval.stmt.eq_def]
  dsimp only
  cases s with
  | expression value => exact .bind (ih.expr value) fun _ => hnormal
  | print value =>
    refine .bind (ih.expr value) fun v => ?_
    have hwrite : Erases Signal.flow (writeValue v >>= fun _ => pure .normal)
        ((do Run.writeLine (← Run.ask fun m => m.heap.describe v)) >>= fun _ => pure .normal) :=
      (erases_writeValue v).bind fun _ => hnormal
    exact ⟨hwrite.eq⟩
  | var name initializer =>
    cases initializer with
    | none => exact .bind (erases_lift _) fun _ => hnormal
    | some initializer =>
      exact .bind (ih.expr initializer) fun _ => .bind (erases_lift _) fun _ => hnormal
  | block body =>
    refine .bind (erases_lift _) fun outer => .bind (erases_lift _) fun frame => ?_
    exact .within (ih.stmts here body) frame
  | ifElse condition thenBranch elseBranch =>
    refine .bind (ih.expr condition) fun v => ?_
    dsimp only [id]
    split
    · exact ih.stmt here thenBranch
    · cases elseBranch with
      | some branch => exact ih.stmt here branch
      | none => exact hnormal
  | while_ condition body =>
    refine .bind (ih.expr condition) fun v => ?_
    dsimp only [id]
    split
    · refine erases_note fun round => ?_
      refine .bind (ih.stmt _ body) fun signal => ?_
      cases signal with
      | normal => exact ih.stmt here (.while_ condition body)
      | break_ raised => exact erases_note fun _ => hnormal
      | return_ raised value => exact erases_pure (Signal.return_ raised value)
    · exact hnormal
  | break_ keyword => exact erases_note fun raised => erases_pure (Signal.break_ raised)
  | return_ keyword value =>
    cases value with
    | none => exact erases_note fun raised => erases_pure (Signal.return_ raised .nil)
    | some value =>
      refine .bind (ih.expr value) fun v => ?_
      exact erases_note fun raised => erases_pure (Signal.return_ raised v)
  | function name fn =>
    exact .bind (erases_lift _) fun _ => .bind (erases_lift _) fun _ => hnormal
  | class_ name superclass methods => exact .bind (erases_lift _) fun _ => hnormal

theorem erases_stmts_step (ih : ErasesWithin fuel) (here : Spot) (ss : List Stmt) :
    Erases Signal.flow (Trace.stmts (fuel + 1) here ss) (Eval.stmts (fuel + 1) ss) := by
  cases ss with
  | nil => exact erases_pure Signal.normal
  | cons s rest =>
    refine .bind (ih.stmt here s) fun signal => ?_
    cases signal with
    | normal => exact ih.stmts here rest
    | break_ raised => exact erases_pure (Signal.break_ raised)
    | return_ raised value => exact erases_pure (Signal.return_ raised value)

/-- Tracing changes nothing. -/
theorem erasesWithin (fuel : Nat) : ErasesWithin fuel := by
  induction fuel with
  | zero => constructor <;> intros <;> exact erases_stop
  | succ fuel ih =>
    exact ⟨erases_expr_step ih, erases_exprs_step ih, erases_call_step ih,
      erases_construct_step ih, erases_callFunction_step ih, erases_stmt_step ih,
      erases_stmts_step ih⟩

theorem erases_program (fuel : Nat) (ss : List Stmt) (flows : Array Flow) :
    Erases id (program fuel flows ss) (Eval.program fuel flows ss) := by
  induction ss generalizing flows with
  | nil => exact erases_pure _
  | cons s rest ih =>
    refine ((erasesWithin fuel).stmt .top s).attempt.bind fun outcome => ?_
    cases outcome with
    | ok signal => exact erases_note fun _ => ih (flows.push signal.flow)
    | error diagnostic => exact erases_pure (Eval.Completion.mk flows (some diagnostic))

theorem erases_echo (fuel : Nat) (e : Expr) : Erases id (echo fuel e) (Session.echo fuel e) :=
  ((erasesWithin fuel).expr e).bind fun v => erases_writeValue v

theorem erases_execute (fuel : Nat) (ss : List Stmt) :
    Erases id (execute fuel ss) (Session.execute fuel ss) := by
  have hstatements : Erases id (program fuel #[] ss >>= fun completion => pure completion.error)
      (Eval.program fuel #[] ss >>= fun completion => pure completion.error) :=
    (erases_program fuel ss #[]).bind fun completion => erases_pure completion.error
  rcases ss with _ | ⟨s, _ | ⟨s', rest⟩⟩
  · exact hstatements
  · cases s with
    | expression e =>
      refine (erases_echo fuel e).attempt.bind fun outcome => ?_
      cases outcome with
      | ok _ => exact erases_pure (none : Option Diagnostic)
      | error diagnostic => exact erases_pure (some diagnostic)
    | _ => exact hstatements
  · cases s <;> exact hstatements

end Lox.Trace

/-! # Tracing a session

The answer to an input together with the trace of what is done for it. There is a
trace even when there is no answer. -/

namespace Lox

namespace Trace

variable {α β : Type}

theorem Erases.map {w : Traced α} {r : Run α} (h : Erases id w r) (f : α → β) :
    Erases id (f <$> w) (f <$> r) := by
  rw [map_eq_pure_bind, map_eq_pure_bind]
  exact h.bind fun a => erases_pure (f a)

/-- What is done with an input if nothing is wrong. -/
def task (fuel : Nat) : Input → Nat → Traced Answer
  | .program source, first =>
    let reading := readProgram source first
    Answer.executed (reading.report.addAll (Scope.program reading.value).errors) <$>
      execute fuel reading.value
  | .expression source, first =>
    let reading := readExpression source first
    match reading.value with
    | none => lift Run.exhaust
    | some e => Answer.evaluated (reading.report.addAll (Scope.wholeExpression e).errors) <$>
      attempt (expr fuel e)

theorem erases_task (fuel : Nat) (input : Input) (first : Nat) :
    Erases id (task fuel input first) (input.draft fuel first).task := by
  cases input with
  | program source => exact (erases_execute fuel _).map _
  | expression source =>
    show Erases id (task fuel (.expression source) first) (Draft.expression fuel source first).task
    unfold task Draft.expression
    dsimp only
    cases (readExpression source first).value with
    | none => exact erases_lift _
    | some e =>
      have htried := ((erasesWithin fuel).expr e).attempt
      rw [show (Except.map id : Except Diagnostic Value → _) = id from funext (by rintro ⟨⟩ <;> rfl)]
        at htried
      exact htried.map _

end Trace

namespace Session

/-- The answer to an input and the session after it, and the trace of what is done for it. -/
def traced (fuel : Nat) (input : Input) (s : Session) :
    Option (Answer × Session) × Array Trace.Entry :=
  let d := input.draft fuel s.nextId
  match d.walk with
  | none => (some (d.refuse d.report, { s with nextId := d.nextId }), #[])
  | some walk =>
    if d.report.hadError then (some (d.refuse d.report, { s with nextId := d.nextId }), #[])
    else
      let recorded := recording s.machine walk
      let report := d.report.addAll walk.errors
      if report.hadError then
        (some (d.refuse report, forgetFrom ⟨recorded, d.nextId⟩ s.nextId), #[])
      else
        match Trace.task fuel input s.nextId ⟨recorded, #[]⟩ with
        | .ok a t => (some (a, ⟨t.machine, d.nextId⟩), t.entries)
        | .error _ t => (none, t.entries)

/-- The answer is that of the session. -/
theorem traced_answer (fuel : Nat) (input : Input) (s : Session) :
    (s.traced fuel input).1 = s.answer fuel input := by
  have htask := Trace.erases_task fuel input s.nextId
  rw [answer_eq_settle]
  unfold traced settle
  dsimp only
  generalize input.draft fuel s.nextId = d at htask ⊢
  cases d.walk with
  | none => rfl
  | some walk =>
    have herases := htask.eq ⟨recording s.machine walk, #[]⟩
    dsimp only at herases ⊢
    split
    · rfl
    · split
      · rfl
      · rw [← herases]
        cases Trace.task fuel input s.nextId ⟨recording s.machine walk, #[]⟩ <;> rfl

end Session
end Lox
