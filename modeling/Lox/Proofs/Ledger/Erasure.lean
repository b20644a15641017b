import Lox.Proofs.Ledger.Eval

/-! # A ledger changes nothing

Without what is booked, an evaluation along with which a ledger is kept is the
evaluation: on every machine it has the same result, stops for the same reason and
leaves the same machine, within every bound on steps. So a session along with
which a ledger is kept gives the answers of the session. -/

namespace Lox.Ledger

variable {α β : Type}

/-- Leaves away what is booked. -/
def forget : EStateM.Result Stop Book α → EStateM.Result Stop Machine α
  | .ok a t => .ok a t.machine
  | .error stop t => .error stop t.machine

/-- A computation does to the machine what another one does, and has the same result. -/
structure Erases (w : Booked α) (r : Run α) : Prop where
  eq : ∀ t, forget (w t) = r t.machine

variable {w : Booked α} {r : Run α}

/-- A computation ends as the one without a ledger does. -/
theorem Erases.ends (h : Erases w r) (t : Book) :
    Ends w t (fun a u => r t.machine = .ok a u.machine) fun stop u =>
      r t.machine = .error stop u.machine := by
  have ht := h.eq t
  unfold Ends
  cases hw : w t with
  | ok a u => rw [hw] at ht; exact ht.symm
  | error stop u => rw [hw] at ht; exact ht.symm

theorem erases_lift (r : Run α) : Erases (lift r) r := by
  constructor
  intro t
  unfold lift forget
  dsimp only
  cases r t.machine <;> rfl

theorem erases_pure (a : α) : Erases (pure a) (pure a) := ⟨fun _ => rfl⟩

theorem erases_exhaust : Erases (lift Run.exhaust : Booked α) Run.exhaust := ⟨fun _ => rfl⟩

theorem Erases.bind {k : α → Booked β} {k' : α → Run β} (h : Erases w r)
    (hk : ∀ a, Erases (k a) (k' a)) : Erases (w >>= k) (r >>= k') := by
  constructor
  intro t
  have ht := h.eq t
  cases hw : w t with
  | ok a u =>
    rw [hw] at ht
    rw [bind_of_ok hw, bind_of_ok ht.symm]
    exact (hk a).eq u
  | error stop u =>
    rw [hw] at ht
    rw [bind_of_error hw, bind_of_error ht.symm]
    rfl

theorem erases_mark {k : Booked β} {r : Run β} (hk : Erases k r) :
    Erases (mark >>= fun _ => k) r :=
  ⟨fun t => hk.eq { t with entries := t.entries ++ [.moment t.machine] }⟩

theorem Erases.map (h : Erases w r) (f : α → β) : Erases (f <$> w) (f <$> r) := by
  rw [map_eq_pure_bind, map_eq_pure_bind]
  exact h.bind fun a => erases_pure (f a)

theorem Erases.within (h : Erases w r) (frame : FrameId) :
    Erases (within frame w) (Run.within frame r) := by
  constructor
  intro t
  have ht := h.eq { t with machine := { t.machine with current := frame } }
  simp only [Ledger.within, Run.within]
  rw [← ht]
  cases w { t with machine := { t.machine with current := frame } } <;> rfl

theorem Erases.asCall (h : Erases w r) : Erases (asCall w) (Run.asCall r) := by
  constructor
  intro t
  have ht := h.eq { t with machine := { t.machine with callDepth := t.machine.callDepth + 1 } }
  simp only [Ledger.asCall, Run.asCall]
  rw [← ht]
  cases w { t with machine := { t.machine with callDepth := t.machine.callDepth + 1 } } <;> rfl

theorem Erases.attempt (h : Erases w r) : Erases (attempt w) (Run.attempt r) := by
  constructor
  intro t
  have ht := h.eq t
  unfold Ledger.attempt Run.attempt
  rw [← ht]
  cases w t with
  | ok a u => rfl
  | error stop u => cases stop <;> rfl

theorem erases_setField (i : InstanceId) (name : String) (v : Value) :
    Erases (setField i name v) (Run.onHeap fun h => ((), h.setField i name v)) := ⟨fun _ => rfl⟩

/-! ## Evaluation -/

/-- Within a bound on steps, a ledger changes nothing. -/
structure ErasesWithin (fuel : Nat) : Prop where
  expr : ∀ e, Erases (Ledger.expr fuel e) (Eval.expr fuel e)
  exprs : ∀ es, Erases (Ledger.exprs fuel es) (Eval.exprs fuel es)
  call : ∀ f args paren, Erases (Ledger.call fuel f args paren) (Eval.call fuel f args paren)
  construct : ∀ c args, Erases (Ledger.construct fuel c args) (Eval.construct fuel c args)
  callFunction : ∀ f args, Erases (Ledger.callFunction fuel f args) (Eval.callFunction fuel f args)
  stmt : ∀ s, Erases (Ledger.stmt fuel s) (Eval.stmt fuel s)
  stmts : ∀ ss, Erases (Ledger.stmts fuel ss) (Eval.stmts fuel ss)

variable {fuel : Nat}

theorem erases_expr_step (ih : ErasesWithin fuel) (e : Expr) :
    Erases (Ledger.expr (fuel + 1) e) (Eval.expr (fuel + 1) e) := by
  rw [Ledger.expr.eq_def, Eval.expr.eq_def]
  dsimp only
  cases e with
  | literal value _ => exact erases_pure value.value
  | grouping inner _ => exact ih.expr inner
  | unary op opSpan operand => exact .bind (ih.expr operand) fun _ => erases_lift _
  | binary left op opSpan right =>
    exact .bind (ih.expr left) fun _ => .bind (ih.expr right) fun _ => erases_lift _
  | logical left op _ right =>
    refine .bind (ih.expr left) fun a => ?_
    split
    · exact erases_pure a
    · exact ih.expr right
  | var | this | super | lambda => exact erases_lift _
  | assign target value =>
    exact .bind (ih.expr value) fun v => .bind (erases_lift _) fun _ => erases_pure v
  | call callee paren arguments =>
    refine .bind (ih.expr callee) fun f => .bind (ih.exprs arguments) fun args => ?_
    exact .bind (erases_lift _) fun _ => .asCall (ih.call f args paren)
  | get object name => exact .bind (ih.expr object) fun _ => erases_lift _
  | set object name value =>
    refine erases_mark (.bind (ih.expr object) fun _ => .bind (erases_lift _) fun i => ?_)
    refine .bind (ih.expr value) fun v => ?_
    exact .bind (erases_setField i name.text v) fun _ => erases_pure v

theorem erases_exprs_step (ih : ErasesWithin fuel) (es : List Expr) :
    Erases (Ledger.exprs (fuel + 1) es) (Eval.exprs (fuel + 1) es) := by
  cases es with
  | nil => exact erases_pure []
  | cons e es =>
    exact .bind (ih.expr e) fun v => .bind (ih.exprs es) fun vs => erases_pure (v :: vs)

theorem erases_call_step (ih : ErasesWithin fuel) (callee : Value) (args : List Value)
    (paren : Span) :
    Erases (Ledger.call (fuel + 1) callee args paren) (Eval.call (fuel + 1) callee args paren) := by
  rw [Ledger.call.eq_def, Eval.call.eq_def]
  cases callee with
  | native n => exact erases_lift _
  | function f =>
    refine .bind (erases_lift _) fun _ => .bind (erases_lift _) fun object => ?_
    exact ih.callFunction object args
  | class_ c => exact ih.construct c args
  | _ => exact erases_lift _

theorem erases_construct_step (ih : ErasesWithin fuel) (c : ClassId) (args : List Value) :
    Erases (Ledger.construct (fuel + 1) c args) (Eval.construct (fuel + 1) c args) := by
  rw [Ledger.construct, Eval.construct]
  refine .bind (erases_lift _) fun i => .bind (erases_lift _) fun method? => ?_
  cases method? with
  | none => exact erases_pure (Value.instance_ i)
  | some method =>
    refine .bind (erases_lift _) fun bound => ?_
    exact .bind (ih.callFunction bound args) fun _ => erases_pure (Value.instance_ i)

theorem erases_callFunction_step (ih : ErasesWithin fuel) (f : FunctionObject)
    (args : List Value) :
    Erases (Ledger.callFunction (fuel + 1) f args) (Eval.callFunction (fuel + 1) f args) := by
  rw [Ledger.callFunction, Eval.callFunction]
  refine .bind (erases_lift _) fun frame => ?_
  exact .bind (.within (ih.stmts f.fn.body) frame) fun flow => erases_lift _

theorem erases_stmt_step (ih : ErasesWithin fuel) (s : Stmt) :
    Erases (Ledger.stmt (fuel + 1) s) (Eval.stmt (fuel + 1) s) := by
  rw [Ledger.stmt.eq_def, Eval.stmt.eq_def]
  dsimp only
  cases s with
  | expression value => exact .bind (ih.expr value) fun _ => erases_pure Flow.normal
  | print value =>
    refine .bind (ih.expr value) fun v => ?_
    have hwrite : Erases (lift (do Run.writeLine (← Run.ask fun m => m.heap.describe v)))
        (do Run.writeLine (← Run.ask fun m => m.heap.describe v)) := erases_lift _
    exact ⟨(hwrite.bind fun _ => erases_pure Flow.normal).eq⟩
  | var name initializer =>
    cases initializer with
    | none => exact .bind (erases_lift _) fun _ => erases_pure Flow.normal
    | some initializer =>
      refine .bind (ih.expr initializer) fun _ => ?_
      exact .bind (erases_lift _) fun _ => erases_pure Flow.normal
  | block body =>
    refine .bind (erases_lift _) fun outer => .bind (erases_lift _) fun frame => ?_
    exact .within (ih.stmts body) frame
  | ifElse condition thenBranch elseBranch =>
    refine .bind (ih.expr condition) fun v => ?_
    split
    · exact ih.stmt thenBranch
    · cases elseBranch with
      | some branch => exact ih.stmt branch
      | none => exact erases_pure Flow.normal
  | while_ condition body =>
    refine .bind (ih.expr condition) fun v => ?_
    split
    · refine .bind (ih.stmt body) fun flow => ?_
      cases flow with
      | normal => exact ih.stmt (.while_ condition body)
      | break_ => exact erases_pure Flow.normal
      | return_ value => exact erases_pure (Flow.return_ value)
    · exact erases_pure Flow.normal
  | break_ keyword => exact erases_pure Flow.break_
  | return_ keyword value =>
    cases value with
    | none => exact erases_pure (Flow.return_ .nil)
    | some value => exact .bind (ih.expr value) fun v => erases_pure (Flow.return_ v)
  | function name fn =>
    refine .bind (erases_lift _) fun _ => ?_
    exact .bind (erases_lift _) fun _ => erases_pure Flow.normal
  | class_ name superclass methods =>
    exact .bind (erases_lift _) fun _ => erases_pure Flow.normal

theorem erases_stmts_step (ih : ErasesWithin fuel) (ss : List Stmt) :
    Erases (Ledger.stmts (fuel + 1) ss) (Eval.stmts (fuel + 1) ss) := by
  cases ss with
  | nil => exact erases_pure Flow.normal
  | cons s rest =>
    refine .bind (ih.stmt s) fun flow => ?_
    cases flow with
    | normal => exact ih.stmts rest
    | break_ => exact erases_pure Flow.break_
    | return_ value => exact erases_pure (Flow.return_ value)

/-- A ledger changes nothing. -/
theorem erasesWithin (fuel : Nat) : ErasesWithin fuel := by
  induction fuel with
  | zero => constructor <;> intros <;> exact erases_exhaust
  | succ fuel ih =>
    exact ⟨erases_expr_step ih, erases_exprs_step ih, erases_call_step ih,
      erases_construct_step ih, erases_callFunction_step ih, erases_stmt_step ih,
      erases_stmts_step ih⟩

theorem erases_program (fuel : Nat) (ss : List Stmt) (flows : Array Flow) :
    Erases (program fuel flows ss) (Eval.program fuel flows ss) := by
  induction ss generalizing flows with
  | nil => exact erases_pure _
  | cons s rest ih =>
    refine ((erasesWithin fuel).stmt s).attempt.bind fun outcome => ?_
    cases outcome with
    | ok flow => exact ih (flows.push flow)
    | error diagnostic => exact erases_pure (Eval.Completion.mk flows (some diagnostic))

theorem erases_echo (fuel : Nat) (e : Expr) : Erases (echo fuel e) (Session.echo fuel e) :=
  ((erasesWithin fuel).expr e).bind fun _ => erases_lift _

theorem erases_execute (fuel : Nat) (ss : List Stmt) :
    Erases (execute fuel ss) (Session.execute fuel ss) := by
  have hstatements := (erases_program fuel ss #[]).bind fun completion =>
    erases_pure completion.error
  rcases ss with _ | ⟨s, _ | ⟨s', rest⟩⟩
  · exact hstatements
  · cases s with
    | expression e =>
      refine (erases_echo fuel e).attempt.bind fun outcome => ?_
      cases outcome with
      | ok _ => exact erases_pure none
      | error diagnostic => exact erases_pure (some diagnostic)
    | _ => exact hstatements
  · cases s <;> exact hstatements

theorem erases_task (fuel : Nat) (input : Input) (first : Nat) :
    Erases (task fuel input first) (input.draft fuel first).task := by
  cases input with
  | program source => exact (erases_execute fuel _).map _
  | expression source =>
    show Erases (task fuel (.expression source) first) (Draft.expression fuel source first).task
    unfold task Draft.expression
    dsimp only
    cases (readExpression source first).value with
    | none => exact erases_lift _
    | some e => exact ((erasesWithin fuel).expr e).attempt.map _

/-! ## Sessions -/

/-- A session along with which a ledger is kept. -/
structure Chronicle where
  book : Book
  nextId : Nat

namespace Chronicle

/-- A session along with which nothing has been booked yet. -/
def start (s : Session) : Chronicle := ⟨⟨s.machine, []⟩, s.nextId⟩

/-- The session itself. -/
def session (c : Chronicle) : Session := ⟨c.book.machine, c.nextId⟩

/-- The chronicle in which the session has become another one. -/
def become (c : Chronicle) (s : Session) : Chronicle :=
  ⟨{ c.book with machine := s.machine }, s.nextId⟩

/-- Goes on with an input. There is no answer when it does not end within `fuel` steps. -/
def take (fuel : Nat) (input : Input) (c : Chronicle) : Option Answer × Chronicle :=
  let d := input.draft fuel c.nextId
  match d.walk with
  | none => (some (d.refuse d.report), c.become { c.session with nextId := d.nextId })
  | some walk =>
    if d.report.hadError then
      (some (d.refuse d.report), c.become { c.session with nextId := d.nextId })
    else
      let recorded := Session.recording c.book.machine walk
      let report := d.report.addAll walk.errors
      if report.hadError then
        (some (d.refuse report), c.become (Session.forgetFrom ⟨recorded, d.nextId⟩ c.nextId))
      else
        match task fuel input c.nextId { c.book with machine := recorded } with
        | .ok a t => (some a, ⟨t, d.nextId⟩)
        | .error _ t => (none, ⟨t, d.nextId⟩)

/-- Goes on with inputs in order, until there is no answer to one. -/
def takeAll : List (Nat × Input) → Chronicle → Option (List Answer) × Chronicle
  | [], c => (some [], c)
  | (fuel, input) :: rest, c =>
    match c.take fuel input with
    | (some a, c) => ((takeAll rest c).1.map (a :: ·), (takeAll rest c).2)
    | (none, c) => (none, c)

/-- The answer to an input is that of the session, which goes on in the same way. -/
theorem answer_eq_take (fuel : Nat) (input : Input) (c : Chronicle) :
    c.session.answer fuel input =
      (c.take fuel input).1.map fun a => (a, (c.take fuel input).2.session) := by
  have htask := erases_task fuel input c.nextId
  rw [Session.answer_eq_settle]
  show Session.settle (input.draft fuel c.nextId) c.session = _
  unfold take
  dsimp only
  generalize input.draft fuel c.nextId = d at htask ⊢
  unfold Session.settle
  cases d.walk with
  | none => rfl
  | some walk =>
    have herases := htask.eq { c.book with machine := Session.recording c.book.machine walk }
    dsimp only at herases ⊢
    by_cases hread : d.report.hadError = true
    · simp only [if_pos hread]
      rfl
    simp only [if_neg hread]
    by_cases hscope : (d.report.addAll walk.errors).hadError = true
    · simp only [if_pos hscope]
      rfl
    simp only [if_neg hscope]
    have hmachine : c.session.machine = c.book.machine := rfl
    rw [hmachine, ← herases]
    cases task fuel input c.nextId
      { c.book with machine := Session.recording c.book.machine walk } <;> rfl

theorem answers_eq_takeAll (inputs : List (Nat × Input)) (c : Chronicle) :
    Session.answers inputs c.session =
      (c.takeAll inputs).1.map fun as => (as, (c.takeAll inputs).2.session) := by
  induction inputs generalizing c with
  | nil => rfl
  | cons head rest ih =>
    obtain ⟨fuel, input⟩ := head
    rw [Session.answers, answer_eq_take, takeAll]
    cases c.take fuel input with
    | mk a? c' =>
      cases a? with
      | none => rfl
      | some a =>
        dsimp only [Option.map_some, Option.bind_some]
        rw [ih c']
        cases (c'.takeAll rest).1 <;> rfl

/-- A relation of books that holds along every evaluation, from machines of a kind to such machines
again. What is recorded about scopes does not matter to it. -/
structure Carries (P : Machine → Prop) (R : Book → Book → Prop) : Prop where
  refl : ∀ t, P t.machine → R t t
  trans : ∀ t u v, R t u → R u v → R t v
  kind : ∀ t u, R t u → P u.machine
  records : ∀ t known, P t.machine →
    R t { t with machine := { t.machine with resolutions := known } }
  task : ∀ fuel input first t, P t.machine →
    Ends (task fuel input first) t (fun _ u => R t u) fun _ u => R t u

variable {P : Machine → Prop} {R : Book → Book → Prop}

theorem Carries.take (hR : Carries P R) (fuel : Nat) (input : Input) {c : Chronicle}
    (hc : P c.book.machine) : R c.book (c.take fuel input).2.book := by
  unfold Chronicle.take
  dsimp only
  split
  · exact hR.refl _ hc
  · next walk hwalk =>
    split
    · exact hR.refl _ hc
    · split
      · exact hR.records c.book _ hc
      · let recorded : Book := { c.book with machine := Session.recording c.book.machine walk }
        have hstart : R c.book recorded := hR.records c.book _ hc
        have hends := hR.task fuel input c.nextId recorded (hR.kind _ _ hstart)
        unfold Ends at hends
        cases hrun : Ledger.task fuel input c.nextId recorded with
        | ok a t | error stop t =>
          rw [hrun] at hends
          exact hR.trans _ _ _ hstart hends

/-- It holds from the beginning of a session to the end. -/
theorem Carries.takeAll (hR : Carries P R) (inputs : List (Nat × Input)) {c : Chronicle}
    (hc : P c.book.machine) : R c.book (c.takeAll inputs).2.book := by
  induction inputs generalizing c with
  | nil => exact hR.refl _ hc
  | cons head rest ih =>
    obtain ⟨fuel, input⟩ := head
    have hfirst := hR.take fuel input hc
    rw [Chronicle.takeAll]
    cases htake : c.take fuel input with
    | mk a? c' =>
      rw [htake] at hfirst
      cases a? with
      | none => exact hfirst
      | some a => exact hR.trans _ _ _ hfirst (ih (hR.kind _ _ hfirst))

end Chronicle
end Lox.Ledger
