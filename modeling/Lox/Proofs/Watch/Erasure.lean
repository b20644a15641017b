import Lox.Proofs.Outcome
import Lox.Proofs.Watch.Eval

/-! # Watching changes nothing

Forgetting what a watch wrote down, a watched evaluation is the evaluation: on
every machine it has the same result, stops for the same reason and leaves the
same machine, within every bound on steps. -/

namespace Lox.Watch

variable {α β : Type}

/-- Leaves what a watch knows, and keeps the machine. -/
def forget : EStateM.Result Stop Record α → EStateM.Result Stop Machine α
  | .ok a t => .ok a t.machine
  | .error stop t => .error stop t.machine

/-- A watched computation does to the machine what a computation does. -/
structure Erases (w : Watched α) (r : Run α) : Prop where
  eq : ∀ t, forget (w t) = r t.machine

/-- A step that only a watch takes: the machine does not notice it. -/
structure Silent (w : Watched α) : Prop where
  ok : ∀ t, ∃ a u, w t = .ok a u ∧ u.machine = t.machine

theorem silent_mark (here : Scene) (event : Event) : Silent (mark here event) :=
  ⟨fun _ => ⟨_, _, rfl, rfl⟩⟩

theorem silent_settle (count : Nat) (home : Home) : Silent (settle count home) :=
  ⟨fun _ => ⟨_, _, rfl, rfl⟩⟩

theorem silent_complete (name : String) : Silent (complete name) := ⟨fun _ => ⟨_, _, rfl, rfl⟩⟩

theorem silent_homeOf (f : FunctionId) : Silent (homeOf f) := ⟨fun _ => ⟨_, _, rfl, rfl⟩⟩

theorem silent_nextFrame : Silent nextFrame := ⟨fun _ => ⟨_, _, rfl, rfl⟩⟩

theorem erases_lift (r : Run α) : Erases (lift r) r := by
  constructor
  intro t
  unfold lift forget
  cases r t.machine <;> rfl

theorem erases_pure (a : α) : Erases (pure a) (pure a) := ⟨fun _ => rfl⟩

theorem Erases.bind {w : Watched α} {r : Run α} {k : α → Watched β} {k' : α → Run β}
    (h : Erases w r) (hk : ∀ a, Erases (k a) (k' a)) : Erases (w >>= k) (r >>= k') := by
  constructor
  intro t
  have ht := h.eq t
  cases hw : w t with
  | ok a u =>
    rw [hw] at ht
    rw [bind_of_ok hw, bind_of_ok ht.symm]
    exact (hk a).eq u
  | error stop u =>
    rw [hw] at ht
    rw [bind_of_error hw, bind_of_error ht.symm]
    rfl

/-- A step of the watch alone can be taken away before a computation. -/
theorem Erases.after_silent {s : Watched α} {k : α → Watched β} {r : Run β}
    (hs : Silent s) (hk : ∀ a, Erases (k a) r) : Erases (s >>= k) r := by
  constructor
  intro t
  obtain ⟨a, u, hw, hu⟩ := hs.ok t
  rw [bind_of_ok hw, (hk a).eq u, hu]

theorem Erases.within {w : Watched α} {r : Run α} (h : Erases w r) (frame : FrameId) :
    Erases (within frame w) (Run.within frame r) := by
  constructor
  intro t
  have ht := h.eq { t with machine := { t.machine with current := frame } }
  simp only [Watch.within, Run.within]
  rw [← ht]
  cases w { t with machine := { t.machine with current := frame } } <;> rfl

theorem Erases.asCall {w : Watched α} {r : Run α} (h : Erases w r) :
    Erases (asCall w) (Run.asCall r) := by
  constructor
  intro t
  have ht := h.eq { t with machine := { t.machine with callDepth := t.machine.callDepth + 1 } }
  simp only [Watch.asCall, Run.asCall]
  rw [← ht]
  cases w { t with machine := { t.machine with callDepth := t.machine.callDepth + 1 } } <;> rfl

/-- A step of the watch at the end of a computation can be taken away too. -/
theorem Erases.before_silent {w : Watched α} {s : Watched β} {r : Run α}
    (h : Erases w r) (hs : Silent s) : Erases (do let a ← w; let _ ← s; pure a) r := by
  constructor
  intro t
  have ht := h.eq t
  cases hw : w t with
  | ok a u =>
    obtain ⟨b, v, hv, hm⟩ := hs.ok u
    rw [hw] at ht
    rw [bind_of_ok hw, bind_of_ok hv, ← ht]
    simp only [forget, pure, EStateM.pure, hm]
  | error stop u =>
    rw [hw] at ht
    rw [bind_of_error hw]
    exact ht

/-! ## The parts of evaluation without recursion -/

theorem erases_readVariable (here : Scene) (id : Nat) (name : String) (span : Span) :
    Erases (readVariable here id name span) (Eval.readVariable id name span) :=
  .after_silent (silent_mark ..) fun _ => erases_lift _

theorem erases_writeVariable (here : Scene) (target : Reference) (value : Value) :
    Erases (writeVariable here target value) (Eval.writeVariable target value) :=
  .after_silent (silent_mark ..) fun _ => erases_lift _

theorem erases_closure (ribs : List Rib) (name : Option String) (fn : Lambda) :
    Erases (closure ribs name fn) (Eval.closure name fn) :=
  .before_silent (erases_lift _) (silent_settle ..)

theorem erases_boundMethod (found : Option FunctionId) (i : InstanceId) (name : Ident) :
    Erases (boundMethod found i name) (Eval.boundMethod found i name) :=
  .after_silent silent_nextFrame fun _ => .after_silent (silent_homeOf _) fun _ =>
    .before_silent (erases_lift _) (silent_settle ..)

theorem erases_property (object : Value) (name : Ident) :
    Erases (property object name) (Eval.property object name) := by
  cases object with
  | instance_ i =>
    refine .bind (erases_lift _) fun field => ?_
    cases field with
    | some value => exact erases_pure value
    | none => exact .bind (erases_lift _) fun _ => erases_boundMethod ..
  | _ => exact erases_lift (Run.fail .propertyOfNonInstance name.span)

theorem erases_superMethod (here : Scene) (id : Nat) (keyword : Span) (method : Ident) :
    Erases (superMethod here id keyword method) (Eval.superMethod id keyword method) := by
  refine .after_silent (silent_mark ..) fun _ => ?_
  refine .bind (erases_lift _) fun _ => .bind (erases_lift _) fun _ => ?_
  refine .bind (erases_lift _) fun _ => .bind (erases_lift _) fun _ => ?_
  exact .bind (erases_lift _) fun _ => erases_boundMethod ..

theorem erases_superclassOf (here : Scene) (superclass : Option Reference) :
    Erases (superclassOf here superclass) (Eval.superclassOf superclass) := by
  cases superclass with
  | none => exact erases_pure none
  | some target =>
    refine .bind (erases_readVariable ..) fun v => ?_
    cases v with
    | class_ c => exact erases_pure (some c)
    | _ => exact erases_lift _

theorem erases_declareClass (here : Scene) (name : Ident) (superclass : Option Reference)
    (methods : List Method) :
    Erases (declareClass here name superclass methods)
      (Eval.declareClass name superclass methods) := by
  refine .bind (erases_superclassOf ..) fun _ => .bind (erases_lift _) fun _ => ?_
  refine .bind (erases_lift _) fun _ => .bind (erases_lift _) fun _ => ?_
  refine .after_silent (silent_settle ..) fun _ => ?_
  exact .bind (erases_lift _) fun _ => erases_lift _

/-! ## Evaluation -/

/-- Within a bound on steps, watching changes nothing. -/
structure ErasesWithin (fuel : Nat) : Prop where
  expr : ∀ here e, Erases (Watch.expr fuel here e) (Eval.expr fuel e)
  exprs : ∀ here es, Erases (Watch.exprs fuel here es) (Eval.exprs fuel es)
  call : ∀ here f args paren,
    Erases (Watch.call fuel here f args paren) (Eval.call fuel f args paren)
  construct : ∀ here c args, Erases (Watch.construct fuel here c args) (Eval.construct fuel c args)
  callFunction : ∀ here f args,
    Erases (Watch.callFunction fuel here f args) (Eval.callFunction fuel f args)
  stmt : ∀ here s, Erases (Watch.stmt fuel here s) (Eval.stmt fuel s)
  stmts : ∀ here ss, Erases (Watch.stmts fuel here ss) (Eval.stmts fuel ss)

variable {fuel : Nat}

theorem erases_expr_step (ih : ErasesWithin fuel) (here : Scene) (e : Expr) :
    Erases (Watch.expr (fuel + 1) here e) (Eval.expr (fuel + 1) e) := by
  rw [Watch.expr.eq_def, Eval.expr.eq_def]
  dsimp only
  refine .after_silent (silent_mark ..) fun _ => ?_
  cases e with
  | literal value _ => exact erases_pure value.value
  | grouping inner _ => exact ih.expr here inner
  | unary op opSpan operand => exact .bind (ih.expr here operand) fun _ => erases_lift _
  | binary left op opSpan right =>
    exact .bind (ih.expr here left) fun _ => .bind (ih.expr here right) fun _ => erases_lift _
  | logical left op _ right =>
    refine .bind (ih.expr here left) fun a => ?_
    split
    · exact erases_pure a
    · exact ih.expr here right
  | var target => exact erases_readVariable ..
  | assign target value =>
    refine .bind (ih.expr here value) fun v => ?_
    exact .bind (erases_writeVariable ..) fun _ => erases_pure v
  | call callee paren arguments =>
    refine .bind (ih.expr here callee) fun f => .bind (ih.exprs here arguments) fun args => ?_
    exact .bind (erases_lift _) fun _ => .asCall (ih.call _ f args paren)
  | get object name => exact .bind (ih.expr here object) fun _ => erases_property ..
  | set object name value =>
    refine .bind (ih.expr here object) fun _ => .bind (erases_lift _) fun _ => ?_
    refine .bind (ih.expr here value) fun v => ?_
    exact .bind (erases_lift _) fun _ => erases_pure v
  | this id span => exact erases_readVariable ..
  | super id keyword method => exact erases_superMethod ..
  | lambda fn => exact erases_closure ..

theorem erases_exprs_step (ih : ErasesWithin fuel) (here : Scene) (es : List Expr) :
    Erases (Watch.exprs (fuel + 1) here es) (Eval.exprs (fuel + 1) es) := by
  cases es with
  | nil => rw [Watch.exprs, Eval.exprs]; exact erases_pure []
  | cons e es =>
    rw [Watch.exprs, Eval.exprs]
    exact .bind (ih.expr here e) fun _ => .bind (ih.exprs here es) fun _ => erases_pure _

theorem erases_call_step (ih : ErasesWithin fuel) (here : Scene) (callee : Value)
    (args : List Value) (paren : Span) :
    Erases (Watch.call (fuel + 1) here callee args paren)
      (Eval.call (fuel + 1) callee args paren) := by
  rw [Watch.call.eq_def, Eval.call.eq_def]
  dsimp only
  refine .after_silent (silent_mark ..) fun _ => ?_
  cases callee with
  | native n => exact erases_lift _
  | function f =>
    refine .bind (erases_lift _) fun _ => .bind (erases_lift _) fun object => ?_
    exact .after_silent (silent_homeOf f) fun home => ih.callFunction _ object args
  | class_ c => exact ih.construct here c args
  | _ => exact erases_lift _

theorem erases_construct_step (ih : ErasesWithin fuel) (here : Scene) (c : ClassId)
    (args : List Value) :
    Erases (Watch.construct (fuel + 1) here c args) (Eval.construct (fuel + 1) c args) := by
  rw [Watch.construct, Eval.construct]
  refine .bind (erases_lift _) fun i => ?_
  refine .after_silent (s := lift (Run.ask _)) ⟨fun _ => ⟨_, _, rfl, rfl⟩⟩ fun found => ?_
  refine .bind (erases_lift _) fun method? => ?_
  cases method? with
  | none => exact erases_pure _
  | some method =>
    refine .after_silent (silent_homeOf _) fun home => .after_silent silent_nextFrame fun _ => ?_
    refine .bind (erases_lift _) fun bound => ?_
    exact .bind (ih.callFunction _ bound args) fun _ => erases_pure _

theorem erases_callFunction_step (ih : ErasesWithin fuel) (here : Scene) (f : FunctionObject)
    (args : List Value) :
    Erases (Watch.callFunction (fuel + 1) here f args) (Eval.callFunction (fuel + 1) f args) := by
  rw [Watch.callFunction, Eval.callFunction]
  refine .bind (erases_lift _) fun frame => ?_
  exact .bind (.within (ih.stmts _ f.fn.body) frame) fun _ => erases_lift _

theorem erases_stmt_step (ih : ErasesWithin fuel) (here : Scene) (s : Stmt) :
    Erases (Watch.stmt (fuel + 1) here s) (Eval.stmt (fuel + 1) s) := by
  rw [Watch.stmt.eq_def, Eval.stmt.eq_def]
  dsimp only
  refine .after_silent (silent_mark ..) fun _ => ?_
  cases s with
  | expression value => exact .bind (ih.expr here value) fun _ => erases_pure _
  | print value =>
    refine .bind (ih.expr here value) fun _ => .bind (erases_lift _) fun _ => ?_
    exact .bind (erases_lift _) fun _ => erases_pure _
  | var name initializer =>
    cases initializer with
    | none =>
      refine .bind (erases_lift _) fun _ => ?_
      exact .after_silent (silent_complete _) fun _ => erases_pure _
    | some initializer =>
      refine .bind (ih.expr _ initializer) fun _ => .bind (erases_lift _) fun _ => ?_
      exact .after_silent (silent_complete _) fun _ => erases_pure _
  | block body =>
    refine .bind (erases_lift _) fun outer => .bind (erases_lift _) fun frame => ?_
    exact .within (ih.stmts _ body) frame
  | ifElse condition thenBranch elseBranch =>
    refine .bind (ih.expr here condition) fun v => ?_
    split
    · exact ih.stmt here thenBranch
    · cases elseBranch with
      | some branch => exact ih.stmt here branch
      | none => exact erases_pure _
  | while_ condition body =>
    refine .bind (ih.expr here condition) fun v => ?_
    split
    · refine .bind (ih.stmt here body) fun flow => ?_
      cases flow with
      | normal => exact ih.stmt here (.while_ condition body)
      | break_ => exact erases_pure _
      | return_ value => exact erases_pure _
    · exact erases_pure _
  | break_ _ => exact erases_pure _
  | return_ _ value =>
    cases value with
    | none => exact erases_pure _
    | some value => exact .bind (ih.expr here value) fun _ => erases_pure _
  | function name fn =>
    refine .bind (erases_closure ..) fun _ => ?_
    exact .bind (erases_lift _) fun _ => erases_pure _
  | class_ name superclass methods =>
    exact .bind (erases_declareClass ..) fun _ => erases_pure _

theorem erases_stmts_step (ih : ErasesWithin fuel) (here : Scene) (ss : List Stmt) :
    Erases (Watch.stmts (fuel + 1) here ss) (Eval.stmts (fuel + 1) ss) := by
  cases ss with
  | nil => rw [Watch.stmts, Eval.stmts]; exact erases_pure _
  | cons s rest =>
    rw [Watch.stmts, Eval.stmts]
    refine .bind (ih.stmt here s) fun flow => ?_
    cases flow with
    | normal => exact ih.stmts _ rest
    | break_ => exact erases_pure _
    | return_ value => exact erases_pure _

/-- Watching changes nothing. -/
theorem erasesWithin (fuel : Nat) : ErasesWithin fuel := by
  induction fuel with
  | zero =>
    constructor <;> intros
    · rw [Watch.expr, Eval.expr]; exact erases_lift _
    · rw [Watch.exprs, Eval.exprs]; exact erases_lift _
    · rw [Watch.call, Eval.call]; exact erases_lift _
    · rw [Watch.construct, Eval.construct]; exact erases_lift _
    · rw [Watch.callFunction, Eval.callFunction]; exact erases_lift _
    · rw [Watch.stmt, Eval.stmt]; exact erases_lift _
    · rw [Watch.stmts, Eval.stmts]; exact erases_lift _
  | succ fuel ih =>
    exact ⟨erases_expr_step ih, erases_exprs_step ih, erases_call_step ih,
      erases_construct_step ih, erases_callFunction_step ih, erases_stmt_step ih,
      erases_stmts_step ih⟩

end Lox.Watch
