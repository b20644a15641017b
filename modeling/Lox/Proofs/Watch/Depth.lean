import Lox.Proofs.Eval.Steady
import Lox.Proofs.Watch.Eval

/-! # The depth of calls at every point

At every point of an evaluation the call depth is the one it began with plus the
number of call expressions whose callee is being run there, and it never passes
its limit. -/

namespace Lox

/-- What a call is checked for, in this order. -/
theorem Eval.checkCall_eq (callee : Value) (count : Nat) (paren : Span) (m : Machine) :
    checkCall callee count paren m =
      match m.heap.arity? callee with
      | none => Run.fail .notCallable paren m
      | some arity =>
        if count ≠ arity then Run.fail (.wrongArgumentCount arity count) paren m
        else if maxCallDepth ≤ m.callDepth then Run.fail .stackOverflow paren m
        else .ok () m := by
  unfold checkCall
  rw [Run.ask_bind]
  cases m.heap.arity? callee with
  | none => rfl
  | some arity =>
    rw [Run.orElseFail_some, Run.pure_bind]
    dsimp only
    split
    · rfl
    · rw [Run.ask_bind]
      split <;> rfl

/-- A call that is let through changes nothing yet, and there is room for it. -/
theorem Eval.checkCall_ends (callee : Value) (count : Nat) (paren : Span) (m : Machine) :
    Ends (checkCall callee count paren) m
      (fun _ m' => m' = m ∧ m.callDepth < maxCallDepth ∧ m.heap.arity? callee = some count)
      fun _ m' => m' = m := by
  unfold Ends
  rw [checkCall_eq]
  cases m.heap.arity? callee with
  | none => rfl
  | some arity =>
    dsimp only
    by_cases hcount : count ≠ arity
    · rw [if_pos hcount]; rfl
    · rw [if_neg hcount]
      by_cases hdepth : maxCallDepth ≤ m.callDepth
      · rw [if_pos hdepth]; rfl
      · have hsame : count = arity := by omega
        rw [if_neg hdepth, hsame]
        exact ⟨rfl, by omega, rfl⟩

namespace Watch

variable {α β : Type}

/-- What holds of the call depth at a point of an evaluation that began at depth `base`. -/
structure Point.Deep (base : Nat) (p : Point) : Prop where
  depth : p.machine.callDepth = base + p.scene.calls.length
  bounded : p.machine.callDepth ≤ maxCallDepth

/-- What holds of it where `active` calls are being run, there and at the points before. -/
structure Record.Deep (base active : Nat) (t : Record) : Prop where
  depth : t.machine.callDepth = base + active
  bounded : t.machine.callDepth ≤ maxCallDepth
  points : ∀ p ∈ t.points, p.Deep base

/-- A watched computation that counts calls rightly and comes back to where it began. -/
structure Balanced (base active : Nat) (w : Watched α) : Prop where
  ends : ∀ t, t.Deep base active →
    Ends w t (fun _ u => t.machine.Steady u.machine ∧ u.Deep base active)
      fun _ u => t.machine.Steady u.machine ∧ u.Deep base active

variable {base active : Nat}

theorem Record.Deep.of_steady {t u : Record} (h : t.Deep base active)
    (hm : t.machine.Steady u.machine) (hp : u.points = t.points) : u.Deep base active :=
  ⟨hm.callDepth.trans h.depth, hm.callDepth ▸ h.bounded, hp ▸ h.points⟩

theorem balanced_pure (a : α) : Balanced base active (pure a) := ⟨fun _ h => ⟨.refl _, h⟩⟩

theorem balanced_lift {r : Run α} (h : r.Keeps) : Balanced base active (lift r) := by
  constructor
  intro t ht
  rw [ends_lift]
  exact (h.ends t.machine).imp (fun _ _ hm => ⟨hm, ht.of_steady hm rfl⟩)
    fun _ _ hm => ⟨hm, ht.of_steady hm rfl⟩

theorem balanced_settle (count : Nat) (home : Home) : Balanced base active (settle count home) :=
  ⟨fun _ h => ⟨.refl _, h.of_steady (.refl _) rfl⟩⟩

theorem balanced_complete (name : String) : Balanced base active (complete name) :=
  ⟨fun _ h => ⟨.refl _, h.of_steady (.refl _) rfl⟩⟩

theorem balanced_homeOf (f : FunctionId) : Balanced base active (homeOf f) :=
  ⟨fun _ h => ⟨.refl _, h⟩⟩

theorem balanced_nextFrame : Balanced base active nextFrame := ⟨fun _ h => ⟨.refl _, h⟩⟩

/-- A point is written down as deep as the computation is there. -/
theorem balanced_mark (here : Scene) (event : Event) :
    Balanced base here.calls.length (mark here event) := by
  constructor
  intro t ht
  refine ⟨.refl _, ht.depth, ht.bounded, fun p hp => ?_⟩
  rcases Array.mem_push.mp hp with hp | rfl
  · exact ht.points p hp
  · exact ⟨ht.depth, ht.bounded⟩

theorem Balanced.bind {w : Watched α} {k : α → Watched β} (h : Balanced base active w)
    (hk : ∀ a, Balanced base active (k a)) : Balanced base active (w >>= k) := by
  constructor
  intro t ht
  rw [ends_bind]
  refine (h.ends t ht).imp (fun a u hu => ?_) fun _ _ hu => hu
  exact ((hk a).ends u hu.2).imp (fun _ _ hv => ⟨hu.1.trans hv.1, hv.2⟩)
    fun _ _ hv => ⟨hu.1.trans hv.1, hv.2⟩

theorem Balanced.within {w : Watched α} (h : Balanced base active w) (frame : FrameId) :
    Balanced base active (within frame w) := by
  constructor
  intro t ht
  rw [ends_within]
  have hw := h.ends { t with machine := { t.machine with current := frame } }
    ⟨ht.depth, ht.bounded, ht.points⟩
  exact hw.imp
    (fun _ _ hu => ⟨⟨rfl, hu.1.callDepth, hu.1.globals, hu.1.resolutions, hu.1.host⟩,
      hu.2.depth, hu.2.bounded, hu.2.points⟩)
    fun _ _ hu => ⟨⟨rfl, hu.1.callDepth, hu.1.globals, hu.1.resolutions, hu.1.host⟩,
      hu.2.depth, hu.2.bounded, hu.2.points⟩

/-- What is called runs one call deeper, and only when there is room for it. -/
theorem Balanced.called {w : Watched α} (h : Balanced base (active + 1) w) (callee : Value)
    (count : Nat) (paren : Span) :
    Balanced base active (do
      lift (Eval.checkCall callee count paren)
      asCall w) := by
  constructor
  intro t ht
  rw [ends_bind, ends_lift]
  refine (Eval.checkCall_ends callee count paren t.machine).imp (fun _ m hm => ?_)
    fun _ m hm => by subst hm; exact ⟨.refl _, ht⟩
  obtain ⟨rfl, hroom, -⟩ := hm
  rw [ends_asCall]
  have hw := h.ends { t with machine := { t.machine with callDepth := t.machine.callDepth + 1 } }
    ⟨by have := ht.depth; simp only; omega, hroom, ht.points⟩
  exact hw.imp
    (fun _ _ hu => ⟨⟨hu.1.current, rfl, hu.1.globals, hu.1.resolutions, hu.1.host⟩,
      ht.depth, ht.bounded, hu.2.points⟩)
    fun _ _ hu => ⟨⟨hu.1.current, rfl, hu.1.globals, hu.1.resolutions, hu.1.host⟩,
      ht.depth, ht.bounded, hu.2.points⟩

/-! ## The parts of evaluation without recursion -/

theorem balanced_readVariable (here : Scene) (id : Nat) (name : String) (span : Span) :
    Balanced base here.calls.length (readVariable here id name span) :=
  .bind (balanced_mark ..) fun _ => balanced_lift (Run.keeps_stepwise.readVariable ..)

theorem balanced_writeVariable (here : Scene) (target : Reference) (value : Value) :
    Balanced base here.calls.length (writeVariable here target value) :=
  .bind (balanced_mark ..) fun _ => balanced_lift (Eval.keeps_writeVariable ..)

theorem balanced_closure (ribs : List Rib) (name : Option String) (fn : Lambda) :
    Balanced base active (closure ribs name fn) :=
  .bind (balanced_lift (Eval.keeps_closure ..)) fun _ =>
    .bind (balanced_settle ..) fun _ => balanced_pure _

theorem balanced_boundMethod (found : Option FunctionId) (i : InstanceId) (name : Ident) :
    Balanced base active (boundMethod found i name) :=
  .bind balanced_nextFrame fun _ => .bind (balanced_homeOf _) fun _ =>
    .bind (balanced_lift (Eval.keeps_boundMethod ..)) fun _ =>
      .bind (balanced_settle ..) fun _ => balanced_pure _

theorem balanced_property (object : Value) (name : Ident) :
    Balanced base active (property object name) := by
  cases object with
  | instance_ i =>
    refine .bind (balanced_lift (Run.keeps_ask _)) fun field => ?_
    cases field with
    | some value => exact balanced_pure value
    | none =>
      exact .bind (balanced_lift (Run.keeps_ask _)) fun _ => balanced_boundMethod ..
  | _ => exact balanced_lift (Run.keeps_fail .propertyOfNonInstance name.span)

theorem balanced_superMethod (here : Scene) (id : Nat) (keyword : Span) (method : Ident) :
    Balanced base here.calls.length (superMethod here id keyword method) := by
  refine .bind (balanced_mark ..) fun _ => ?_
  refine .bind (balanced_lift (Run.keeps_ask _)) fun _ => ?_
  refine .bind (balanced_lift (Run.keeps_stepwise.orElseFail ..)) fun hops => ?_
  refine .bind (balanced_lift (Run.keeps_stepwise.superClass ..)) fun c => ?_
  refine .bind (balanced_lift (Run.keeps_stepwise.superInstance ..)) fun i => ?_
  exact .bind (balanced_lift (Run.keeps_ask _)) fun _ => balanced_boundMethod ..

theorem balanced_superclassOf (here : Scene) (superclass : Option Reference) :
    Balanced base here.calls.length (superclassOf here superclass) := by
  cases superclass with
  | none => exact balanced_pure none
  | some target =>
    refine .bind (balanced_readVariable ..) fun v => ?_
    cases v with
    | class_ c => exact balanced_pure (some c)
    | _ => exact balanced_lift (Run.keeps_fail ..)

theorem balanced_declareClass (here : Scene) (name : Ident) (superclass : Option Reference)
    (methods : List Method) :
    Balanced base here.calls.length (declareClass here name superclass methods) := by
  refine .bind (balanced_superclassOf ..) fun parent => ?_
  refine .bind (balanced_lift (Run.keeps_define ..)) fun _ => ?_
  refine .bind (balanced_lift (Run.keeps_stepwise.methodFrame _)) fun frame => ?_
  refine .bind (balanced_lift (Run.keeps_onHeap _)) fun table => ?_
  refine .bind (balanced_settle ..) fun _ => ?_
  exact .bind (balanced_lift (Run.keeps_onHeap _)) fun _ => balanced_lift (Run.keeps_define ..)

@[simp] theorem calls_declare (here : Scene) (name : String) :
    (here.declare name).calls = here.calls := by
  unfold Scene.declare
  split <;> rfl

@[simp] theorem calls_initializing (here : Scene) (name : String) :
    (here.initializing name).calls = here.calls := by
  unfold Scene.initializing
  split <;> rfl

@[simp] theorem calls_after (here : Scene) (s : Stmt) : (here.after s).calls = here.calls := by
  unfold Scene.after
  split
  · exact calls_declare ..
  · rfl

/-! ## Evaluation -/

/-- Within a bound on steps, evaluation is balanced. -/
structure BalancedWithin (base fuel : Nat) : Prop where
  expr : ∀ here e, Balanced base here.calls.length (Watch.expr fuel here e)
  exprs : ∀ here es, Balanced base here.calls.length (Watch.exprs fuel here es)
  call : ∀ here f args paren, Balanced base here.calls.length (Watch.call fuel here f args paren)
  construct : ∀ here c args, Balanced base here.calls.length (Watch.construct fuel here c args)
  callFunction : ∀ here f args,
    Balanced base here.calls.length (Watch.callFunction fuel here f args)
  stmt : ∀ here s, Balanced base here.calls.length (Watch.stmt fuel here s)
  stmts : ∀ here ss, Balanced base here.calls.length (Watch.stmts fuel here ss)

variable {fuel : Nat}

theorem balanced_expr_step (ih : BalancedWithin base fuel) (here : Scene) (e : Expr) :
    Balanced base here.calls.length (Watch.expr (fuel + 1) here e) := by
  rw [Watch.expr.eq_def]
  refine .bind (balanced_mark ..) fun _ => ?_
  cases e with
  | literal value _ => exact balanced_pure value.value
  | grouping inner _ => exact ih.expr here inner
  | unary op opSpan operand =>
    exact .bind (ih.expr here operand) fun _ => balanced_lift (Run.keeps_stepwise.orFail ..)
  | binary left op opSpan right =>
    exact .bind (ih.expr here left) fun _ => .bind (ih.expr here right) fun _ =>
      balanced_lift (Run.keeps_stepwise.orFail ..)
  | logical left op _ right =>
    refine .bind (ih.expr here left) fun a => ?_
    split
    · exact balanced_pure a
    · exact ih.expr here right
  | var target => exact balanced_readVariable ..
  | assign target value =>
    refine .bind (ih.expr here value) fun v => ?_
    exact .bind (balanced_writeVariable ..) fun _ => balanced_pure v
  | call callee paren arguments =>
    refine .bind (ih.expr here callee) fun f => .bind (ih.exprs here arguments) fun args => ?_
    exact .called (ih.call (here.calling (.call callee paren arguments)) f args paren) ..
  | get object name => exact .bind (ih.expr here object) fun _ => balanced_property ..
  | set object name value =>
    refine .bind (ih.expr here object) fun _ => ?_
    refine .bind (balanced_lift (Run.keeps_stepwise.fieldOwner ..)) fun _ => ?_
    refine .bind (ih.expr here value) fun v => ?_
    exact .bind (balanced_lift (Run.keeps_onHeap _)) fun _ => balanced_pure v
  | this id span => exact balanced_readVariable ..
  | super id keyword method => exact balanced_superMethod ..
  | lambda fn => exact balanced_closure ..

theorem balanced_exprs_step (ih : BalancedWithin base fuel) (here : Scene) (es : List Expr) :
    Balanced base here.calls.length (Watch.exprs (fuel + 1) here es) := by
  cases es with
  | nil => rw [Watch.exprs]; exact balanced_pure []
  | cons e es =>
    rw [Watch.exprs]
    exact .bind (ih.expr here e) fun _ => .bind (ih.exprs here es) fun _ => balanced_pure _

theorem balanced_call_step (ih : BalancedWithin base fuel) (here : Scene) (callee : Value)
    (args : List Value) (paren : Span) :
    Balanced base here.calls.length (Watch.call (fuel + 1) here callee args paren) := by
  rw [Watch.call.eq_def]
  refine .bind (balanced_mark ..) fun _ => ?_
  cases callee with
  | native n => exact balanced_lift (Run.keeps_callNative ..)
  | function f =>
    refine .bind (balanced_lift (Run.keeps_ask _)) fun _ => ?_
    refine .bind (balanced_lift (Run.keeps_stepwise.orElseFail ..)) fun object => ?_
    exact .bind (balanced_homeOf f) fun home =>
      ih.callFunction { here with ribs := home.ribs } object args
  | class_ c => exact ih.construct here c args
  | _ => exact balanced_lift (Run.keeps_fail ..)

theorem balanced_construct_step (ih : BalancedWithin base fuel) (here : Scene) (c : ClassId)
    (args : List Value) :
    Balanced base here.calls.length (Watch.construct (fuel + 1) here c args) := by
  rw [Watch.construct]
  refine .bind (balanced_lift (Run.keeps_onHeap _)) fun i => ?_
  refine .bind (balanced_lift (Run.keeps_ask _)) fun found => ?_
  refine .bind (balanced_lift (Run.keeps_ask _)) fun method? => ?_
  cases method? with
  | none => exact balanced_pure _
  | some method =>
    refine .bind (balanced_homeOf _) fun home => .bind balanced_nextFrame fun frame => ?_
    refine .bind (balanced_lift (Run.keeps_onHeap _)) fun bound => ?_
    exact .bind (ih.callFunction { here with ribs := receiverRib i frame :: home.ribs } bound args)
      fun _ => balanced_pure _

theorem balanced_callFunction_step (ih : BalancedWithin base fuel) (here : Scene)
    (f : FunctionObject) (args : List Value) :
    Balanced base here.calls.length (Watch.callFunction (fuel + 1) here f args) := by
  rw [Watch.callFunction]
  refine .bind (balanced_lift (Run.keeps_onHeap _)) fun frame => ?_
  exact .bind (.within (ih.stmts (here.enter (callRib f.fn frame)) f.fn.body) frame) fun _ =>
    balanced_lift (Run.keeps_stepwise.callResult ..)

theorem balanced_stmt_step (ih : BalancedWithin base fuel) (here : Scene) (s : Stmt) :
    Balanced base here.calls.length (Watch.stmt (fuel + 1) here s) := by
  rw [Watch.stmt.eq_def]
  dsimp only
  refine .bind (balanced_mark ..) fun _ => ?_
  cases s with
  | expression value => exact .bind (ih.expr here value) fun _ => balanced_pure _
  | print value =>
    refine .bind (ih.expr here value) fun _ => .bind (balanced_lift (Run.keeps_ask _)) fun _ => ?_
    exact .bind (balanced_lift (Run.keeps_writeLine _)) fun _ => balanced_pure _
  | var name initializer =>
    cases initializer with
    | none =>
      refine .bind (balanced_lift (Run.keeps_define ..)) fun _ => ?_
      exact .bind (balanced_complete _) fun _ => balanced_pure _
    | some initializer =>
      have hvalue := ih.expr (here.initializing name.text) initializer
      rw [calls_initializing] at hvalue
      refine .bind hvalue fun v => .bind (balanced_lift (Run.keeps_define ..)) fun _ => ?_
      exact .bind (balanced_complete _) fun _ => balanced_pure _
  | block body =>
    refine .bind (balanced_lift (Run.keeps_ask _)) fun outer => ?_
    refine .bind (balanced_lift (Run.keeps_onHeap _)) fun frame => ?_
    exact .within (ih.stmts (here.enter ⟨.block body, [], none, frame⟩) body) frame
  | ifElse condition thenBranch elseBranch =>
    refine .bind (ih.expr here condition) fun v => ?_
    split
    · exact ih.stmt here thenBranch
    · cases elseBranch with
      | some branch => exact ih.stmt here branch
      | none => exact balanced_pure _
  | while_ condition body =>
    refine .bind (ih.expr here condition) fun v => ?_
    split
    · refine .bind (ih.stmt here body) fun flow => ?_
      cases flow with
      | normal => exact ih.stmt here (.while_ condition body)
      | break_ => exact balanced_pure _
      | return_ value => exact balanced_pure _
    · exact balanced_pure _
  | break_ _ => exact balanced_pure _
  | return_ _ value =>
    cases value with
    | none => exact balanced_pure _
    | some value => exact .bind (ih.expr here value) fun _ => balanced_pure _
  | function name fn =>
    exact .bind (balanced_closure ..) fun _ => .bind (balanced_lift (Run.keeps_define ..)) fun _ =>
      balanced_pure _
  | class_ name superclass methods =>
    have hclass : Balanced base (here.declare name.text).calls.length
        (declareClass (here.declare name.text) name superclass methods) := balanced_declareClass ..
    rw [calls_declare] at hclass
    exact .bind hclass fun _ => balanced_pure _

theorem balanced_stmts_step (ih : BalancedWithin base fuel) (here : Scene) (ss : List Stmt) :
    Balanced base here.calls.length (Watch.stmts (fuel + 1) here ss) := by
  cases ss with
  | nil => rw [Watch.stmts]; exact balanced_pure _
  | cons s rest =>
    rw [Watch.stmts]
    refine .bind (ih.stmt here s) fun flow => ?_
    cases flow with
    | normal =>
      have hrest := ih.stmts (here.after s) rest
      rwa [calls_after] at hrest
    | break_ => exact balanced_pure _
    | return_ value => exact balanced_pure _

/-- Evaluation is balanced. -/
theorem balancedWithin (base fuel : Nat) : BalancedWithin base fuel := by
  induction fuel with
  | zero =>
    constructor <;> intros
    · rw [Watch.expr]; exact balanced_lift Run.keeps_exhaust
    · rw [Watch.exprs]; exact balanced_lift Run.keeps_exhaust
    · rw [Watch.call]; exact balanced_lift Run.keeps_exhaust
    · rw [Watch.construct]; exact balanced_lift Run.keeps_exhaust
    · rw [Watch.callFunction]; exact balanced_lift Run.keeps_exhaust
    · rw [Watch.stmt]; exact balanced_lift Run.keeps_exhaust
    · rw [Watch.stmts]; exact balanced_lift Run.keeps_exhaust
  | succ fuel ih =>
    exact ⟨balanced_expr_step ih, balanced_exprs_step ih, balanced_call_step ih,
      balanced_construct_step ih, balanced_callFunction_step ih, balanced_stmt_step ih,
      balanced_stmts_step ih⟩

end Watch
end Lox
