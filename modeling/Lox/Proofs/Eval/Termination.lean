import Lox.Proofs.Eval.Bodies
import Lox.Proofs.Eval.Fuel

/-! # Without loops, everything ends

Without loops, a computation goes on only into the parts of the text that it
runs and into the bodies of functions that it calls. There are only so many
calls that can be active, and every text is finite. So some number of steps is
enough, for functions that call each other without end, too: what they end in is
an error. -/

namespace Lox

namespace LoopFree

mutual

/-- There is no loop in an expression, also not in its functions. -/
def expr : Expr → Prop
  | .literal .. | .var _ | .this .. | .super .. => True
  | .grouping inner _ => expr inner
  | .unary _ _ operand => expr operand
  | .binary left _ _ right => expr left ∧ expr right
  | .logical left _ _ right => expr left ∧ expr right
  | .assign _ value => expr value
  | .call callee _ arguments => expr callee ∧ exprs arguments
  | .get object _ => expr object
  | .set object _ value => expr object ∧ expr value
  | .lambda fn => lambda fn

def exprs : List Expr → Prop
  | [] => True
  | e :: es => expr e ∧ exprs es

def lambda : Lambda → Prop
  | ⟨_, body, _⟩ => stmts body

/-- There is no loop in a statement, also not in its functions. -/
def stmt : Stmt → Prop
  | .expression value => expr value
  | .print value => expr value
  | .var _ none => True
  | .var _ (some value) => expr value
  | .block body => stmts body
  | .ifElse condition thenBranch none => expr condition ∧ stmt thenBranch
  | .ifElse condition thenBranch (some elseBranch) =>
    expr condition ∧ stmt thenBranch ∧ stmt elseBranch
  | .while_ _ _ => False
  | .break_ _ => True
  | .return_ _ none => True
  | .return_ _ (some value) => expr value
  | .function _ fn => lambda fn
  | .class_ _ _ declared => methods declared

def stmts : List Stmt → Prop
  | [] => True
  | s :: ss => stmt s ∧ stmts ss

def methods : List Method → Prop
  | [] => True
  | ⟨_, fn⟩ :: ms => lambda fn ∧ methods ms

end

theorem body {fn : Lambda} (h : lambda fn) : stmts fn.body := by
  cases fn
  exact h

theorem methods_iff {ms : List Method} : methods ms ↔ ∀ m ∈ ms, lambda m.fn := by
  induction ms with
  | nil => simp [methods]
  | cons m ms ih =>
    cases m
    simp [methods, ih]

end LoopFree

namespace Run

/-- A function without loops whose text is not larger than `size`. -/
structure Small (size : Nat) (fn : Lambda) : Prop where
  loopFree : LoopFree.lambda fn
  sizeOf_le : sizeOf fn ≤ size

/-- So many calls are active, and all functions are small. -/
structure Ready (size depth : Nat) (m : Machine) : Prop where
  callDepth : m.callDepth = depth
  made : m.heap.Made (Small size)

/-- From such a state a computation does not reach its bound on steps, and it leads to such a state. -/
structure Halts (size depth : Nat) {α : Type} (r : Run α) : Prop where
  ends : ∀ m, Ready size depth m →
    Ends r m (fun _ m' => Ready size depth m') fun stop m' => stop ≠ .outOfFuel ∧ Ready size depth m'

variable {size depth : Nat} {α β : Type}

theorem failed_ne_outOfFuel (d : Diagnostic) : Stop.failed d ≠ .outOfFuel := fun h => by cases h

/-- A computation that has no bound on its steps. -/
theorem Halts.of_unbounded {r : Run α} (hkeeps : Keeps r) (hmakes : Makes (Small size) r)
    (hr : ∀ m, Ends r m (fun _ _ => True) fun stop _ => stop ≠ .outOfFuel) :
    Halts size depth r := by
  constructor
  intro m hm
  refine (((hkeeps.ends m).and (hmakes.ends m hm.made)).and (hr m)).imp ?_ ?_
  · rintro a m' ⟨⟨hsteady, hmade⟩, -⟩
    exact ⟨hsteady.callDepth.trans hm.callDepth, hmade⟩
  · rintro stop m' ⟨⟨hsteady, hmade⟩, hstop⟩
    exact ⟨hstop, hsteady.callDepth.trans hm.callDepth, hmade⟩

theorem Halts.bind {r : Run α} {k : α → Run β} (h : Halts size depth r)
    (hk : ∀ a, Halts size depth (k a)) : Halts size depth (r >>= k) := by
  constructor
  intro m hm
  rw [ends_bind]
  exact (h.ends m hm).imp (fun a m' hm' => (hk a).ends m' hm') fun _ _ hm' => hm'

theorem halts_onHeap {f : Heap → α × Heap}
    (hf : ∀ h, h.Made (Small size) → (f h).2.Made (Small size)) : Halts size depth (onHeap f) :=
  ⟨fun m hm => ⟨hm.callDepth, hf m.heap hm.made⟩⟩

theorem halts_stepwise (size depth : Nat) : Stepwise fun _ r => Halts size depth r where
  pure _ := ⟨fun _ hm => hm⟩
  fail _ _ := ⟨fun _ hm => ⟨failed_ne_outOfFuel _, hm⟩⟩
  ask _ := ⟨fun _ hm => hm⟩
  onHeap hf := .of_unbounded (keeps_onHeap _) ((makes_stepwise _).onHeap hf) fun _ => trivial
  define _ _ := ⟨fun _ hm => ⟨hm.callDepth, hm.made⟩⟩
  bind := .bind

theorem halts_writeLine (text : String) : Halts size depth (writeLine text) := by
  refine .of_unbounded (keeps_writeLine text) (makes_writeLine text) fun m => ?_
  unfold Ends writeLine
  cases m.sink.writeLine text with
  | mk step sink =>
    cases step with
    | none => exact trivial
    | some step => exact failed_ne_outOfFuel _

theorem halts_callNative (id : NativeId) (args : List Value) (paren : Span) :
    Halts size depth (callNative id args paren) := by
  refine .of_unbounded (keeps_callNative ..) (makes_callNative ..) fun m => ?_
  unfold Ends callNative
  cases m.host[id.index]? with
  | none => exact failed_ne_outOfFuel _
  | some code =>
    dsimp only
    cases code ⟨m.heap, m.clock.reading m.clock.reads⟩ args with
    | ok value => exact trivial
    | error words => exact failed_ne_outOfFuel _

theorem Halts.within {r : Run α} (h : Halts size depth r) (frame : FrameId) :
    Halts size depth (within frame r) := by
  constructor
  intro m hm
  rw [ends_within]
  exact (h.ends { m with current := frame } ⟨hm.callDepth, hm.made⟩).imp
    (fun _ _ hm' => ⟨hm'.callDepth, hm'.made⟩)
    fun _ _ hm' => ⟨hm'.1, hm'.2.callDepth, hm'.2.made⟩

/-- One more call is active. -/
theorem Halts.asCall {r : Run α} (h : Halts size (depth + 1) r) : Halts size depth (asCall r) := by
  constructor
  intro m hm
  rw [ends_asCall]
  exact (h.ends { m with callDepth := m.callDepth + 1 }
      ⟨congrArg (· + 1) hm.callDepth, hm.made⟩).imp
    (fun _ _ hm' => ⟨hm.callDepth, hm'.made⟩)
    fun _ _ hm' => ⟨hm'.1, hm.callDepth, hm'.2.made⟩

/-- Once errors are results, there is always a result. -/
theorem Halts.attempt {r : Run α} (h : Halts size depth r) {m : Machine} (hm : Ready size depth m) :
    Ends (attempt r) m (fun _ m' => Ready size depth m') fun _ _ => False := by
  rw [ends_attempt]
  refine (h.ends m hm).imp (fun _ _ hm' => hm') ?_
  rintro stop m' ⟨hstop, hm'⟩
  cases stop with
  | failed d => exact hm'
  | outOfFuel => exact hstop rfl

/-- What is known of the state carries over to what a computation goes on with. -/
theorem halts_ask {f : Machine → α} {k : α → Run β}
    (hk : ∀ m, m.heap.Made (Small size) → Halts size depth (k (f m))) :
    Halts size depth (ask f >>= k) :=
  ⟨fun m hm => (hk m hm.made).ends m hm⟩

/-- No more calls can be active than `maxCallDepth`. -/
theorem checkCall_of_deep {m : Machine} (hdeep : maxCallDepth ≤ m.callDepth) (callee : Value)
    (count : Nat) (paren : Span) : ∃ d, Eval.checkCall callee count paren m = .error (.failed d) m := by
  unfold Eval.checkCall
  rw [ask_bind]
  cases m.heap.arity? callee with
  | none => exact ⟨_, rfl⟩
  | some arity =>
    rw [orElseFail_some, pure_bind]
    by_cases hcount : count ≠ arity
    · rw [if_pos hcount]
      exact ⟨_, rfl⟩
    · rw [if_neg hcount, ask_bind, if_pos hdeep]
      exact ⟨_, rfl⟩

/-- What follows upon the check of a call need halt only if one more call can be active. -/
theorem halts_checkCall {k : Run α} (callee : Value) (count : Nat) (paren : Span)
    (hk : depth < maxCallDepth → Halts size depth k) :
    Halts size depth (Eval.checkCall callee count paren >>= fun _ => k) := by
  by_cases hdepth : depth < maxCallDepth
  · exact ((halts_stepwise size depth).checkCall ..).bind fun _ => hk hdepth
  · constructor
    intro m hm
    have hdeep : maxCallDepth ≤ m.callDepth := hm.callDepth ▸ Nat.le_of_not_lt hdepth
    obtain ⟨d, hcheck⟩ := checkCall_of_deep hdeep callee count paren
    exact (ends_of_error (bind_of_error hcheck)).mpr ⟨failed_ne_outOfFuel d, hm⟩

end Run

namespace Eval
open Run

theorem halts_writeVariable {size depth : Nat} (target : Reference) (value : Value) :
    Halts size depth (writeVariable target value) := by
  refine .of_unbounded (keeps_writeVariable ..) (makes_writeVariable ..) fun m => ?_
  unfold Ends writeVariable
  cases m.bindingFrame? target.id target.name.text with
  | none => exact failed_ne_outOfFuel _
  | some frame => exact trivial

theorem halts_closure {size depth : Nat} (name : Option String) {fn : Lambda} (hfn : Small size fn) :
    Halts size depth (closure name fn) :=
  .of_unbounded (keeps_closure name fn) (makes_closure name hfn) fun _ => trivial

/-- A method that is bound keeps its text. -/
theorem halts_bindMethod {size depth : Nat} {α : Type} (method : FunctionObject) (i : InstanceId)
    {k : FunctionObject → Run α} (hk : ∀ bound, bound.fn = method.fn → Halts size depth (k bound)) :
    Halts size depth (onHeap (·.bind method i) >>= k) := by
  constructor
  intro m hm
  exact (hk (m.heap.bind method i).1 rfl).ends { m with heap := (m.heap.bind method i).2 }
    ⟨hm.callDepth, hm.made⟩

theorem halts_boundMethod {size depth : Nat} (found : Option FunctionId) (i : InstanceId)
    (name : Ident) : Halts size depth (boundMethod found i name) := by
  refine halts_ask fun m hm => ?_
  cases hfound : found.bind m.heap.function? with
  | none => exact (halts_stepwise size depth).fail ..
  | some method =>
    obtain ⟨f, -, hf⟩ := Option.bind_eq_some_iff.mp hfound
    have hmethod : Small size method.fn := hm.function hf
    show Halts size depth (onHeap (·.bind method i) >>= fun bound =>
      onHeap (·.newFunction bound) >>= fun id => pure (Value.function id))
    refine halts_bindMethod method i fun bound hbound => ?_
    exact (halts_onHeap fun _ hh => hh.newFunction (hbound ▸ hmethod)).bind
      fun _ => (halts_stepwise size depth).pure _

/-- The steps that are enough for the calls that can still become active. -/
def slack (size depth : Nat) : Nat := (maxCallDepth - depth) * (size + 4)

/-- So many steps are enough for texts without loops. -/
structure Halting (size fuel : Nat) : Prop where
  expr : ∀ e depth, LoopFree.expr e → sizeOf e ≤ size → sizeOf e + slack size depth ≤ fuel →
    Halts size depth (Eval.expr fuel e)
  exprs : ∀ es depth, LoopFree.exprs es → sizeOf es ≤ size → sizeOf es + slack size depth ≤ fuel →
    Halts size depth (Eval.exprs fuel es)
  call : ∀ callee args paren depth, size + 3 + slack size depth ≤ fuel →
    Halts size depth (Eval.call fuel callee args paren)
  construct : ∀ c args depth, size + 2 + slack size depth ≤ fuel →
    Halts size depth (Eval.construct fuel c args)
  callFunction : ∀ f args depth, Small size f.fn → size + 1 + slack size depth ≤ fuel →
    Halts size depth (Eval.callFunction fuel f args)
  stmt : ∀ s depth, LoopFree.stmt s → sizeOf s ≤ size → sizeOf s + slack size depth ≤ fuel →
    Halts size depth (Eval.stmt fuel s)
  stmts : ∀ ss depth, LoopFree.stmts ss → sizeOf ss ≤ size → sizeOf ss + slack size depth ≤ fuel →
    Halts size depth (Eval.stmts fuel ss)

variable {size fuel depth : Nat}

theorem slack_of_lt (h : depth < maxCallDepth) :
    slack size depth = size + 4 + slack size (depth + 1) := by
  unfold slack
  rw [show maxCallDepth - depth = maxCallDepth - (depth + 1) + 1 by omega, Nat.succ_mul,
    Nat.add_comm]

theorem halts_expr (ih : Halting size fuel) (e : Expr) (he : LoopFree.expr e)
    (hsize : sizeOf e ≤ size) (hfuel : sizeOf e + slack size depth ≤ fuel + 1) :
    Halts size depth (Eval.expr (fuel + 1) e) := by
  have steps := halts_stepwise size depth
  cases e with
  | literal value _ => exact steps.pure value.value
  | grouping inner _ =>
    simp only [Expr.grouping.sizeOf_spec] at hsize hfuel
    exact ih.expr inner depth he (by omega) (by omega)
  | unary op opSpan operand =>
    simp only [Expr.unary.sizeOf_spec] at hsize hfuel
    exact (ih.expr operand depth he (by omega) (by omega)).bind fun _ => steps.orFail ..
  | binary left op opSpan right =>
    simp only [Expr.binary.sizeOf_spec] at hsize hfuel
    exact (ih.expr left depth he.1 (by omega) (by omega)).bind fun _ =>
      (ih.expr right depth he.2 (by omega) (by omega)).bind fun _ => steps.orFail ..
  | logical left op opSpan right =>
    simp only [Expr.logical.sizeOf_spec] at hsize hfuel
    refine (ih.expr left depth he.1 (by omega) (by omega)).bind fun a => ?_
    by_cases hsettled : op.settledBy a = true
    · rw [if_pos hsettled]
      exact steps.pure a
    · rw [if_neg hsettled]
      exact ih.expr right depth he.2 (by omega) (by omega)
  | var target => exact steps.readVariable ..
  | assign target value =>
    simp only [Expr.assign.sizeOf_spec] at hsize hfuel
    exact (ih.expr value depth he (by omega) (by omega)).bind fun v =>
      (halts_writeVariable target v).bind fun _ => steps.pure v
  | call callee paren arguments =>
    simp only [Expr.call.sizeOf_spec] at hsize hfuel
    refine (ih.expr callee depth he.1 (by omega) (by omega)).bind fun f => ?_
    refine (ih.exprs arguments depth he.2 (by omega) (by omega)).bind fun args => ?_
    refine halts_checkCall f args.length paren fun hdepth => ?_
    rw [slack_of_lt hdepth] at hfuel
    exact (ih.call f args paren (depth + 1) (by omega)).asCall
  | get object name =>
    simp only [Expr.get.sizeOf_spec] at hsize hfuel
    exact (ih.expr object depth he (by omega) (by omega)).bind fun o =>
      steps.property halts_boundMethod o name
  | set object name value =>
    simp only [Expr.set.sizeOf_spec] at hsize hfuel
    exact (ih.expr object depth he.1 (by omega) (by omega)).bind fun o =>
      (steps.fieldOwner o name).bind fun i =>
        (ih.expr value depth he.2 (by omega) (by omega)).bind fun v =>
          (steps.onHeap fun _ => rfl).bind fun _ => steps.pure v
  | this id span => exact steps.readVariable ..
  | super id keyword method => exact steps.superMethod halts_boundMethod ..
  | lambda fn =>
    simp only [Expr.lambda.sizeOf_spec] at hsize
    exact halts_closure none ⟨he, by omega⟩

theorem halts_exprs (ih : Halting size fuel) (es : List Expr) (hes : LoopFree.exprs es)
    (hsize : sizeOf es ≤ size) (hfuel : sizeOf es + slack size depth ≤ fuel + 1) :
    Halts size depth (Eval.exprs (fuel + 1) es) := by
  have steps := halts_stepwise size depth
  cases es with
  | nil => exact steps.pure []
  | cons e es =>
    simp only [List.cons.sizeOf_spec] at hsize hfuel
    exact (ih.expr e depth hes.1 (by omega) (by omega)).bind fun _ =>
      (ih.exprs es depth hes.2 (by omega) (by omega)).bind fun _ => steps.pure _

theorem halts_call (ih : Halting size fuel) (callee : Value) (args : List Value) (paren : Span)
    (hfuel : size + 3 + slack size depth ≤ fuel + 1) :
    Halts size depth (Eval.call (fuel + 1) callee args paren) := by
  have steps := halts_stepwise size depth
  cases callee with
  | native n => exact halts_callNative n args paren
  | function f =>
    refine halts_ask fun m hm => ?_
    cases hf : m.heap.function? f with
    | none => exact steps.fail ..
    | some object => exact ih.callFunction object args depth (hm.function hf) (by omega)
  | class_ c => exact ih.construct c args depth (by omega)
  | _ => exact steps.fail ..

theorem halts_construct (ih : Halting size fuel) (c : ClassId) (args : List Value)
    (hfuel : size + 2 + slack size depth ≤ fuel + 1) :
    Halts size depth (Eval.construct (fuel + 1) c args) := by
  have steps := halts_stepwise size depth
  refine (steps.onHeap fun _ => rfl).bind fun i => halts_ask fun m hm => ?_
  cases hfound : (m.heap.findMethod? c initializerName).bind m.heap.function? with
  | none => exact steps.pure (Value.instance_ i)
  | some method =>
    obtain ⟨f, -, hf⟩ := Option.bind_eq_some_iff.mp hfound
    have hmethod : Small size method.fn := hm.function hf
    refine halts_bindMethod method i fun bound hbound => ?_
    exact (ih.callFunction bound args depth (hbound ▸ hmethod) (by omega)).bind fun _ =>
      steps.pure (Value.instance_ i)

theorem halts_callFunction (ih : Halting size fuel) (f : FunctionObject) (args : List Value)
    (hf : Small size f.fn) (hfuel : size + 1 + slack size depth ≤ fuel + 1) :
    Halts size depth (Eval.callFunction (fuel + 1) f args) := by
  have steps := halts_stepwise size depth
  have hbody : sizeOf f.fn.body ≤ size := by
    have hle := hf.sizeOf_le
    cases hfn : f.fn with
    | mk params body span =>
      rw [hfn, Lambda.mk.sizeOf_spec] at hle
      show sizeOf body ≤ size
      omega
  refine (steps.onHeap fun _ => rfl).bind fun frame => ?_
  exact ((ih.stmts f.fn.body depth (LoopFree.body hf.loopFree) hbody (by omega)).within frame).bind
    fun flow => steps.callResult f flow

theorem small_methods {ms : List Method} (hms : ∀ m ∈ ms, LoopFree.lambda m.fn)
    (hsize : sizeOf ms ≤ size) : ∀ m ∈ ms, Small size m.fn := by
  intro m hmem
  refine ⟨hms m hmem, ?_⟩
  have hlt := List.sizeOf_lt_of_mem hmem
  cases m with
  | mk name fn =>
    rw [Method.mk.sizeOf_spec] at hlt
    show sizeOf fn ≤ size
    omega

theorem halts_stmt (ih : Halting size fuel) (s : Stmt) (hs : LoopFree.stmt s)
    (hsize : sizeOf s ≤ size) (hfuel : sizeOf s + slack size depth ≤ fuel + 1) :
    Halts size depth (Eval.stmt (fuel + 1) s) := by
  have steps := halts_stepwise size depth
  cases s with
  | expression value =>
    simp only [Stmt.expression.sizeOf_spec] at hsize hfuel
    exact (ih.expr value depth hs (by omega) (by omega)).bind fun _ => steps.pure Flow.normal
  | print value =>
    simp only [Stmt.print.sizeOf_spec] at hsize hfuel
    exact (ih.expr value depth hs (by omega) (by omega)).bind fun _ =>
      halts_ask fun _ _ => (halts_writeLine _).bind fun _ => steps.pure Flow.normal
  | var name initializer =>
    cases initializer with
    | none => exact (steps.define ..).bind fun _ => steps.pure Flow.normal
    | some value =>
      simp only [Stmt.var.sizeOf_spec, Option.some.sizeOf_spec] at hsize hfuel
      exact (ih.expr value depth hs (by omega) (by omega)).bind fun _ =>
        (steps.define ..).bind fun _ => steps.pure Flow.normal
  | block body =>
    simp only [Stmt.block.sizeOf_spec] at hsize hfuel
    exact halts_ask fun _ _ => (steps.onHeap fun _ => rfl).bind fun frame =>
      (ih.stmts body depth hs (by omega) (by omega)).within frame
  | ifElse condition thenBranch elseBranch =>
    simp only [Stmt.ifElse.sizeOf_spec] at hsize hfuel
    cases elseBranch with
    | none =>
      refine (ih.expr condition depth hs.1 (by omega) (by omega)).bind fun v => ?_
      by_cases htruthy : v.truthy = true
      · rw [if_pos htruthy]
        exact ih.stmt thenBranch depth hs.2 (by omega) (by omega)
      · rw [if_neg htruthy]
        exact steps.pure Flow.normal
    | some branch =>
      simp only [Option.some.sizeOf_spec] at hsize hfuel
      refine (ih.expr condition depth hs.1 (by omega) (by omega)).bind fun v => ?_
      by_cases htruthy : v.truthy = true
      · rw [if_pos htruthy]
        exact ih.stmt thenBranch depth hs.2.1 (by omega) (by omega)
      · rw [if_neg htruthy]
        exact ih.stmt branch depth hs.2.2 (by omega) (by omega)
  | while_ condition body => exact hs.elim
  | break_ keyword => exact steps.pure Flow.break_
  | return_ keyword value =>
    cases value with
    | none => exact steps.pure (Flow.return_ .nil)
    | some value =>
      simp only [Stmt.return_.sizeOf_spec, Option.some.sizeOf_spec] at hsize hfuel
      exact (ih.expr value depth hs (by omega) (by omega)).bind fun v => steps.pure (Flow.return_ v)
  | function name fn =>
    simp only [Stmt.function.sizeOf_spec] at hsize
    exact (halts_closure (some name.text) ⟨hs, by omega⟩).bind fun _ =>
      (steps.define ..).bind fun _ => steps.pure Flow.normal
  | class_ name superclass methods =>
    simp only [Stmt.class_.sizeOf_spec] at hsize
    have hmethods : ∀ m ∈ methods, Small size m.fn :=
      small_methods (LoopFree.methods_iff.mp hs) (by omega)
    exact (steps.declareClass name superclass fun frame =>
      halts_onHeap fun _ hh => hh.methodTable frame .empty hmethods).bind
        fun _ => steps.pure Flow.normal

theorem halts_stmts (ih : Halting size fuel) (ss : List Stmt) (hss : LoopFree.stmts ss)
    (hsize : sizeOf ss ≤ size) (hfuel : sizeOf ss + slack size depth ≤ fuel + 1) :
    Halts size depth (Eval.stmts (fuel + 1) ss) := by
  have steps := halts_stepwise size depth
  cases ss with
  | nil => exact steps.pure Flow.normal
  | cons s ss =>
    simp only [List.cons.sizeOf_spec] at hsize hfuel
    refine (ih.stmt s depth hss.1 (by omega) (by omega)).bind fun flow => ?_
    cases flow with
    | normal => exact ih.stmts ss depth hss.2 (by omega) (by omega)
    | break_ => exact steps.pure _
    | return_ value => exact steps.pure _

theorem sizeOf_expr_pos (e : Expr) : 0 < sizeOf e := by
  cases e <;> simp +arith

theorem sizeOf_stmt_pos (s : Stmt) : 0 < sizeOf s := by
  cases s <;> simp +arith

theorem sizeOf_list_pos {α : Type} [SizeOf α] (l : List α) : 0 < sizeOf l := by
  cases l <;> simp +arith

/-- Each step leads to a smaller text, or else makes one more call active. -/
theorem halting (size fuel : Nat) : Halting size fuel := by
  induction fuel with
  | zero =>
    exact {
      expr := fun e _ _ _ hfuel => absurd hfuel (by have := sizeOf_expr_pos e; omega)
      exprs := fun es _ _ _ hfuel => absurd hfuel (by have := sizeOf_list_pos es; omega)
      call := fun _ _ _ _ hfuel => absurd hfuel (by omega)
      construct := fun _ _ _ hfuel => absurd hfuel (by omega)
      callFunction := fun _ _ _ _ hfuel => absurd hfuel (by omega)
      stmt := fun s _ _ _ hfuel => absurd hfuel (by have := sizeOf_stmt_pos s; omega)
      stmts := fun ss _ _ _ hfuel => absurd hfuel (by have := sizeOf_list_pos ss; omega) }
  | succ fuel ih =>
    exact {
      expr := fun e _ => halts_expr ih e
      exprs := fun es _ => halts_exprs ih es
      call := fun callee args paren _ => halts_call ih callee args paren
      construct := fun c args _ => halts_construct ih c args
      callFunction := fun f args _ => halts_callFunction ih f args
      stmt := fun s _ => halts_stmt ih s
      stmts := fun ss _ => halts_stmts ih ss }

/-- A program without loops comes to its end within the slack. -/
theorem program_halts {ss : List Stmt} {m : Machine} (hss : LoopFree.stmts ss)
    (hsize : sizeOf ss ≤ size) (hfuel : sizeOf ss + slack size depth ≤ fuel)
    (hm : Ready size depth m) (flows : Array Flow) :
    Ends (program fuel flows ss) m (fun _ m' => Ready size depth m') fun _ _ => False := by
  induction ss generalizing m flows with
  | nil => exact hm
  | cons s ss ih =>
    simp only [List.cons.sizeOf_spec] at hsize hfuel
    have hs := (halting size fuel).stmt s depth hss.1 (by omega) (by omega)
    rw [program, ends_bind]
    refine (hs.attempt hm).imp (fun outcome m' hm' => ?_) fun _ _ h => h
    cases outcome with
    | ok flow => exact ih hss.2 (by omega) (by omega) hm' (flows.push flow)
    | error d => exact hm'

end Eval

/-- A heap bounds the size of the texts of its functions. -/
theorem Heap.Made.small {h : Heap} {size : Nat} (hmade : h.Made LoopFree.lambda)
    (hsize : sizeOf h.functions ≤ size) : h.Made (Run.Small size) := by
  intro f hf
  refine ⟨hmade f hf, ?_⟩
  have hlt := Array.sizeOf_lt_of_mem hf
  cases f with
  | mk name fn closure isInitializer =>
    rw [FunctionObject.mk.sizeOf_spec] at hlt
    show sizeOf fn ≤ size
    omega

theorem Heap.Made.loopFree {h : Heap} {size : Nat} (hmade : h.Made (Run.Small size)) :
    h.Made LoopFree.lambda := fun f hf => (hmade f hf).loopFree

/-- A program without loops comes to its end, in whatever state it is executed, if the functions
that are there have no loops either; and the functions that it leaves have none. -/
theorem loop_free_programs_end (m : Machine) (ss : List Stmt)
    (hheap : m.heap.Made LoopFree.lambda) (hss : LoopFree.stmts ss) :
    ∃ fuel completion m', m'.heap.Made LoopFree.lambda ∧
      ∀ fuel', fuel ≤ fuel' → Eval.program fuel' #[] ss m = .ok completion m' := by
  let size := sizeOf m.heap.functions + sizeOf ss
  let fuel := sizeOf ss + Eval.slack size m.callDepth
  have hmade := hheap.small (Nat.le_add_right (sizeOf m.heap.functions) (sizeOf ss))
  have hends := Eval.program_halts hss (Nat.le_add_left ..) (Nat.le_refl fuel) ⟨rfl, hmade⟩ #[]
  cases hrun : Eval.program fuel #[] ss m with
  | ok completion m' =>
    refine ⟨fuel, completion, m', (hends.of_ok hrun).made.loopFree, fun fuel' hle => ?_⟩
    have hprolongs := Eval.prolongs_of_le (r := fun fuel => Eval.program fuel #[] ss)
      (fun _ => Eval.prolongs_program ss #[]) hle
    exact (hprolongs.ends m).of_ok hrun
  | error stop m' => exact (hends.of_error hrun).elim

/-- Two functions call each other without end. -/
theorem loop_free_programs_end_mutual :
    let m := (Session.start .reliable fun _ => 0).machine
    let name (text : String) : Ident := ⟨text, .point 0⟩
    let callOf (text : String) : Stmt :=
      .expression (.call (.var ⟨0, name text⟩) (.point 0) [])
    let ss : List Stmt := [.function (name "f") ⟨[], [callOf "g"], .point 0⟩,
      .function (name "g") ⟨[], [callOf "f"], .point 0⟩, callOf "f"]
    m.heap.Made LoopFree.lambda ∧ LoopFree.stmts ss ∧
      ∃ fuel completion m', m'.heap.Made LoopFree.lambda ∧
        ∀ fuel', fuel ≤ fuel' → Eval.program fuel' #[] ss m = .ok completion m' := by
  intro m name callOf ss
  have hheap : m.heap.Made LoopFree.lambda := fun f hf => absurd hf (Array.not_mem_empty f)
  have hss : LoopFree.stmts ss := by
    simp [ss, callOf, LoopFree.stmts, LoopFree.stmt, LoopFree.lambda, LoopFree.expr, LoopFree.exprs]
  exact ⟨hheap, hss, loop_free_programs_end m ss hheap hss⟩

namespace Session

/-- An input without loops comes to its end. -/
theorem execute_halts {size depth fuel : Nat} {ss : List Stmt} {m : Machine}
    (hss : LoopFree.stmts ss) (hsize : sizeOf ss ≤ size)
    (hfuel : sizeOf ss + Eval.slack size depth ≤ fuel) (hm : Run.Ready size depth m) :
    Ends (execute fuel ss) m (fun _ m' => Run.Ready size depth m') fun _ _ => False := by
  rw [execute.eq_def]
  split
  · next e =>
    simp only [List.cons.sizeOf_spec, Stmt.expression.sizeOf_spec] at hsize hfuel
    have he := (Eval.halting size fuel).expr e depth hss.1 (by omega) (by omega)
    have hecho : Run.Halts size depth (echo fuel e) :=
      he.bind fun v => Run.halts_ask fun _ _ => Run.halts_writeLine _
    rw [ends_bind]
    refine (hecho.attempt hm).imp (fun outcome m' hm' => ?_) fun _ _ h => h
    cases outcome <;> exact hm'
  · rw [ends_bind]
    exact Eval.program_halts hss hsize hfuel hm #[]

/-- A session whose functions have no loops answers every input that has none, and so on. -/
theorem run_answers (s : Session) (source : String) (hheap : s.machine.heap.Made LoopFree.lambda)
    (hss : LoopFree.stmts (readProgram source s.nextId).value) :
    ∃ fuel report s', s'.machine.heap.Made LoopFree.lambda ∧
      ∀ fuel', fuel ≤ fuel' → run fuel' source s = some (report, s') := by
  unfold run
  extract_lets reading rejected walk recorded report
  by_cases hread : reading.report.hadError = true
  · exact ⟨0, reading.report, rejected, hheap, fun fuel' _ => if_pos hread⟩
  by_cases hwalk : report.hadError = true
  · refine ⟨0, report, forgetFrom ⟨recorded, reading.nextId⟩ s.nextId, hheap, fun fuel' _ => ?_⟩
    rw [if_neg hread, if_pos hwalk]
  let size := sizeOf s.machine.heap.functions + sizeOf reading.value
  let fuel := sizeOf reading.value + Eval.slack size s.machine.callDepth
  have hmade := hheap.small (Nat.le_add_right _ (sizeOf reading.value))
  have hends := execute_halts (m := recorded) hss (Nat.le_add_left ..) (Nat.le_refl fuel)
    ⟨rfl, hmade⟩
  cases hexecute : execute fuel reading.value recorded with
  | error stop m' => exact (hends.of_error hexecute).elim
  | ok error m' =>
    refine ⟨fuel, error.elim report report.add, ⟨m', reading.nextId⟩,
      (hends.of_ok hexecute).made.loopFree, fun fuel' hle => ?_⟩
    have hprolongs := Eval.prolongs_of_le (r := fun fuel => execute fuel reading.value)
      (fun fuel => prolongs_execute fuel reading.value) hle
    rw [if_neg hread, if_neg hwalk, (hprolongs.ends recorded).of_ok hexecute]
    cases error <;> rfl

end Session
end Lox
