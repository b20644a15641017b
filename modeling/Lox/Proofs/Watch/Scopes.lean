import Lox.Proofs.Watch.Calls

/-! # The scopes at every point

At every point of an evaluation at which a variable is used, the distance that
is recorded for it leads to the frame of the scope that declares it. What every
evaluation needs and keeps is that the frames from the present one outwards
mirror the scopes around the text. -/

namespace Lox

namespace Watch

open Scope (Known)

variable {K : Known} {fuel : Nat}

theorem tells_data {P : Record → Prop} {result : Except RuntimeError Value} {span : Span}
    (h : ∀ v, result = .ok v → v.IsData) :
    Tells K P (lift (Run.orFail result span)) fun v => (Fact.fine [v]).holds :=
  tells_orFail fun v hv _ _ => holds_fine_singleton.mpr (fine_of_ne (h v hv).ne_function)

/-- What holds after a statement that has finished. -/
def Fact.finished (here : Scene) (s : Stmt) (flow : Flow) : Fact where
  holds t := (Fact.fine (valuesOf flow)).holds t ∧
    (flow = .normal → (Fact.here (here.after s).ribs).holds t)
  stays hb ht := ⟨(Fact.fine _).stays hb ht.1, fun hflow => (Fact.here _).stays hb (ht.2 hflow)⟩

/-- What a piece of program relies on where it stands, within a bound on steps, and what holds
after it. -/
structure TellsWithin (K : Known) (fuel : Nat) : Prop where
  expr : ∀ here e,
    Tells K (Fact.stands (Scope.Addressed.expr K (namesOf here.ribs) e) here.ribs).holds
      (Watch.expr fuel here e) fun v => (Fact.fine [v]).holds
  exprs : ∀ here es,
    Tells K (Fact.stands (Scope.Addressed.exprs K (namesOf here.ribs) es) here.ribs).holds
      (Watch.exprs fuel here es) fun vs => (Fact.fine vs).holds
  call : ∀ here f args paren,
    Tells K (Callable f args) (Watch.call fuel here f args paren) fun v => (Fact.fine [v]).holds
  construct : ∀ here c args,
    Tells K (Callable (.class_ c) args) (Watch.construct fuel here c args)
      fun v => (Fact.fine [v]).holds
  callFunction : ∀ here f args,
    Tells K (Fact.body K here.ribs f args).holds (Watch.callFunction fuel here f args)
      fun v => (Fact.fine [v]).holds
  stmt : ∀ here s,
    Tells K (Fact.stands (Scope.Addressed.stmt K (namesOf here.ribs) s ∧ here.Calm)
      here.ribs).holds (Watch.stmt fuel here s) fun flow => (Fact.finished here s flow).holds
  stmts : ∀ here ss,
    Tells K (Fact.stands (Scope.Addressed.stmts K (namesOf here.ribs) ss ∧ here.Calm)
      here.ribs).holds (Watch.stmts fuel here ss) fun flow => (Fact.fine (valuesOf flow)).holds

theorem still_fieldOwner (object : Value) (name : Ident) : Still (Eval.fieldOwner object name) := by
  intro m
  cases object <;> rfl

theorem tells_expr_step (ih : TellsWithin K fuel) (here : Scene) (e : Expr) :
    Tells K (Fact.stands (Scope.Addressed.expr K (namesOf here.ribs) e) here.ribs).holds
      (Watch.expr (fuel + 1) here e) fun v => (Fact.fine [v]).holds := by
  rw [Watch.expr.eq_def]
  refine tells_mark (fun _ _ _ => Point.right_of_ne fun _ _ hevent => by cases hevent)
    (M := (Fact.stands (Scope.Addressed.expr K (namesOf here.ribs) e) here.ribs).holds)
    (fun _ h => h) ?_
  cases e with
  | literal value _ =>
    exact tells_pure fun _ _ => holds_fine_singleton.mpr (fine_of_ne value.value_isData.ne_function)
  | grouping inner _ => exact ih.expr here inner
  | unary op opSpan operand =>
    exact (ih.expr here operand).bind fun v => tells_data fun _ hr => UnaryOp.apply_isData hr
  | binary left op opSpan right =>
    refine ((ih.expr here left).weaken fun t h => ⟨h.1.1, h.2⟩).bind fun a => ?_
    refine ((ih.expr here right).weaken fun t h => ⟨h.1.1.2, h.1.2⟩).bind fun b => ?_
    exact tells_data fun _ hr => BinaryOp.apply_isData hr
  | logical left op _ right =>
    refine ((ih.expr here left).weaken fun t h => ⟨h.1.1, h.2⟩).bind fun a => ?_
    by_cases hsettled : op.settledBy a = true
    · rw [if_pos hsettled]
      exact tells_pure fun t h => h.2
    · rw [if_neg hsettled]
      exact (ih.expr here right).weaken fun t h => ⟨h.1.1.2, h.1.2⟩
  | var target => exact tells_readVariable (fun t h => h.1) fun t h => reaches_of_here h.2 _
  | assign target value =>
    refine ((ih.expr here value).weaken fun t h => ⟨h.1.2, h.2⟩).bind fun v => ?_
    refine (tells_writeVariable (fun t h => h.1.1.1) (fun t h => h.1.2) fun t h => h.2).bind
      fun _ => ?_
    exact tells_pure fun t h => h.1.2
  | call callee paren arguments =>
    refine ((ih.expr here callee).weaken fun t h => ⟨h.1.1, h.2⟩).bind fun f => ?_
    refine ((ih.exprs here arguments).weaken fun t h => ⟨h.1.1.2, h.1.2⟩).bind fun args => ?_
    refine Tells.called ((ih.call _ f args paren).weaken fun t h => ⟨h.2, fun v hv => ?_⟩) paren
    rcases List.mem_cons.mp hv with rfl | hv
    · exact h.1.1.2 v List.mem_cons_self
    · exact h.1.2 v hv
  | get object name => exact (ih.expr here object).bind fun o => tells_property o name
  | set object name value =>
    refine ((ih.expr here object).weaken fun t h => ⟨h.1.1, h.2⟩).bind fun o => ?_
    refine (tells_still (still_fieldOwner o name)).seq fun i => ?_
    refine ((ih.expr here value).weaken fun t h => ⟨h.1.1.2, h.1.2⟩).bind fun v => ?_
    refine tells_onHeap (fun _ => Fact.pure True) (fun h => h.grows_setField ..)
      (fun t ht h => ht.sound.setField i _ (h.2 v List.mem_cons_self)) (fun _ _ _ => trivial)
      fun _ => ?_
    exact tells_pure fun t h => h.1.2
  | this id span => exact tells_readVariable (fun t h => h.1) fun t h => reaches_of_here h.2 _
  | super id keyword method => exact tells_superMethod (fun t h => h.1) fun t h => h.2
  | lambda fn => exact tells_closure (fun t h => h.1) fun t h => h.2

theorem tells_exprs_step (ih : TellsWithin K fuel) (here : Scene) (es : List Expr) :
    Tells K (Fact.stands (Scope.Addressed.exprs K (namesOf here.ribs) es) here.ribs).holds
      (Watch.exprs (fuel + 1) here es) fun vs => (Fact.fine vs).holds := by
  cases es with
  | nil =>
    rw [Watch.exprs]
    exact tells_pure fun _ _ v hv => by cases hv
  | cons e es =>
    rw [Watch.exprs]
    refine ((ih.expr here e).weaken fun t h => ⟨h.1.1, h.2⟩).bind fun v => ?_
    refine ((ih.exprs here es).weaken fun t h => ⟨h.1.1.2, h.1.2⟩).bind fun vs => ?_
    refine tells_pure fun t h w hw => ?_
    rcases List.mem_cons.mp hw with rfl | hw
    · exact h.1.2 w List.mem_cons_self
    · exact h.2 w hw

/-- A function that programs can hold is run in the scopes around its text. -/
theorem body_of_callable {f : FunctionId} {object : FunctionObject} {args : List Value} {t : Record}
    (ht : t.Good K) (hcallable : Callable (.function f) args t)
    (hobject : t.machine.heap.function? f = some object) :
    (Fact.body K (t.homes[f.index]?.getD ⟨[], false⟩).ribs object args).holds t := by
  obtain ⟨harity, hfine⟩ := hcallable
  obtain ⟨home, hhome, hbound⟩ := hfine _ List.mem_cons_self f rfl
  have hsited := ht.sound.functions f object home hobject hhome
  have haddressed := hsited.addressed
  unfold Home.scopes at haddressed
  rw [if_neg (by simp [hbound])] at haddressed
  have hlength : object.fn.params.length = args.length := by
    have hcount : some (t.machine.heap.functionArity f) = some args.length := harity
    unfold Heap.functionArity at hcount
    rw [hobject] at hcount
    exact Option.some.inj hcount
  rw [hhome]
  exact ⟨⟨haddressed, hlength⟩, hsited.chain, fun v hv => hfine v (List.mem_cons_of_mem _ hv)⟩

theorem tells_call_step (ih : TellsWithin K fuel) (here : Scene) (callee : Value)
    (args : List Value) (paren : Span) :
    Tells K (Callable callee args) (Watch.call (fuel + 1) here callee args paren)
      fun v => (Fact.fine [v]).holds := by
  rw [Watch.call.eq_def]
  have hmark : ∀ {k : Unit → Watched Value}, Tells K (Callable callee args) (k ())
      (fun v => (Fact.fine [v]).holds) → Tells K (Callable callee args)
        (mark here (.run callee args) >>= k) fun v => (Fact.fine [v]).holds := fun hk =>
    tells_mark (fun _ _ _ => Point.right_of_ne fun _ _ hevent => by cases hevent) (fun _ h => h) hk
  cases callee with
  | native n => exact tells_native here n args paren
  | function f =>
    refine hmark ?_
    refine tells_ask (M := fun object? t => Callable (.function f) args t ∧
      t.machine.heap.function? f = object?) (fun t _ h => ⟨h, rfl⟩) fun object? => ?_
    refine (tells_orElseFail (Q := fun object t => Callable (.function f) args t ∧
      t.machine.heap.function? f = some object) fun object hobject t h => ?_).seq fun object => ?_
    · obtain rfl := hobject
      exact h
    · exact tells_step (fun t => t.homes[f.index]?.getD ⟨[], false⟩) (fun t => t)
        (M := fun home => (Fact.body K home.ribs object args).holds) (fun _ => rfl)
        Record.Before.refl (fun t ht h => ⟨ht, body_of_callable ht h.1 h.2⟩)
        fun home => ih.callFunction { here with ribs := home.ribs } object args
  | class_ c => exact hmark (ih.construct here c args)
  | _ => exact hmark (tells_fail ..)

/-- A method that has been bound can be run in the scope of `this`. -/
theorem body_of_bound {f : FunctionId} {method : FunctionObject} {args : List Value} {t : Record}
    (ht : t.Good K) (hmethod : IsMethod t.homes f)
    (hobject : t.machine.heap.function? f = some method)
    (harity : t.machine.heap.functionArity f = args.length) (hfine : ∀ v ∈ args, Fine t.homes v)
    (i : InstanceId) :
    (Fact.body K (receiverRib i ⟨t.machine.heap.frames.size⟩ ::
      (t.homes[f.index]?.getD ⟨[], false⟩).ribs) (t.machine.heap.bind method i).1 args).holds
        (t.withHeap (t.machine.heap.bind method i).2) := by
  obtain ⟨home, hhome, hunbound⟩ := hmethod
  have hsited := sited_bind (ht.sound.functions f method home hobject hhome) hunbound i
  have hlength : method.fn.params.length = args.length := by
    unfold Heap.functionArity at harity
    rw [hobject] at harity
    exact harity
  rw [hhome]
  exact ⟨⟨hsited.addressed, hlength⟩, hsited.chain, hfine⟩

/-- An initializer of a class, if there is one, takes these arguments, and programs can hold them. -/
def Constructible (c : ClassId) (args : List Value) (t : Record) : Prop :=
  (∀ v ∈ args, Fine t.homes v) ∧
    ((t.machine.heap.findMethod? c initializerName).map t.machine.heap.functionArity).getD 0 =
      args.length

/-- The new instance changes nothing for the initializer. -/
theorem Callable.constructible {c : ClassId} {args : List Value} {t : Record}
    (h : Callable (.class_ c) args t) :
    Constructible c args (t.withHeap (t.machine.heap.newInstance c).2) := by
  obtain ⟨harity, hfine⟩ := h
  refine ⟨fun v hv => hfine v (List.mem_cons_of_mem _ hv), ?_⟩
  have hclasses : (t.machine.heap.newInstance c).2.classes = t.machine.heap.classes := rfl
  have hsame := Heap.findMethod?_of_classes hclasses c initializerName
  show (((t.machine.heap.newInstance c).2.findMethod? c initializerName).map _).getD 0 = _
  rw [hsame]
  exact Option.some.inj harity

/-- An initializer is run as a method that has been bound to the new instance. -/
theorem tells_construct_step (ih : TellsWithin K fuel) (here : Scene) (c : ClassId)
    (args : List Value) :
    Tells K (Callable (.class_ c) args) (Watch.construct (fuel + 1) here c args)
      fun v => (Fact.fine [v]).holds := by
  rw [Watch.construct]
  refine tells_change (M := fun _ => Constructible c args) (fun h => h.grows_newInstance c)
    (fun t ht _ => ht.sound.newInstance c) (fun t _ h => h.constructible) fun i => ?_
  have hinstance : ∀ t : Record, (Fact.fine [.instance_ i]).holds t := fun t =>
    holds_fine_singleton.mpr (fine_of_ne fun _ hf => by cases hf)
  refine tells_ask (M := fun f? t => Constructible c args t ∧
    t.machine.heap.findMethod? c initializerName = f?) (fun t _ h => ⟨h, rfl⟩) fun f? => ?_
  refine tells_ask (M := fun method? t => Constructible c args t ∧
    t.machine.heap.findMethod? c initializerName = f? ∧
      f?.bind t.machine.heap.function? = method?) (fun t _ h => ⟨h.1, h.2, by rw [← h.2]⟩)
    fun method? => ?_
  cases method? with
  | none => exact tells_pure fun t _ => hinstance t
  | some method =>
    refine tells_step
      (fun t => (t.homes[(f?.getD ⟨0⟩).index]?.getD ⟨[], false⟩,
        (⟨t.machine.heap.frames.size⟩ : FrameId), (t.machine.heap.bind method i).1))
      (fun t => t.withHeap (t.machine.heap.bind method i).2)
      (k := fun r => do
        let _ ← Watch.callFunction fuel { here with ribs := receiverRib i r.2.1 :: r.1.ribs }
          r.2.2 args
        pure (.instance_ i))
      (M := fun r => (Fact.body K (receiverRib i r.2.1 :: r.1.ribs) r.2.2 args).holds)
      (fun _ => rfl) (fun t => Record.before_withHeap (Heap.grows_newFrame ..))
      (fun t ht h => ⟨ht.withBind method i, ?_⟩) fun r => ?_
    · obtain ⟨⟨hfine, harity⟩, hfound, hmethod⟩ := h
      obtain ⟨f, rfl, hobject⟩ := Option.bind_eq_some_iff.mp hmethod
      rw [hfound] at harity
      exact body_of_bound ht (ht.sound.isMethod hfound) hobject harity hfine i
    · have hcall := ih.callFunction { here with ribs := receiverRib i r.2.1 :: r.1.ribs } r.2.2 args
      refine hcall.bind fun _ => ?_
      exact tells_pure fun t _ => hinstance t

theorem addressed_function_iff {Γ : List (List String)} {fn : Lambda} :
    Scope.Addressed.function K Γ fn ↔
      Scope.Addressed.stmts K (fn.params.map Ident.text :: Γ) fn.body := by
  cases fn
  rfl

theorem tells_callFunction_step (ih : TellsWithin K fuel) (here : Scene) (f : FunctionObject)
    (args : List Value) :
    Tells K (Fact.body K here.ribs f args).holds (Watch.callFunction (fuel + 1) here f args)
      fun v => (Fact.fine [v]).holds := by
  rw [Watch.callFunction]
  let names := Eval.bindParams f.fn.params args
  refine tells_onHeap (fun frame => Fact.chain frame (callRib f.fn frame :: here.ribs))
    (fun h => h.grows_newFrame ..)
    (fun t ht h => ht.sound.newFrame _ fun name v hv => h.2.2 v (mem_of_bindParams hv))
    (fun t ht h => ?_) fun frame => ?_
  · obtain ⟨⟨-, hlength⟩, hchain, -⟩ := h
    have hgrows := t.machine.heap.grows_newFrame (some f.closure) names
    have houter : Chain (t.machine.heap.newFrame (some f.closure) names).2 t.machine.globals
      f.closure here.ribs := hchain.mono hgrows
    refine houter.enter (callRib f.fn ⟨t.machine.heap.frames.size⟩)
      (Heap.enclosing?_newFrame_self ..) fun name hname => ?_
    have hbinds := t.machine.heap.binds_newFrame_self (some f.closure) names name
    exact hbinds.trans (contains_bindParams hlength hname)
  · have hbody := (ih.stmts (here.enter (callRib f.fn frame)) f.fn.body).within frame
    refine (hbody.weaken fun t h => ⟨⟨?_, Scene.calm_enter rfl⟩, h.2⟩).bind fun flow => ?_
    · exact addressed_function_iff.mp h.1.1.1
    · exact tells_callResult fun t h => h.2

theorem fine_normal {t : Record} : (Fact.fine (valuesOf .normal)).holds t :=
  fun _ hv => by cases hv

theorem finished_other {here : Scene} {s : Stmt} {flow : Flow} {t : Record}
    (hfine : (Fact.fine (valuesOf flow)).holds t) (hflow : flow ≠ .normal) :
    (Fact.finished here s flow).holds t :=
  ⟨hfine, fun hnormal => absurd hnormal hflow⟩

/-- A statement that declares nothing has finished. -/
theorem finished_plain {here : Scene} {s : Stmt} {flow : Flow} {t : Record}
    (hs : declared? s = none) (hfine : (Fact.fine (valuesOf flow)).holds t)
    (hhere : (Fact.here here.ribs).holds t) : (Fact.finished here s flow).holds t := by
  refine ⟨hfine, fun _ => ?_⟩
  unfold Scene.after
  rw [hs]
  exact hhere

theorem finished_declared {here : Scene} {s : Stmt} {name : String} {t : Record}
    (hs : declared? s = some name) (hhere : (Fact.here (here.declare name).ribs).holds t) :
    (Fact.finished here s .normal).holds t := by
  refine ⟨fine_normal, fun _ => ?_⟩
  unfold Scene.after
  rw [hs]
  exact hhere

/-- A branch that has finished has declared nothing for what stands behind the statement. -/
theorem tells_branch {F : Fact} {w : Watched Flow} {here : Scene} {s branch : Stmt}
    (h : Tells K F.holds w fun flow => (Fact.finished here branch flow).holds)
    (hhere : ∀ t, F.holds t → (Fact.here here.ribs).holds t) (hs : declared? s = none) :
    Tells K F.holds w fun flow => (Fact.finished here s flow).holds :=
  (h.frame (F := F)).imp (fun _ ht => ⟨ht, ht⟩) fun _ t ht => finished_plain hs ht.2.1 (hhere t ht.1)

/-- What comes after the initializer of a variable. -/
theorem tells_variable {F : Fact} {here : Scene} {name : Ident} {initializer : Option Expr}
    {v : Value} (hhere : ∀ t, F.holds t → (Fact.here here.ribs).holds t)
    (hv : ∀ t, F.holds t → Fine t.homes v) :
    Tells K F.holds (do
      lift (Run.define name.text v)
      complete name.text
      pure .normal) fun flow => (Fact.finished here (.var name initializer) flow).holds := by
  refine tells_complete (k := fun _ => pure Flow.normal) hhere hv ?_
  exact tells_pure fun t h => finished_declared rfl h.2

theorem tells_stmt_step (ih : TellsWithin K fuel) (here : Scene) (s : Stmt) :
    Tells K (Fact.stands (Scope.Addressed.stmt K (namesOf here.ribs) s ∧ here.Calm)
      here.ribs).holds (Watch.stmt (fuel + 1) here s)
      fun flow => (Fact.finished here s flow).holds := by
  rw [Watch.stmt.eq_def]
  dsimp only
  refine tells_mark (fun _ _ _ => Point.right_of_ne fun _ _ hevent => by cases hevent)
    (M := (Fact.stands (Scope.Addressed.stmt K (namesOf here.ribs) s ∧ here.Calm)
      here.ribs).holds) (fun _ h => h) ?_
  cases s with
  | expression value =>
    refine ((ih.expr here value).weaken fun t h => ⟨h.1.1, h.2⟩).bind fun _ => ?_
    exact tells_pure fun t h => finished_plain rfl fine_normal h.1.2
  | print value =>
    refine ((ih.expr here value).weaken fun t h => ⟨h.1.1, h.2⟩).bind fun v => ?_
    refine tells_ask (M := fun _ => ((Fact.stands (Scope.Addressed.stmt K (namesOf here.ribs)
      (.print value) ∧ here.Calm) here.ribs).and (Fact.fine [v])).holds) (fun t _ h => h)
      fun text => ?_
    refine (tells_writeLine text).bind fun _ => ?_
    exact tells_pure fun t h => finished_plain rfl fine_normal h.1.1.2
  | var name initializer =>
    cases initializer with
    | none => exact tells_variable (fun t h => h.2) fun t _ => fine_of_ne fun _ hf => by cases hf
    | some initializer =>
      refine ((ih.expr (here.initializing name.text) initializer).weaken fun t h => ⟨?_, ?_⟩).bind
        fun v => ?_
      · show Scope.Addressed.expr K (namesOf (here.initializing name.text).ribs) initializer
        rw [namesOf_initializing]
        exact h.1.1
      · exact Chain.initializing h.2 h.1.2 name.text
      · exact tells_variable (fun t h => h.1.2) fun t h => h.2 v List.mem_cons_self
  | block body =>
    refine tells_ask (M := fun outer => ((Fact.stands (Scope.Addressed.stmt K
      (namesOf here.ribs) (.block body) ∧ here.Calm) here.ribs).and
        (Fact.chain outer here.ribs)).holds) (fun t _ h => ⟨h, h.2⟩) fun outer => ?_
    refine tells_onHeap
      (fun frame => Fact.chain frame (⟨.block body, [], none, frame⟩ :: here.ribs))
      (fun h => h.grows_newFrame ..)
      (fun t ht _ => ht.sound.newFrame _ fun name v hv => by cases hv) (fun t ht h => ?_)
      fun frame => ?_
    · have hgrows := t.machine.heap.grows_newFrame (some outer) .empty
      have houter : Chain (t.machine.heap.newFrame (some outer) .empty).2 t.machine.globals outer
        here.ribs := h.2.mono hgrows
      exact houter.enter ⟨.block body, [], none, ⟨t.machine.heap.frames.size⟩⟩
        (Heap.enclosing?_newFrame_self ..) fun name hname => by cases hname
    · let rib : Rib := ⟨.block body, [], none, frame⟩
      have hbody := (ih.stmts (here.enter rib) body).within frame
      have hframed := (hbody.weaken (O := ((Fact.pure (Scope.Addressed.stmts K
        ([] :: namesOf here.ribs) body)).and (Fact.chain frame (rib :: here.ribs))).holds)
          fun t h => ⟨⟨h.1, Scene.calm_enter rfl⟩, h.2⟩).frame (F := Fact.here here.ribs)
      exact hframed.imp (fun t h => ⟨h.1.1.2, h.1.1.1.1, h.2⟩) fun flow t h =>
        finished_plain rfl h.2 h.1
  | ifElse condition thenBranch elseBranch =>
    cases elseBranch with
    | none =>
      refine ((ih.expr here condition).weaken fun t h => ⟨h.1.1.1, h.2⟩).bind fun v => ?_
      by_cases htruthy : v.truthy = true
      · rw [if_pos htruthy]
        exact tells_branch ((ih.stmt here thenBranch).weaken
          fun t h => ⟨⟨h.1.1.1.2, h.1.1.2⟩, h.1.2⟩) (fun t h => h.1.2) rfl
      · rw [if_neg htruthy]
        exact tells_pure fun t h => finished_plain rfl fine_normal h.1.2
    | some elseBranch =>
      refine ((ih.expr here condition).weaken fun t h => ⟨h.1.1.1, h.2⟩).bind fun v => ?_
      by_cases htruthy : v.truthy = true
      · rw [if_pos htruthy]
        exact tells_branch ((ih.stmt here thenBranch).weaken
          fun t h => ⟨⟨h.1.1.1.2.1, h.1.1.2⟩, h.1.2⟩) (fun t h => h.1.2) rfl
      · rw [if_neg htruthy]
        exact tells_branch ((ih.stmt here elseBranch).weaken
          fun t h => ⟨⟨h.1.1.1.2.2, h.1.1.2⟩, h.1.2⟩) (fun t h => h.1.2) rfl
  | while_ condition body =>
    refine ((ih.expr here condition).weaken fun t h => ⟨h.1.1.1, h.2⟩).bind fun v => ?_
    by_cases htruthy : v.truthy = true
    · rw [if_pos htruthy]
      refine ((ih.stmt here body).weaken fun t h => ⟨⟨h.1.1.1.2, h.1.1.2⟩, h.1.2⟩).bind
        fun flow => ?_
      cases flow with
      | normal => exact (ih.stmt here (.while_ condition body)).weaken fun t h => h.1.1
      | break_ => exact tells_pure fun t h => finished_plain rfl fine_normal h.1.1.2
      | return_ value => exact tells_pure fun t h => finished_other h.2.1 fun h => by cases h
    · rw [if_neg htruthy]
      exact tells_pure fun t h => finished_plain rfl fine_normal h.1.2
  | break_ _ => exact tells_pure fun t h => finished_other (fun _ hv => by cases hv) fun h => by cases h
  | return_ _ value =>
    cases value with
    | none =>
      refine tells_pure fun t h => finished_other (holds_fine_singleton.mpr ?_) fun h => by cases h
      exact fine_of_ne fun _ hf => by cases hf
    | some value =>
      refine ((ih.expr here value).weaken fun t h => ⟨h.1.1, h.2⟩).bind fun v => ?_
      exact tells_pure fun t h => finished_other h.2 fun h => by cases h
  | function name fn =>
    refine tells_function (k := fun _ => pure Flow.normal) (fun t h => h.1.1) (fun t h => h.2) ?_
    exact tells_pure fun t h => finished_declared rfl h
  | class_ name superclass methods =>
    have hclass : Tells K (Fact.stands (Scope.Addressed.stmt K (namesOf here.ribs)
        (.class_ name superclass methods) ∧ here.Calm) here.ribs).holds
        (declareClass (here.declare name.text) name superclass methods)
        fun _ => (Fact.here (here.declare name.text).ribs).holds :=
      tells_declareClass (fun t h => h.1.1) fun t h => h.2
    refine hclass.bind fun _ => ?_
    exact tells_pure fun t h => finished_declared rfl h.2

theorem tells_stmts_step (ih : TellsWithin K fuel) (here : Scene) (ss : List Stmt) :
    Tells K (Fact.stands (Scope.Addressed.stmts K (namesOf here.ribs) ss ∧ here.Calm)
      here.ribs).holds (Watch.stmts (fuel + 1) here ss)
      fun flow => (Fact.fine (valuesOf flow)).holds := by
  cases ss with
  | nil =>
    rw [Watch.stmts]
    exact tells_pure fun _ _ => fine_normal
  | cons s rest =>
    rw [Watch.stmts]
    refine ((ih.stmt here s).weaken fun t h => ⟨⟨h.1.1.1, h.1.2⟩, h.2⟩).bind fun flow => ?_
    cases flow with
    | normal =>
      refine (ih.stmts (here.after s) rest).weaken fun t h => ⟨⟨?_, h.1.1.2.after s⟩, h.2.2 rfl⟩
      rw [namesOf_after]
      exact h.1.1.1.2
    | break_ => exact tells_pure fun t h => h.2.1
    | return_ value => exact tells_pure fun t h => h.2.1

/-- Within every bound on steps, every part of evaluation tells what it should. -/
theorem tellsWithin (K : Known) (fuel : Nat) : TellsWithin K fuel := by
  induction fuel with
  | zero =>
    constructor <;> intros
    · rw [Watch.expr]; exact tells_exhaust
    · rw [Watch.exprs]; exact tells_exhaust
    · rw [Watch.call]; exact tells_exhaust
    · rw [Watch.construct]; exact tells_exhaust
    · rw [Watch.callFunction]; exact tells_exhaust
    · rw [Watch.stmt]; exact tells_exhaust
    · rw [Watch.stmts]; exact tells_exhaust
  | succ fuel ih =>
    exact ⟨tells_expr_step ih, tells_exprs_step ih, tells_call_step ih, tells_construct_step ih,
      tells_callFunction_step ih, tells_stmt_step ih, tells_stmts_step ih⟩

end Watch
end Lox
