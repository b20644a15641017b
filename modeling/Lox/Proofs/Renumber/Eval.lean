import Lox.Proofs.Eval.Steady
import Lox.Proofs.Renumber.Syntax

/-! # Evaluation under other numbers

A tree with other numbers evaluates to the same thing, writes the same output
and fails with the same error, when the distances stand under the other numbers
and the functions of the host take no notice of them. -/

namespace Lox

/-- A machine that records these distances, and whose functions of the host take no notice of
other numbers in trees. -/
structure Machine.Fit (ρ : Nat → Nat) (R : Resolutions) (m : Machine) : Prop where
  resolutions : m.resolutions = R
  host : ∀ code ∈ m.host, HostCode.BlindTo ρ code

/-- The computation did not stop with an error of the text. -/
def Stop.Dynamic : Stop → Prop
  | .failed diagnostic => diagnostic.isStatic = false
  | .outOfFuel => True

namespace Run

variable {α α' β β' : Type} {ρ : Nat → Nat} {R R' : Resolutions}

/-- Under other numbers the second computation does what the first one does, and its result
is changed by `f`. -/
structure Mirrors (ρ : Nat → Nat) (R R' : Resolutions) (f : α → α') (r : Run α) (r' : Run α') :
    Prop where
  ends : ∀ m : Machine, m.Fit ρ R → Ends r m
    (fun a t => t.Fit ρ R ∧ r' (m.renumber ρ R') = .ok (f a) (t.renumber ρ R'))
    fun stop t => t.Fit ρ R ∧ stop.Dynamic ∧ r' (m.renumber ρ R') = .error stop (t.renumber ρ R')

variable {f : α → α'} {g : β → β'}

theorem mirrors_pure (a : α) : Mirrors ρ R R' f (pure a) (pure (f a)) :=
  ⟨fun _ hm => ⟨hm, rfl⟩⟩

theorem mirrors_exhaust : Mirrors ρ R R' f (exhaust : Run α) exhaust :=
  ⟨fun _ hm => ⟨hm, trivial, rfl⟩⟩

theorem mirrors_fail (error : RuntimeError) (span : Span) :
    Mirrors ρ R R' f (fail error span : Run α) (fail error span) :=
  ⟨fun _ hm => ⟨hm, rfl, rfl⟩⟩

theorem Mirrors.bind {r : Run α} {r' : Run α'} {k : α → Run β} {k' : α' → Run β'}
    (h : Mirrors ρ R R' f r r') (hk : ∀ a, Mirrors ρ R R' g (k a) (k' (f a))) :
    Mirrors ρ R R' g (r >>= k) (r' >>= k') := by
  constructor
  intro m hm
  rw [ends_bind]
  refine (h.ends m hm).imp ?_ ?_
  · intro a t hresult
    obtain ⟨ht, hr'⟩ := hresult
    rw [bind_of_ok hr']
    exact (hk a).ends t ht
  · intro stop t hstop
    obtain ⟨ht, hdynamic, hr'⟩ := hstop
    exact ⟨ht, hdynamic, bind_of_error hr'⟩

theorem mirrors_ask {q : Machine → α} {q' : Machine → α'}
    (h : ∀ m : Machine, m.Fit ρ R → q' (m.renumber ρ R') = f (q m)) :
    Mirrors ρ R R' f (ask q) (ask q') := by
  constructor
  intro m hm
  exact ⟨hm, congrArg (fun a => EStateM.Result.ok a (m.renumber ρ R')) (h m hm)⟩

theorem mirrors_current : Mirrors ρ R R' id (ask (·.current)) (ask (·.current)) :=
  mirrors_ask fun _ _ => rfl

theorem mirrors_onHeap {q : Heap → α × Heap} {q' : Heap → α' × Heap}
    (h : ∀ heap : Heap, q' (heap.renumber ρ) = (f (q heap).1, (q heap).2.renumber ρ)) :
    Mirrors ρ R R' f (onHeap q) (onHeap q') := by
  constructor
  intro m hm
  refine ⟨⟨hm.resolutions, hm.host⟩, ?_⟩
  have hheap : q' (m.renumber ρ R').heap = (f (q m.heap).1, (q m.heap).2.renumber ρ) := h m.heap
  unfold onHeap
  rw [hheap]
  rfl

theorem mirrors_define (name : String) (value : Value) :
    Mirrors ρ R R' id (define name value) (define name value) :=
  ⟨fun _ hm => ⟨⟨hm.resolutions, hm.host⟩, rfl⟩⟩

theorem mirrors_orFail (result : Except RuntimeError α) (span : Span) :
    Mirrors ρ R R' id (orFail result span) (orFail result span) := by
  cases result with
  | ok a => exact mirrors_pure a
  | error error => exact mirrors_fail error span

theorem mirrors_orElseFail (result : Option α) (error : RuntimeError) (span : Span) :
    Mirrors ρ R R' f (orElseFail result error span) (orElseFail (result.map f) error span) := by
  cases result with
  | some a => exact mirrors_pure a
  | none => exact mirrors_fail error span

theorem mirrors_writeLine (text : String) :
    Mirrors ρ R R' id (writeLine text) (writeLine text) := by
  constructor
  intro m hm
  have hsink : (m.renumber ρ R').sink = m.sink := rfl
  unfold Ends writeLine
  rw [hsink]
  rcases m.sink.writeLine text with ⟨_ | step, sink⟩
  · exact ⟨⟨hm.resolutions, hm.host⟩, rfl⟩
  · exact ⟨⟨hm.resolutions, hm.host⟩, rfl, rfl⟩

theorem mirrors_callNative (native : NativeId) (args : List Value) (paren : Span) :
    Mirrors ρ R R' id (callNative native args paren) (callNative native args paren) := by
  constructor
  intro m hm
  have hhost : (m.renumber ρ R').host = m.host := rfl
  unfold Ends callNative
  rw [hhost]
  cases hcode : m.host[native.index]? with
  | none => exact ⟨hm, rfl, rfl⟩
  | some code =>
    have hblind : code ⟨m.heap.renumber ρ, m.clock.reading m.clock.reads⟩ args =
        code ⟨m.heap, m.clock.reading m.clock.reads⟩ args :=
      hm.host code (Array.mem_of_getElem? hcode) ⟨m.heap, _⟩ args
    have hread : (m.renumber ρ R').clock = m.clock := rfl
    have hheap : (m.renumber ρ R').heap = m.heap.renumber ρ := rfl
    simp only [hread, hheap, hblind]
    cases code ⟨m.heap, m.clock.reading m.clock.reads⟩ args with
    | ok value => exact ⟨⟨hm.resolutions, hm.host⟩, rfl⟩
    | error words => exact ⟨⟨hm.resolutions, hm.host⟩, rfl, rfl⟩

theorem Mirrors.within {r : Run α} {r' : Run α'} (h : Mirrors ρ R R' f r r') (frame : FrameId) :
    Mirrors ρ R R' f (within frame r) (within frame r') := by
  constructor
  intro m hm
  rw [ends_within]
  refine (h.ends { m with current := frame } ⟨hm.resolutions, hm.host⟩).imp ?_ ?_
  · intro a t hresult
    obtain ⟨ht, hr'⟩ := hresult
    have hinside : r' { m.renumber ρ R' with current := frame } = .ok (f a) (t.renumber ρ R') := hr'
    refine ⟨⟨ht.resolutions, ht.host⟩, ?_⟩
    unfold Run.within
    simp only [hinside]
    rfl
  · intro stop t hstop
    obtain ⟨ht, hdynamic, hr'⟩ := hstop
    have hinside : r' { m.renumber ρ R' with current := frame } = .error stop (t.renumber ρ R') :=
      hr'
    refine ⟨⟨ht.resolutions, ht.host⟩, hdynamic, ?_⟩
    unfold Run.within
    simp only [hinside]
    rfl

theorem Mirrors.asCall {r : Run α} {r' : Run α'} (h : Mirrors ρ R R' f r r') :
    Mirrors ρ R R' f (asCall r) (asCall r') := by
  constructor
  intro m hm
  rw [ends_asCall]
  refine (h.ends { m with callDepth := m.callDepth + 1 } ⟨hm.resolutions, hm.host⟩).imp ?_ ?_
  · intro a t hresult
    obtain ⟨ht, hr'⟩ := hresult
    have hinside : r' { m.renumber ρ R' with callDepth := m.callDepth + 1 } =
        .ok (f a) (t.renumber ρ R') := hr'
    have hdepth : (m.renumber ρ R').callDepth = m.callDepth := rfl
    refine ⟨⟨ht.resolutions, ht.host⟩, ?_⟩
    unfold Run.asCall
    simp only [hdepth, hinside]
    rfl
  · intro stop t hstop
    obtain ⟨ht, hdynamic, hr'⟩ := hstop
    have hinside : r' { m.renumber ρ R' with callDepth := m.callDepth + 1 } =
        .error stop (t.renumber ρ R') := hr'
    have hdepth : (m.renumber ρ R').callDepth = m.callDepth := rfl
    refine ⟨⟨ht.resolutions, ht.host⟩, hdynamic, ?_⟩
    unfold Run.asCall
    simp only [hdepth, hinside]
    rfl

/-- Under other numbers the second computation has the same result, and it is such as `fine` says. -/
structure Agrees (ρ : Nat → Nat) (R R' : Resolutions) (fine : α → Prop) (r r' : Run α) : Prop where
  ends : ∀ m : Machine, m.Fit ρ R → Ends r m
    (fun a t => t.Fit ρ R ∧ fine a ∧ r' (m.renumber ρ R') = .ok a (t.renumber ρ R'))
    fun stop t => t.Fit ρ R ∧ r' (m.renumber ρ R') = .error stop (t.renumber ρ R')

/-- An outcome that tells of no error of the text. -/
def Fine (outcome : Except Diagnostic α) : Prop :=
  ∀ diagnostic, outcome = .error diagnostic → diagnostic.isStatic = false

theorem Mirrors.attempt {r r' : Run α} (h : Mirrors ρ R R' id r r') :
    Agrees ρ R R' Fine (attempt r) (attempt r') := by
  constructor
  intro m hm
  rw [ends_attempt]
  refine (h.ends m hm).imp ?_ ?_
  · intro a t hresult
    obtain ⟨ht, hr'⟩ := hresult
    have hfine : Fine (.ok a : Except Diagnostic α) := fun _ hfailed => nomatch hfailed
    refine ⟨ht, hfine, ?_⟩
    unfold Run.attempt
    simp only [hr', id_eq]
  · intro stop t hstop
    obtain ⟨ht, hdynamic, hr'⟩ := hstop
    unfold Run.attempt
    cases stop with
    | failed diagnostic =>
      refine ⟨ht, fun _ hfailed => ?_, ?_⟩
      · cases hfailed
        exact hdynamic
      · simp only [hr']
    | outOfFuel =>
      refine ⟨ht, ?_⟩
      simp only [hr']

end Run

namespace Eval
open Run

variable {ρ : Nat → Nat} {R R' : Resolutions}

theorem renumber_frameOf? (hR : ∀ id, R'.find? (ρ id) = R.find? id) {m : Machine} (hm : m.Fit ρ R)
    (id : Nat) : (m.renumber ρ R').frameOf? (ρ id) = m.frameOf? id := by
  have hfind : (m.renumber ρ R').resolutions.find? (ρ id) = m.resolutions.find? id := by
    rw [hm.resolutions]
    exact hR id
  unfold Machine.frameOf?
  rw [hfind]
  cases m.resolutions.find? id with
  | none => rfl
  | some hops => exact Heap.renumber_ancestor? ρ m.heap m.current hops

theorem mirrors_readVariable (hR : ∀ id, R'.find? (ρ id) = R.find? id) (node : Nat)
    (name : String) (span : Span) :
    Mirrors ρ R R' id (readVariable node name span) (readVariable (ρ node) name span) := by
  refine (mirrors_ask (f := id) fun m hm => ?_).bind fun value => ?_
  · unfold Machine.readVariable
    rw [renumber_frameOf? hR hm]
    rfl
  · have h : Mirrors ρ R R' id (orElseFail value (.undefinedVariable name) span)
        (orElseFail (value.map id) (.undefinedVariable name) span) := mirrors_orElseFail ..
    rwa [Option.map_id] at h

theorem mirrors_writeVariable (hR : ∀ id, R'.find? (ρ id) = R.find? id) (target : Reference)
    (value : Value) :
    Mirrors ρ R R' id (writeVariable target value)
      (writeVariable (Renumber.reference ρ target) value) := by
  constructor
  intro m hm
  have hframe : (m.renumber ρ R').bindingFrame? (ρ target.id) target.name.text =
      m.bindingFrame? target.id target.name.text := by
    unfold Machine.bindingFrame?
    rw [renumber_frameOf? hR hm]
    rfl
  unfold Ends writeVariable
  simp only [Renumber.reference, hframe]
  cases m.bindingFrame? target.id target.name.text with
  | none => exact ⟨hm, rfl, rfl⟩
  | some frame => exact ⟨⟨hm.resolutions, hm.host⟩, rfl⟩

theorem mirrors_closure (name : Option String) (fn : Lambda) :
    Mirrors ρ R R' id (closure name fn) (closure name (Renumber.lambda ρ fn)) := by
  refine mirrors_current.bind fun frame => ?_
  refine (mirrors_onHeap (f := id) fun heap => ?_).bind fun f => mirrors_pure _
  exact Heap.renumber_newFunction ρ heap ⟨name, fn, frame, false⟩

theorem mirrors_boundMethod (found : Option FunctionId) (i : InstanceId) (name : Ident) :
    Mirrors ρ R R' id (boundMethod found i name) (boundMethod found i name) := by
  refine (mirrors_ask (f := Option.map (FunctionObject.renumber ρ)) fun m _ => ?_).bind
    fun method? => ?_
  · cases found with
    | none => rfl
    | some f => exact Heap.renumber_function? ρ m.heap f
  refine (mirrors_orElseFail ..).bind fun method => ?_
  refine (mirrors_onHeap (f := FunctionObject.renumber ρ) fun heap => ?_).bind fun bound => ?_
  · exact Heap.renumber_bind ρ heap method i
  refine (mirrors_onHeap (f := id) fun heap => ?_).bind fun f => mirrors_pure _
  exact Heap.renumber_newFunction ρ heap bound

theorem mirrors_property (object : Value) (name : Ident) :
    Mirrors ρ R R' id (property object name) (property object name) := by
  cases object with
  | instance_ i =>
    refine (mirrors_ask (f := id) fun _ _ => ?_).bind fun field => ?_
    · rfl
    cases field with
    | some value => exact mirrors_pure value
    | none =>
      refine (mirrors_ask (f := id) fun m _ => ?_).bind fun found => mirrors_boundMethod found i name
      exact Heap.renumber_methodOf? ρ m.heap i name.text
  | _ => exact mirrors_fail .propertyOfNonInstance name.span

theorem mirrors_fieldOwner (object : Value) (name : Ident) :
    Mirrors ρ R R' id (fieldOwner object name) (fieldOwner object name) := by
  cases object with
  | instance_ i => exact mirrors_pure i
  | _ => exact mirrors_fail .fieldOfNonInstance name.span

theorem mirrors_superClass (hops : Nat) (keyword : Span) :
    Mirrors ρ R R' id (superClass hops keyword) (superClass hops keyword) := by
  refine (mirrors_ask (f := id) fun m _ => ?_).bind fun found => ?_
  · exact Heap.renumber_getAt? ρ m.heap m.current hops "super"
  · dsimp only [id_eq]
    split
    · exact mirrors_pure _
    · exact mirrors_fail .superNotClass keyword

theorem mirrors_superInstance (hops : Nat) (keyword : Span) :
    Mirrors ρ R R' id (superInstance hops keyword) (superInstance hops keyword) := by
  refine (mirrors_ask (f := id) fun m _ => ?_).bind fun found => ?_
  · cases hops with
    | zero => rfl
    | succ inner => exact Heap.renumber_getAt? ρ m.heap m.current inner "this"
  · dsimp only [id_eq]
    split
    · exact mirrors_pure _
    · exact mirrors_fail .thisNotInstance keyword

theorem mirrors_superMethod (hR : ∀ id, R'.find? (ρ id) = R.find? id) (node : Nat)
    (keyword : Span) (method : Ident) :
    Mirrors ρ R R' id (superMethod node keyword method) (superMethod (ρ node) keyword method) := by
  refine (mirrors_ask (f := Option.map id) fun m hm => ?_).bind fun hops? => ?_
  · rw [Option.map_id, hm.resolutions]
    exact hR node
  refine (mirrors_orElseFail hops? ..).bind fun hops => ?_
  refine (mirrors_superClass hops keyword).bind fun c => ?_
  refine (mirrors_superInstance hops keyword).bind fun i => ?_
  refine (mirrors_ask (f := id) fun m _ => ?_).bind fun found => mirrors_boundMethod found i method
  exact Heap.renumber_findMethod? ρ m.heap c method.text

theorem mirrors_checkCall (callee : Value) (count : Nat) (paren : Span) :
    Mirrors ρ R R' id (checkCall callee count paren) (checkCall callee count paren) := by
  refine (mirrors_ask (f := Option.map id) fun m _ => ?_).bind fun arity? => ?_
  · rw [Option.map_id]
    exact Heap.renumber_arity? ρ m.heap callee
  refine (mirrors_orElseFail arity? ..).bind fun arity => ?_
  dsimp only [id_eq]
  split
  · exact mirrors_fail (.wrongArgumentCount arity count) paren
  · refine (mirrors_ask (f := id) fun _ _ => ?_).bind fun depth => ?_
    · rfl
    dsimp only [id_eq]
    split
    · exact mirrors_fail .stackOverflow paren
    · exact mirrors_pure ()

theorem methodTable_renumber (frame : FrameId) (ms : List Method) (table : Bindings FunctionId)
    (h : Heap) : methodTable frame (Renumber.methods ρ ms) table (h.renumber ρ) =
      ((methodTable frame ms table h).1, (methodTable frame ms table h).2.renumber ρ) := by
  induction ms generalizing table h with
  | nil => rfl
  | cons m ms ih =>
    obtain ⟨name, fn⟩ := m
    have hnew := Heap.renumber_newFunction ρ h
      ⟨some name.text, fn, frame, name.text = initializerName⟩
    simp only [FunctionObject.renumber] at hnew
    simp only [Renumber.methods, methodTable, hnew, ih]

theorem mirrors_superclassOf (hR : ∀ id, R'.find? (ρ id) = R.find? id)
    (superclass : Option Reference) :
    Mirrors ρ R R' id (superclassOf superclass)
      (superclassOf (superclass.map (Renumber.reference ρ))) := by
  cases superclass with
  | none => exact mirrors_pure none
  | some target =>
    refine (mirrors_readVariable hR target.id target.name.text target.name.span).bind fun v => ?_
    cases v with
    | class_ c => exact mirrors_pure (some c)
    | _ => exact mirrors_fail .superclassNotClass target.name.span

theorem mirrors_methodFrame (superclass : Option ClassId) :
    Mirrors ρ R R' id (methodFrame superclass) (methodFrame superclass) := by
  refine mirrors_current.bind fun frame => ?_
  cases superclass with
  | some c => exact mirrors_onHeap fun _ => rfl
  | none => exact mirrors_pure frame

theorem mirrors_declareClass (hR : ∀ id, R'.find? (ρ id) = R.find? id) (name : Ident)
    (superclass : Option Reference) (declared : List Method) :
    Mirrors ρ R R' id (declareClass name superclass declared)
      (declareClass name (superclass.map (Renumber.reference ρ)) (Renumber.methods ρ declared)) := by
  refine (mirrors_superclassOf hR superclass).bind fun parent => ?_
  refine (mirrors_define name.text .nil).bind fun _ => ?_
  refine (mirrors_methodFrame parent).bind fun frame => ?_
  refine (mirrors_onHeap (f := id) fun heap => ?_).bind fun table => ?_
  · exact methodTable_renumber frame declared .empty heap
  refine (mirrors_onHeap (f := id) fun _ => rfl).bind fun c => ?_
  exact mirrors_define name.text (.class_ c)

theorem mirrors_callResult (f : FunctionObject) (flow : Flow) :
    Mirrors ρ R R' id (callResult f flow) (callResult (f.renumber ρ) flow) := by
  obtain ⟨name, ⟨params, body, span⟩, closure, isInitializer⟩ := f
  cases isInitializer with
  | true =>
    refine (mirrors_ask (f := Option.map id) fun m _ => ?_).bind fun this? => ?_
    · rw [Option.map_id]
      exact Heap.renumber_getAt? ρ m.heap closure 0 "this"
    · exact mirrors_orElseFail this? ..
  | false =>
    cases flow with
    | normal => exact mirrors_pure Value.nil
    | break_ => exact mirrors_pure Value.nil
    | return_ value => exact mirrors_pure value

/-! ## Evaluation -/

/-- Within a bound on steps, trees with other numbers evaluate to the same. -/
structure MirrorsWithin (ρ : Nat → Nat) (R R' : Resolutions) (fuel : Nat) : Prop where
  expr : ∀ e, Mirrors ρ R R' id (expr fuel e) (expr fuel (Renumber.expr ρ e))
  exprs : ∀ es, Mirrors ρ R R' id (exprs fuel es) (exprs fuel (Renumber.exprs ρ es))
  call : ∀ f args paren, Mirrors ρ R R' id (call fuel f args paren) (call fuel f args paren)
  construct : ∀ c args, Mirrors ρ R R' id (construct fuel c args) (construct fuel c args)
  callFunction : ∀ f args,
    Mirrors ρ R R' id (callFunction fuel f args) (callFunction fuel (f.renumber ρ) args)
  stmt : ∀ s, Mirrors ρ R R' id (stmt fuel s) (stmt fuel (Renumber.stmt ρ s))
  stmts : ∀ ss, Mirrors ρ R R' id (stmts fuel ss) (stmts fuel (Renumber.stmts ρ ss))

variable {fuel : Nat}

theorem mirrors_expr_step (hR : ∀ id, R'.find? (ρ id) = R.find? id)
    (ih : MirrorsWithin ρ R R' fuel) (e : Expr) :
    Mirrors ρ R R' id (expr (fuel + 1) e) (expr (fuel + 1) (Renumber.expr ρ e)) := by
  cases e with
  | literal value _ => exact mirrors_pure value.value
  | grouping inner _ => exact ih.expr inner
  | unary op opSpan operand =>
    simp only [Renumber.expr, expr]
    exact (ih.expr operand).bind fun v => mirrors_orFail (op.apply v) opSpan
  | binary left op opSpan right =>
    simp only [Renumber.expr, expr]
    exact (ih.expr left).bind fun a => (ih.expr right).bind fun b =>
      mirrors_orFail (op.apply a b) opSpan
  | logical left op _ right =>
    simp only [Renumber.expr, expr]
    refine (ih.expr left).bind fun a => ?_
    dsimp only [id_eq]
    split
    · exact mirrors_pure a
    · exact ih.expr right
  | var target => exact mirrors_readVariable hR ..
  | assign target value =>
    simp only [Renumber.expr, expr]
    exact (ih.expr value).bind fun v => (mirrors_writeVariable hR target v).bind fun _ =>
      mirrors_pure v
  | call callee paren arguments =>
    simp only [Renumber.expr, expr]
    refine (ih.expr callee).bind fun f => (ih.exprs arguments).bind fun args => ?_
    exact (mirrors_checkCall f args.length paren).bind fun _ => (ih.call f args paren).asCall
  | get object name =>
    simp only [Renumber.expr, expr]
    exact (ih.expr object).bind fun o => mirrors_property o name
  | set object name value =>
    simp only [Renumber.expr, expr]
    refine (ih.expr object).bind fun o => (mirrors_fieldOwner o name).bind fun i => ?_
    refine (ih.expr value).bind fun v => ?_
    exact (mirrors_onHeap (f := id) fun _ => rfl).bind fun _ => mirrors_pure v
  | this node span => exact mirrors_readVariable hR ..
  | super node keyword method => exact mirrors_superMethod hR ..
  | lambda fn => exact mirrors_closure none fn

theorem mirrors_exprs_step (ih : MirrorsWithin ρ R R' fuel) (es : List Expr) :
    Mirrors ρ R R' id (exprs (fuel + 1) es) (exprs (fuel + 1) (Renumber.exprs ρ es)) := by
  cases es with
  | nil => exact mirrors_pure []
  | cons e es =>
    simp only [Renumber.exprs, exprs]
    exact (ih.expr e).bind fun v => (ih.exprs es).bind fun vs => mirrors_pure (v :: vs)

theorem mirrors_call_step (ih : MirrorsWithin ρ R R' fuel) (callee : Value) (args : List Value)
    (paren : Span) :
    Mirrors ρ R R' id (call (fuel + 1) callee args paren) (call (fuel + 1) callee args paren) := by
  cases callee with
  | native n => exact mirrors_callNative n args paren
  | function f =>
    simp only [call]
    refine (mirrors_ask (f := Option.map (FunctionObject.renumber ρ)) fun m _ => ?_).bind
      fun object? => ?_
    · exact Heap.renumber_function? ρ m.heap f
    exact (mirrors_orElseFail object? ..).bind fun object => ih.callFunction object args
  | class_ c => exact ih.construct c args
  | _ => exact mirrors_fail .notCallable paren

theorem mirrors_construct_step (ih : MirrorsWithin ρ R R' fuel) (c : ClassId)
    (args : List Value) :
    Mirrors ρ R R' id (construct (fuel + 1) c args) (construct (fuel + 1) c args) := by
  simp only [construct]
  refine (mirrors_onHeap (f := id) fun _ => ?_).bind fun i => ?_
  · rfl
  refine (mirrors_ask (f := Option.map (FunctionObject.renumber ρ)) fun m _ => ?_).bind
    fun method? => ?_
  · show ((m.heap.renumber ρ).findMethod? c initializerName).bind (m.heap.renumber ρ).function? = _
    rw [Heap.renumber_findMethod?]
    cases m.heap.findMethod? c initializerName with
    | none => rfl
    | some method => exact Heap.renumber_function? ρ m.heap method
  cases method? with
  | none => exact mirrors_pure (Value.instance_ i)
  | some method =>
    refine (mirrors_onHeap (f := FunctionObject.renumber ρ) fun heap => ?_).bind fun bound => ?_
    · exact Heap.renumber_bind ρ heap method i
    exact (ih.callFunction bound args).bind fun _ => mirrors_pure (Value.instance_ i)

theorem mirrors_callFunction_step (ih : MirrorsWithin ρ R R' fuel) (f : FunctionObject)
    (args : List Value) :
    Mirrors ρ R R' id (callFunction (fuel + 1) f args)
      (callFunction (fuel + 1) (f.renumber ρ) args) := by
  have hbody : (f.renumber ρ).fn.body = Renumber.stmts ρ f.fn.body := by
    obtain ⟨name, ⟨params, body, span⟩, closure, isInitializer⟩ := f
    rfl
  have hparams : (f.renumber ρ).fn.params = f.fn.params := by
    obtain ⟨name, ⟨params, body, span⟩, closure, isInitializer⟩ := f
    rfl
  simp only [callFunction, hbody, hparams]
  refine (mirrors_onHeap (f := id) fun _ => ?_).bind fun frame => ?_
  · rfl
  exact ((ih.stmts f.fn.body).within frame).bind fun flow => mirrors_callResult f flow

theorem mirrors_stmt_step (hR : ∀ id, R'.find? (ρ id) = R.find? id)
    (ih : MirrorsWithin ρ R R' fuel) (s : Stmt) :
    Mirrors ρ R R' id (stmt (fuel + 1) s) (stmt (fuel + 1) (Renumber.stmt ρ s)) := by
  cases s with
  | expression value =>
    simp only [Renumber.stmt, stmt]
    exact (ih.expr value).bind fun _ => mirrors_pure Flow.normal
  | print value =>
    simp only [Renumber.stmt, stmt]
    refine (ih.expr value).bind fun v => (mirrors_ask (f := id) fun m _ => ?_).bind fun text => ?_
    · exact Heap.renumber_describe ρ m.heap v
    exact (mirrors_writeLine text).bind fun _ => mirrors_pure Flow.normal
  | var name initializer =>
    cases initializer with
    | none => exact (mirrors_define name.text .nil).bind fun _ => mirrors_pure Flow.normal
    | some initializer =>
      simp only [Renumber.stmt, stmt]
      exact (ih.expr initializer).bind fun v => (mirrors_define name.text v).bind fun _ =>
        mirrors_pure Flow.normal
  | block body =>
    simp only [Renumber.stmt, stmt]
    refine mirrors_current.bind fun outer => (mirrors_onHeap (f := id) fun _ => ?_).bind
      fun frame => (ih.stmts body).within frame
    rfl
  | ifElse condition thenBranch elseBranch =>
    cases elseBranch with
    | none =>
      simp only [Renumber.stmt, stmt]
      refine (ih.expr condition).bind fun v => ?_
      dsimp only [id_eq]
      split
      · exact ih.stmt thenBranch
      · exact mirrors_pure Flow.normal
    | some elseBranch =>
      simp only [Renumber.stmt, stmt]
      refine (ih.expr condition).bind fun v => ?_
      dsimp only [id_eq]
      split
      · exact ih.stmt thenBranch
      · exact ih.stmt elseBranch
  | while_ condition body =>
    simp only [Renumber.stmt, stmt]
    refine (ih.expr condition).bind fun v => ?_
    dsimp only [id_eq]
    split
    · refine (ih.stmt body).bind fun flow => ?_
      cases flow with
      | normal => exact ih.stmt (.while_ condition body)
      | break_ => exact mirrors_pure Flow.normal
      | return_ value => exact mirrors_pure (Flow.return_ value)
    · exact mirrors_pure Flow.normal
  | break_ _ => exact mirrors_pure Flow.break_
  | return_ _ value =>
    cases value with
    | none => exact mirrors_pure (Flow.return_ .nil)
    | some value =>
      simp only [Renumber.stmt, stmt]
      exact (ih.expr value).bind fun v => mirrors_pure (Flow.return_ v)
  | function name fn =>
    simp only [Renumber.stmt, stmt]
    exact (mirrors_closure (some name.text) fn).bind fun v => (mirrors_define name.text v).bind
      fun _ => mirrors_pure Flow.normal
  | class_ name superclass declared =>
    simp only [Renumber.stmt, stmt]
    exact (mirrors_declareClass hR name superclass declared).bind fun _ => mirrors_pure Flow.normal

theorem mirrors_stmts_step (ih : MirrorsWithin ρ R R' fuel) (ss : List Stmt) :
    Mirrors ρ R R' id (stmts (fuel + 1) ss) (stmts (fuel + 1) (Renumber.stmts ρ ss)) := by
  cases ss with
  | nil => exact mirrors_pure Flow.normal
  | cons s ss =>
    simp only [Renumber.stmts, stmts]
    refine (ih.stmt s).bind fun flow => ?_
    cases flow with
    | normal => exact ih.stmts ss
    | break_ => exact mirrors_pure Flow.break_
    | return_ value => exact mirrors_pure (Flow.return_ value)

/-- Trees with other numbers evaluate to the same. -/
theorem mirrorsWithin (hR : ∀ id, R'.find? (ρ id) = R.find? id) (fuel : Nat) :
    MirrorsWithin ρ R R' fuel := by
  induction fuel with
  | zero => constructor <;> intros <;> exact mirrors_exhaust
  | succ fuel ih =>
    exact ⟨mirrors_expr_step hR ih, mirrors_exprs_step ih, mirrors_call_step ih,
      mirrors_construct_step ih, mirrors_callFunction_step ih, mirrors_stmt_step hR ih,
      mirrors_stmts_step ih⟩

theorem agrees_program (hR : ∀ id, R'.find? (ρ id) = R.find? id) (fuel : Nat) (ss : List Stmt)
    (flows : Array Flow) :
    Agrees ρ R R' (fun c => ∀ d, c.error = some d → d.isStatic = false)
      (program fuel flows ss) (program fuel flows (Renumber.stmts ρ ss)) := by
  induction ss generalizing flows with
  | nil =>
    constructor
    intro m hm
    refine ⟨hm, ?_, rfl⟩
    intro d hd
    cases hd
  | cons s ss ih =>
    constructor
    intro m hm
    rw [Renumber.stmts, program, program, ends_bind]
    refine (((mirrorsWithin hR fuel).stmt s).attempt.ends m hm).imp ?_ ?_
    · intro outcome t hresult
      obtain ⟨ht, hfine, hr'⟩ := hresult
      rw [bind_of_ok hr']
      cases outcome with
      | ok flow => exact (ih (flows.push flow)).ends t ht
      | error diagnostic =>
        refine ⟨ht, fun d hd => ?_, rfl⟩
        cases hd
        exact hfine diagnostic rfl
    · intro stop t hstop
      exact ⟨hstop.1, bind_of_error hstop.2⟩

end Eval
end Lox
