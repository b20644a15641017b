import Lox.Proofs.Eval.Bodies
import Lox.Proofs.Eval.Steady
import Lox.Proofs.Watch.Dispatch

/-! # What lasts

However far an evaluation goes, what keywords are bound to stays, because no
declaration and no assignment of an accepted program reaches them; and every
instance stays one of its class. -/

namespace Lox.Watch

open Run
open Eval (heap_methodTable)
open Scope (ClassKind Placed.expr Placed.exprs Placed.function Placed.stmt Placed.stmts
  Placed.methods)

/-! ## Heaps -/

/-- What keywords are bound to stays, and instances stay instances of their classes. -/
structure Lasting (h h' : Heap) : Prop where
  firm : Firm h h'
  kinds : ∀ i c, h.classOf? i = some c → h'.classOf? i = some c

variable {h h' h'' : Heap}

theorem Lasting.refl (h : Heap) : Lasting h h := ⟨.refl h, fun _ _ hc => hc⟩

theorem Lasting.trans (hl : Lasting h h') (hl' : Lasting h' h'') : Lasting h h'' :=
  ⟨hl.firm.trans hl'.firm, fun i c hc => hl'.kinds i c (hl.kinds i c hc)⟩

theorem Firm.lasting (hf : Firm h h') (hinstances : h'.instances = h.instances) : Lasting h h' := by
  refine ⟨hf, fun i c hc => ?_⟩
  unfold Heap.classOf? at *
  rw [hinstances]
  exact hc

theorem lasting_addFunctions (h : Heap) (objects : Array FunctionObject) :
    Lasting h (h.addFunctions objects) :=
  Firm.lasting (firm_of_frames rfl (Nat.le_refl _)) rfl

theorem lasting_newInstance (h : Heap) (c : ClassId) : Lasting h (h.newInstance c).2 := by
  refine ⟨firm_of_frames rfl (Nat.le_refl _), fun i c' hc => ?_⟩
  obtain ⟨object, hobject, hclass⟩ := Option.map_eq_some_iff.mp hc
  have hlt := (Array.getElem?_eq_some_iff.mp hobject).1
  show (h.instances.push ⟨c, .empty⟩)[i.index]?.map InstanceObject.class_ = some c'
  rw [Array.getElem?_push, if_neg (Nat.ne_of_lt hlt), hobject]
  exact congrArg some hclass

theorem lasting_setField (h : Heap) (i : InstanceId) (name : String) (v : Value) :
    Lasting h (h.setField i name v) := by
  refine ⟨firm_of_frames rfl (Nat.le_refl _), fun j c hc => ?_⟩
  obtain ⟨object, hobject, hclass⟩ := Option.map_eq_some_iff.mp hc
  simp only [Heap.classOf?, Heap.setField, Array.getElem?_modify, hobject]
  split <;> exact congrArg some hclass

/-! ## Computations -/

variable {α β : Type}

/-- All functions of a heap stand in classes of some kind. -/
def Furnished (h : Heap) : Prop := h.Made fun fn => ∃ k, Placed.function k fn

/-- In a heap of placed functions a computation lets last what lasts. -/
structure Lasts (r : Run α) : Prop where
  ends : ∀ m, Furnished m.heap →
    Ends r m (fun _ m' => Furnished m'.heap ∧ Lasting m.heap m'.heap) fun _ _ => True

variable {r : Run α}

theorem Lasts.bind {k : α → Run β} (hr : Lasts r) (hk : ∀ a, Lasts (k a)) : Lasts (r >>= k) := by
  constructor
  intro m hm
  rw [ends_bind]
  refine (hr.ends m hm).imp (fun a m' hm' => ?_) fun _ _ h => h
  exact ((hk a).ends m' hm'.1).imp (fun _ _ h => ⟨h.1, hm'.2.trans h.2⟩) fun _ _ h => h

theorem Lasts.within {frame : FrameId} (hr : Lasts r) : Lasts (Run.within frame r) := by
  constructor
  intro m hm
  rw [Run.ends_within]
  exact hr.ends { m with current := frame } hm

theorem Lasts.asCall (hr : Lasts r) : Lasts (Run.asCall r) := by
  constructor
  intro m hm
  rw [Run.ends_asCall]
  exact hr.ends { m with callDepth := m.callDepth + 1 } hm

theorem lasts_onHeap {f : Heap → α × Heap} (hfunctions : ∀ h, (f h).2.functions = h.functions)
    (hlasting : ∀ h, Lasting h (f h).2) : Lasts (onHeap f) :=
  ⟨fun m hm => ⟨(makes_stepwise _).onHeap hfunctions |>.ends m hm, hlasting m.heap⟩⟩

theorem lasts_define {name : String} (hname : Ordinary name) (v : Value) :
    Lasts (define name v) :=
  ⟨fun m hm => ⟨hm, (firm_define m.heap m.current hname v).lasting rfl⟩⟩

/-! Many rules only look at the machine. -/

/-- A computation that changes nothing in the heap. -/
theorem lasts_of_heap (hr : ∀ m, Ends r m (fun _ m' => m'.heap = m.heap) fun _ _ => True) :
    Lasts r := by
  constructor
  intro m hm
  refine (hr m).imp (fun _ m' hheap => ?_) fun _ _ h => h
  rw [hheap]
  exact ⟨hm, .refl _⟩

theorem lasts_pure (a : α) : Lasts (pure a : Run α) := lasts_of_heap fun _ => rfl

theorem lasts_ask (f : Machine → α) : Lasts (ask f) := lasts_of_heap fun _ => rfl

theorem lasts_fail (error : RuntimeError) (span : Span) : Lasts (fail error span : Run α) :=
  lasts_of_heap fun _ => trivial

theorem lasts_exhaust : Lasts (exhaust : Run α) := lasts_of_heap fun _ => trivial

theorem lasts_orFail (result : Except RuntimeError α) (span : Span) :
    Lasts (orFail result span) := by
  cases result with
  | ok a => exact lasts_pure a
  | error error => exact lasts_fail error span

theorem lasts_orElseFail (result : Option α) (error : RuntimeError) (span : Span) :
    Lasts (orElseFail result error span) := by
  cases result with
  | some a => exact lasts_pure a
  | none => exact lasts_fail error span

theorem Still.lasts (hr : Still r) : Lasts r :=
  lasts_of_heap fun m => (hr m).imp (fun _ _ hm => by rw [hm]) fun _ _ _ => trivial

theorem lasts_writeLine (text : String) : Lasts (writeLine text) := by
  refine lasts_of_heap fun m => ?_
  unfold Ends writeLine
  cases m.sink.writeLine text with
  | mk step sink => cases step <;> trivial

theorem lasts_callNative (n : NativeId) (args : List Value) (paren : Span) :
    Lasts (callNative n args paren) := by
  refine lasts_of_heap fun m => ?_
  unfold Ends callNative
  cases m.host[n.index]? with
  | none => trivial
  | some code =>
    dsimp only
    cases code ⟨m.heap, m.clock.reading m.clock.reads⟩ args <;> trivial

theorem lasts_readVariable (id : Nat) (name : String) (span : Span) :
    Lasts (Eval.readVariable id name span) :=
  (lasts_ask _).bind fun _ => lasts_orElseFail ..

theorem lasts_callResult (f : FunctionObject) (flow : Flow) : Lasts (Eval.callResult f flow) := by
  unfold Eval.callResult
  split
  · exact (lasts_ask _).bind fun _ => lasts_orElseFail ..
  · cases flow <;> exact lasts_pure _

/-! Other rules change the heap. -/

theorem lasts_writeVariable {target : Reference} (hname : Ordinary target.name.text) (v : Value) :
    Lasts (Eval.writeVariable target v) := by
  constructor
  intro m hm
  unfold Ends Eval.writeVariable
  cases m.bindingFrame? target.id target.name.text with
  | none => trivial
  | some frame => exact ⟨hm, (firm_define m.heap frame hname v).lasting rfl⟩

theorem lasts_closure (name : Option String) {fn : Lambda} (hfn : ∃ k, Placed.function k fn) :
    Lasts (Eval.closure name fn) := by
  constructor
  intro m hm
  exact ⟨hm.newFunction hfn, lasting_addFunctions m.heap #[⟨name, fn, m.current, false⟩]⟩

theorem lasts_boundMethod (found : Option FunctionId) (i : InstanceId) (name : Ident) :
    Lasts (Eval.boundMethod found i name) := by
  constructor
  intro m hm
  have hmakes := (Eval.makes_boundMethod found i name).ends m hm
  unfold Ends at *
  rw [boundMethod_eq] at *
  cases hmethod : found.bind m.heap.function? with
  | none => trivial
  | some method =>
    rw [hmethod] at hmakes
    have hbind : Lasting m.heap (m.heap.bind method i).2 := (firm_newFrame ..).lasting rfl
    exact ⟨hmakes, hbind.trans (lasting_addFunctions ..)⟩

theorem lasts_property (object : Value) (name : Ident) : Lasts (Eval.property object name) := by
  cases object with
  | instance_ i =>
    refine (lasts_ask _).bind fun field => ?_
    cases field with
    | some value => exact lasts_pure value
    | none => exact (lasts_ask _).bind fun found => lasts_boundMethod found i name
  | _ => exact lasts_fail ..

theorem lasts_superMethod (id : Nat) (keyword : Span) (method : Ident) :
    Lasts (Eval.superMethod id keyword method) :=
  (lasts_ask _).bind fun _ => (lasts_orElseFail ..).bind fun hops =>
    (still_superClass hops keyword).lasts.bind fun _ =>
      (still_superInstance hops keyword).lasts.bind fun i =>
        (lasts_ask _).bind fun found => lasts_boundMethod found i method

theorem lasts_superclassOf (superclass : Option Reference) :
    Lasts (Eval.superclassOf superclass) := by
  cases superclass with
  | none => exact lasts_pure none
  | some target =>
    refine (lasts_readVariable ..).bind fun v => ?_
    cases v with
    | class_ c => exact lasts_pure (some c)
    | _ => exact lasts_fail ..

theorem lasts_methodFrame (parent : Option ClassId) : Lasts (Eval.methodFrame parent) := by
  refine (lasts_ask _).bind fun frame => ?_
  cases parent with
  | none => exact lasts_pure frame
  | some c => exact lasts_onHeap (fun _ => rfl) fun h => (firm_newFrame h _ _).lasting rfl

theorem lasts_declareClass {k : ClassKind} {name : Ident} {superclass : Option Reference}
    {methods : List Method} (hplaced : Placed.stmt k (.class_ name superclass methods)) :
    Lasts (Eval.declareClass name superclass methods) := by
  have hname : Ordinary name.text := by cases superclass <;> exact hplaced.1
  have hmethods : ∀ m ∈ methods, ∃ k, Placed.function k m.fn := fun m hm =>
    ⟨_, (placed_of_methods (placed_methods_of_class hplaced) m hm).1⟩
  refine (lasts_superclassOf superclass).bind fun parent => (lasts_define hname _).bind fun _ =>
    (lasts_methodFrame parent).bind fun frame => Lasts.bind ⟨fun m hm => ?_⟩ fun table =>
      (lasts_onHeap (fun _ => rfl) fun h => (firm_newClass h _).lasting rfl).bind fun _ =>
        lasts_define hname _
  refine ⟨hm.methodTable frame .empty hmethods, ?_⟩
  show Lasting m.heap (Eval.methodTable frame methods .empty m.heap).2
  rw [heap_methodTable]
  exact lasting_addFunctions ..

/-! ## Evaluation -/

/-- What evaluation lets last within a bound on steps. -/
structure LastsWithin (fuel : Nat) : Prop where
  expr : ∀ {k : ClassKind} {e : Expr}, Placed.expr k e → Lasts (Eval.expr fuel e)
  exprs : ∀ {k : ClassKind} {es : List Expr}, Placed.exprs k es → Lasts (Eval.exprs fuel es)
  call : ∀ callee args paren, Lasts (Eval.call fuel callee args paren)
  construct : ∀ c args, Lasts (Eval.construct fuel c args)
  callFunction : ∀ {f : FunctionObject} args, (∃ k, Placed.function k f.fn) →
    Lasts (Eval.callFunction fuel f args)
  stmt : ∀ {k : ClassKind} {s : Stmt}, Placed.stmt k s → Lasts (Eval.stmt fuel s)
  stmts : ∀ {k : ClassKind} {ss : List Stmt}, Placed.stmts k ss → Lasts (Eval.stmts fuel ss)

variable {fuel : Nat} {k : ClassKind}

theorem lasts_expr_step (ih : LastsWithin fuel) {e : Expr} (he : Placed.expr k e) :
    Lasts (Eval.expr (fuel + 1) e) := by
  cases e with
  | literal => exact lasts_pure _
  | grouping inner _ => exact ih.expr (k := k) (e := inner) he
  | unary _ _ operand => exact (ih.expr (k := k) (e := operand) he).bind fun _ => lasts_orFail ..
  | binary => exact (ih.expr he.1).bind fun _ => (ih.expr he.2).bind fun _ => lasts_orFail ..
  | logical left op opSpan right =>
    refine (ih.expr he.1).bind fun a => ?_
    split
    · exact lasts_pure a
    · exact ih.expr he.2
  | var => exact lasts_readVariable ..
  | assign =>
    exact (ih.expr he.2).bind fun v => (lasts_writeVariable he.1 v).bind fun _ => lasts_pure v
  | call callee paren arguments =>
    refine (ih.expr he.1).bind fun f => (ih.exprs he.2).bind fun args => ?_
    have hstill : Still (Eval.checkCall f args.length paren) := fun m =>
      (Eval.checkCall_ends f args.length paren m).imp (fun _ _ hm => hm.1) fun _ _ hm => hm
    exact hstill.lasts.bind fun _ => (ih.call f args paren).asCall
  | get object name => exact (ih.expr (k := k) (e := object) he).bind fun o => lasts_property o name
  | set object name value =>
    refine (ih.expr he.1).bind fun o => (still_fieldOwner o name).lasts.bind fun i =>
      (ih.expr he.2).bind fun v => ?_
    exact (lasts_onHeap (fun _ => rfl) fun h => lasting_setField h i name.text v).bind
      fun _ => lasts_pure v
  | this => exact lasts_readVariable ..
  | super => exact lasts_superMethod ..
  | lambda fn => exact lasts_closure none ⟨k, he⟩

theorem lasts_exprs_step (ih : LastsWithin fuel) {es : List Expr} (hes : Placed.exprs k es) :
    Lasts (Eval.exprs (fuel + 1) es) := by
  cases es with
  | nil => exact lasts_pure []
  | cons e es =>
    exact (ih.expr hes.1).bind fun v => (ih.exprs hes.2).bind fun vs => lasts_pure (v :: vs)

theorem lasts_call_step (ih : LastsWithin fuel) (callee : Value) (args : List Value)
    (paren : Span) : Lasts (Eval.call (fuel + 1) callee args paren) := by
  cases callee with
  | native n => exact lasts_callNative n args paren
  | function f =>
    constructor
    intro m hm
    show Ends (orElseFail (m.heap.function? f) .notCallable paren >>= fun object =>
      Eval.callFunction fuel object args) m _ _
    cases hf : m.heap.function? f with
    | none => trivial
    | some object => exact (ih.callFunction args (hm.function hf)).ends m hm
  | class_ c => exact ih.construct c args
  | _ => exact lasts_fail ..

theorem lasts_construct_step (ih : LastsWithin fuel) (c : ClassId) (args : List Value) :
    Lasts (Eval.construct (fuel + 1) c args) := by
  refine (lasts_onHeap (fun _ => rfl) fun h => lasting_newInstance h c).bind fun i => ?_
  constructor
  intro m hm
  unfold Ends
  rw [ask_bind]
  cases hmethod : (m.heap.findMethod? c initializerName).bind m.heap.function? with
  | none => exact ⟨hm, .refl _⟩
  | some method =>
    obtain ⟨f, -, hf⟩ := Option.bind_eq_some_iff.mp hmethod
    have hbind : Lasting m.heap (m.heap.bind method i).2 := (firm_newFrame ..).lasting rfl
    have hplaced : ∃ k, Placed.function k method.fn := hm.function hf
    have hbody := (ih.callFunction (f := (m.heap.bind method i).1) args hplaced).bind
      fun _ => lasts_pure (Value.instance_ i)
    exact (hbody.ends { m with heap := (m.heap.bind method i).2 } hm).imp
      (fun _ _ h => ⟨h.1, hbind.trans h.2⟩) fun _ _ h => h

theorem lasts_callFunction_step (ih : LastsWithin fuel) {f : FunctionObject} (args : List Value)
    (hf : ∃ k, Placed.function k f.fn) : Lasts (Eval.callFunction (fuel + 1) f args) := by
  obtain ⟨k, hplaced⟩ := hf
  have hbody : Placed.stmts k f.fn.body := by
    cases hfn : f.fn with
    | mk params body span =>
      rw [hfn] at hplaced
      exact hplaced.2
  refine (lasts_onHeap (fun _ => rfl) fun h => (firm_newFrame h _ _).lasting rfl).bind
    fun frame => (ih.stmts hbody).within.bind fun flow => lasts_callResult f flow

theorem lasts_stmt_step (ih : LastsWithin fuel) {s : Stmt} (hs : Placed.stmt k s) :
    Lasts (Eval.stmt (fuel + 1) s) := by
  have hnormal : Lasts (pure Flow.normal : Run Flow) := lasts_pure _
  cases s with
  | expression value => exact (ih.expr (k := k) (e := value) hs).bind fun _ => hnormal
  | print value =>
    exact (ih.expr (k := k) (e := value) hs).bind fun _ => (lasts_ask _).bind fun _ =>
      (lasts_writeLine _).bind fun _ => hnormal
  | var name initializer =>
    cases initializer with
    | none => exact (lasts_define hs _).bind fun _ => hnormal
    | some value => exact (ih.expr hs.2).bind fun v => (lasts_define hs.1 v).bind fun _ => hnormal
  | block body =>
    exact (lasts_ask _).bind fun outer =>
      (lasts_onHeap (fun _ => rfl) fun h => (firm_newFrame h _ _).lasting rfl).bind
        fun frame => (@LastsWithin.stmts _ ih k body hs).within
  | ifElse condition thenBranch elseBranch =>
    cases elseBranch with
    | none =>
      refine (ih.expr hs.1).bind fun v => ?_
      split
      · exact ih.stmt hs.2
      · exact hnormal
    | some branch =>
      refine (ih.expr hs.1).bind fun v => ?_
      split
      · exact ih.stmt hs.2.1
      · exact ih.stmt hs.2.2
  | while_ condition body =>
    refine (ih.expr hs.1).bind fun v => ?_
    split
    · refine (ih.stmt hs.2).bind fun flow => ?_
      cases flow with
      | normal => exact ih.stmt (s := .while_ condition body) hs
      | break_ => exact hnormal
      | return_ value => exact lasts_pure _
    · exact hnormal
  | break_ => exact lasts_pure _
  | return_ keyword value =>
    cases value with
    | none => exact lasts_pure _
    | some value => exact (ih.expr (k := k) (e := value) hs).bind fun v => lasts_pure _
  | function name fn =>
    exact (lasts_closure _ ⟨k, hs.2⟩).bind fun v => (lasts_define hs.1 v).bind fun _ => hnormal
  | class_ name superclass methods => exact (lasts_declareClass hs).bind fun _ => hnormal

theorem lasts_stmts_step (ih : LastsWithin fuel) {ss : List Stmt} (hss : Placed.stmts k ss) :
    Lasts (Eval.stmts (fuel + 1) ss) := by
  cases ss with
  | nil => exact lasts_pure _
  | cons s ss =>
    refine (ih.stmt hss.1).bind fun flow => ?_
    cases flow with
    | normal => exact ih.stmts hss.2
    | break_ => exact lasts_pure _
    | return_ v => exact lasts_pure _

/-- Within every bound on steps, evaluation lets last what lasts. -/
theorem lastsWithin (fuel : Nat) : LastsWithin fuel := by
  induction fuel with
  | zero =>
    constructor <;> intros
    · rw [Eval.expr]; exact lasts_exhaust
    · rw [Eval.exprs]; exact lasts_exhaust
    · rw [Eval.call]; exact lasts_exhaust
    · rw [Eval.construct]; exact lasts_exhaust
    · rw [Eval.callFunction]; exact lasts_exhaust
    · rw [Eval.stmt]; exact lasts_exhaust
    · rw [Eval.stmts]; exact lasts_exhaust
  | succ fuel ih =>
    exact ⟨lasts_expr_step ih, lasts_exprs_step ih, lasts_call_step ih, lasts_construct_step ih,
      lasts_callFunction_step ih, lasts_stmt_step ih, lasts_stmts_step ih⟩

end Lox.Watch
