import Lox.Proofs.Watch.Upkeep

/-! # Evaluation upholds where things stand

Within every bound on steps, evaluation leaves a record in which all functions
stand in their classes and all uses of `this` and `super` do. -/

namespace Lox.Watch

open Eval (methodObjects size_methodObjects heap_methodTable get?_methodTable
  function?_methodTable)
open Scope (ClassKind Placed.expr Placed.exprs Placed.function Placed.stmt Placed.stmts
  Placed.methods)
open Grammar (Named)

variable {α : Type} {P : Record → Prop} {F : Trait} {w : Watched α} {here : Scene} {fuel : Nat}

/-! ## Classes -/

theorem upholds_superclassOf (superclass : Option Reference)
    (hname : ∀ t, F.holds t → ∀ target ∈ superclass, Ordinary target.name.text) :
    Upholds F.holds (superclassOf here superclass) fun parent =>
      ((Trait.pure (parent.isSome = superclass.isSome)).and (Trait.exists_ parent)).holds := by
  cases superclass with
  | none => exact upholds_pure fun _ _ => ⟨rfl, fun _ h => by cases h⟩
  | some target =>
    refine (upholds_readOrdinary fun t h => hname t h target rfl).bind fun v => ?_
    cases v with
    | class_ c =>
      refine upholds_pure fun t h => ⟨rfl, ?_⟩
      rintro _ ⟨⟩
      exact (holds_sane_singleton.mp h.2).older c rfl
    | _ => exact upholds_fail (by simp) _

/-- The kind of a class is told by whether it has a superclass. -/
theorem placed_methods_of_class {k : ClassKind} {name : Ident} {superclass : Option Reference}
    {methods : List Method} (h : Placed.stmt k (.class_ name superclass methods)) :
    Placed.methods (if superclass.isSome then .subclass else .plain) methods := by
  cases superclass with
  | none => exact h.2
  | some parent => exact h.2.2

theorem upholds_methodFrame (methods : List Method) {parent : Option ClassId} {ribs : List Rib}
    {p : ClassKind → Prop} {k : FrameId → Watched α} {Q : α → Record → Prop}
    (hhere : ∀ t, F.holds t → (Trait.here ribs p).holds t ∧ (Trait.exists_ parent).holds t)
    (hplaced : ∀ t, F.holds t →
      Placed.methods (if parent.isSome then .subclass else .plain) methods)
    (hk : ∀ frame, Upholds (F.and (Trait.stands true frame (methodRibs parent frame ribs)
      (Placed.methods · methods))).holds (k frame) Q) :
    Upholds F.holds (lift (Eval.methodFrame parent) >>= k) Q := by
  cases parent with
  | none =>
    refine upholds_step (fun t => t.machine.current) (fun t => t) (fun _ => rfl)
      Record.Before.refl (fun t ht h => ⟨⟨.refl _, ht⟩, h, ?_⟩) hk
    obtain ⟨⟨k, hstanding, -⟩, -⟩ := hhere t h
    exact ⟨.plain, .plain hstanding, hplaced t h⟩
  | some c =>
    let names : Bindings Value := Bindings.empty.insert "super" (.class_ c)
    refine upholds_step
      (fun t => (t.machine.heap.newFrame (some t.machine.current) names).1)
      (fun t => t.withHeap (t.machine.heap.newFrame (some t.machine.current) names).2)
      (fun _ => rfl) (fun t => Record.before_withHeap (Heap.grows_newFrame ..))
      (fun t ht h => ?_) hk
    have hgrows := t.machine.heap.grows_newFrame (some t.machine.current) names
    have hfirm := firm_newFrame t.machine.heap (some t.machine.current) names
    obtain ⟨⟨k, hstanding, -⟩, hexists⟩ := hhere t h
    refine ⟨⟨hfirm, ht.proper.newFrame _ fun name v hv => ?_, ht.points, ht.housed⟩,
      F.stays ⟨Record.before_withHeap hgrows, hfirm⟩ h, .subclass, ?_, hplaced t h⟩
    · rw [Bindings.get?_insert] at hv
      split at hv
      · obtain rfl := Option.some.inj hv
        refine ⟨fine_of_ne (fun _ h => by cases h), ?_⟩
        rintro _ ⟨⟩
        exact hexists c rfl
      · cases hv
    · refine .subclass (c := c) (r := ⟨.superclass c, ["super"], none, _⟩)
        ⟨rfl, List.mem_singleton.mpr rfl, by simp, ?_⟩ (Heap.enclosing?_newFrame_self ..)
        (hstanding.mono hgrows hfirm)
      show (t.machine.heap.newFrame (some t.machine.current) names).2.get?
        (t.machine.heap.newFrame (some t.machine.current) names).1 "super" = _
      rw [Heap.get?_newFrame, if_pos rfl]
      exact Bindings.get?_insert_self ..

theorem placed_of_methods {k : ClassKind} : ∀ {ms : List Method}, Placed.methods k ms →
    ∀ m ∈ ms, Placed.function k m.fn ∧
      (m.name.text = initializerName → Valueless.stmts m.fn.body)
  | ⟨_, _⟩ :: ms, h, m, hm => by
    rcases List.mem_cons.mp hm with rfl | hm
    · exact h.1
    · exact placed_of_methods h.2 m hm

theorem upholds_methods {frame : FrameId} {ribs : List Rib} {ms : List Method}
    {k : Bindings FunctionId → Watched α} {Q : α → Record → Prop}
    (hstands : ∀ t, F.holds t →
      (Trait.stands true frame ribs (Placed.methods · ms)).holds t)
    (hk : ∀ table, Upholds (F.and (Trait.methods table)).holds (k table) Q) :
    Upholds F.holds (do
      let table ← lift (Run.onHeap (Eval.methodTable frame ms .empty))
      settle ms.length ⟨ribs, true⟩
      k table) Q := by
  refine upholds_step (fun t => (Eval.methodTable frame ms .empty t.machine.heap).1)
    (fun t => t.withFunctions (methodObjects frame ms) ⟨ribs, true⟩) (fun t => ?_)
    (fun t => t.before_withFunctions ..)
    (fun t ht h => ⟨⟨(onward_withFunctions ..).firm, ?_⟩, F.stays (onward_withFunctions ..) h, ?_⟩)
    hk
  · unfold Record.withFunctions
    rw [← heap_methodTable frame ms .empty, size_methodObjects]
    rfl
  · obtain ⟨k, hstanding, hplaced⟩ := hstands t h
    refine ht.withFunctions fun object hobject => ?_
    obtain ⟨m, hm, rfl⟩ := List.mem_map.mp (List.mem_toArray.mp hobject)
    obtain ⟨hfunction, hvalueless⟩ := placed_of_methods hplaced m hm
    exact ⟨⟨k, hstanding, hfunction⟩, fun hinitializer =>
      ⟨hvalueless (of_decide_eq_true hinitializer), fun hbound => by cases hbound⟩⟩
  · intro name f hf
    rcases get?_methodTable hf with hempty | ⟨hle, hlt⟩
    · cases hempty
    refine ⟨?_, fun hname => ?_⟩
    · rw [← size_methodObjects frame ms] at hlt
      exact ⟨_, home_of_made ht hle hlt, rfl⟩
    · rcases function?_methodTable hf with hempty | ⟨object, hobject, hflag⟩
      · cases hempty
      · rw [heap_methodTable] at hobject
        exact ⟨object, hobject, hflag.trans (decide_eq_true hname)⟩

/-- A class is declared: its methods stand where their texts do. -/
theorem upholds_declareClass {name : Ident} {superclass : Option Reference} {methods : List Method}
    (hhere : ∀ t, F.holds t →
      (Trait.here here.ribs (Placed.stmt · (.class_ name superclass methods))).holds t) :
    Upholds F.holds (declareClass here name superclass methods)
      fun _ => (Trait.pure True).holds := by
  have hname : ∀ t, F.holds t → Ordinary name.text := by
    intro t h
    obtain ⟨k, -, hplaced⟩ := hhere t h
    cases superclass <;> exact hplaced.1
  unfold declareClass
  refine (upholds_superclassOf superclass fun t h target htarget => ?_).bind
    fun parent => ?_
  · obtain ⟨k, -, hplaced⟩ := hhere t h
    obtain rfl := htarget
    exact hplaced.2.1
  refine upholds_define (fun t h => hname t h.1) (fun t _ => holds_sane_nil) ?_
  refine upholds_methodFrame methods (fun t h => ⟨hhere t h.1, h.2.2⟩)
    (fun t h => ?_) fun frame => ?_
  · obtain ⟨k, -, hplaced⟩ := hhere t h.1
    rw [h.2.1]
    exact placed_methods_of_class hplaced
  refine upholds_methods (fun t h => h.2) fun table => ?_
  refine upholds_change (M := fun c t => F.holds t ∧ (Trait.sane [.class_ c]).holds t)
    (fun h => h.grows_newClass _)
    (fun t ht h => ⟨firm_newClass _ _, ht.proper.newClass h.2 h.1.1.2.2⟩)
    (fun t ht h honward => ⟨F.stays honward h.1.1.1, holds_sane_singleton.mpr
      ⟨fine_of_ne (fun _ h => by cases h), ?_⟩⟩) fun c => ?_
  · rintro _ ⟨⟩
    exact Array.size_push .. ▸ Nat.lt_succ_self _
  rw [← bind_pure (lift _)]
  refine upholds_define (F := F.and (Trait.sane [.class_ c])) (fun t h => hname t h.1)
    (fun t h => h.2) ?_
  exact upholds_pure fun _ _ => trivial

/-! ## Calls -/

/-- A body is run in another frame, in the scopes of which it stands. -/
theorem Upholds.within {p : ClassKind → Prop} {ribs : List Rib} {values : α → List Value}
    (h : Upholds (Trait.here ribs p).holds w fun a => (Trait.sane (values a)).holds)
    (frame : FrameId) :
    Upholds (Trait.stands false frame ribs p).holds (within frame w)
      fun a => (Trait.sane (values a)).holds := by
  constructor
  · exact Advances.within h.grows frame
  · intro t ht hp
    rw [ends_within]
    have hback : ∀ u : Record, Record.Onward { t with machine := { t.machine with current := frame } } u →
        t.Onward { u with machine := { u.machine with current := t.machine.current } } :=
      fun u ho => ⟨⟨rfl, ho.before.globals, ho.before.resolutions, ho.before.heap,
        ho.before.homes, ho.before.points⟩, ho.firm⟩
    have hinside := h.ends { t with machine := { t.machine with current := frame } }
      ⟨ht.proper, ht.points, ht.housed⟩ hp
    refine hinside.imp (fun a u hu hgiven => ?_) fun _ u hu hgiven => ?_
    · obtain ⟨⟨honward, hupright⟩, hsane⟩ := hu ⟨hgiven.lent, hgiven.classes⟩
      exact ⟨⟨hback u honward, hupright.proper, hupright.points, hupright.housed⟩, hsane⟩
    · obtain ⟨⟨honward, hupright⟩, hregular⟩ := hu ⟨hgiven.lent, hgiven.classes⟩
      exact ⟨⟨hback u honward, hupright.proper, hupright.points, hupright.housed⟩, hregular⟩

/-- What is called takes so many arguments. -/
theorem Upholds.called {G : α → Trait} {callee : Value} {count : Nat}
    (h : Upholds (fun t => F.holds t ∧ t.machine.heap.arity? callee = some count) w
      fun a => (G a).holds) (paren : Span) :
    Upholds F.holds (do
      lift (Eval.checkCall callee count paren)
      asCall w) fun a => (G a).holds := by
  constructor
  · exact Advances.called h.grows callee count paren
  · intro t ht hp
    rw [ends_bind, ends_lift]
    have hchecked := (Eval.checkCall_ends callee count paren t.machine).and
      (StopsRegularly.checkCall callee count paren t.machine)
    refine hchecked.imp (fun _ m hm => ?_) fun stop m hm _ => by
      rw [hm.1]; exact ⟨⟨.refl t, ht⟩, hm.2⟩
    obtain ⟨⟨rfl, -, harity⟩, -⟩ := hm
    rw [ends_asCall]
    have hin := t.alike_depth (t.machine.callDepth + 1)
    refine (h.ends _ (hin.upright ht) ⟨F.stays hin.onward hp, harity⟩).imp
      (fun a u hu hgiven => ?_) fun _ u hu hgiven => ?_
    · obtain ⟨⟨honward, hupright⟩, hresult⟩ := hu ⟨hgiven.lent, hgiven.classes⟩
      have hout := u.alike_depth t.machine.callDepth
      exact ⟨⟨(hin.onward.trans honward).trans hout.onward, hout.upright hupright⟩,
        (G a).stays hout.onward hresult⟩
    · obtain ⟨⟨honward, hupright⟩, hregular⟩ := hu ⟨hgiven.lent, hgiven.classes⟩
      have hout := u.alike_depth t.machine.callDepth
      exact ⟨⟨(hin.onward.trans honward).trans hout.onward, hout.upright hupright⟩, hregular⟩

/-- A class that a function of the host returns is handed out at the point of its call. -/
theorem callNative_lendsClass (here : Scene) (n : NativeId) (args : List Value) (paren : Span)
    (t : Record) :
    Ends (Run.callNative n args paren) t.machine
      (fun v _ => ∀ c, v = .class_ c →
        c ∈ (Point.mk (.run (.native n) args) here t.machine t.completed).lendsClass)
      fun _ _ => True := by
  unfold Ends Run.callNative Point.lendsClass
  dsimp only
  cases t.machine.host[n.index]? with
  | none => trivial
  | some code =>
    dsimp only
    cases code ⟨t.machine.heap, t.machine.clock.reading t.machine.clock.reads⟩ args with
    | error words => trivial
    | ok v =>
      rintro c rfl
      rfl

/-- A function of the host refuses in its own words. -/
theorem StopsRegularly.callNative (n : NativeId) (args : List Value) (paren : Span) :
    StopsRegularly (Run.callNative n args paren) := by
  intro m
  unfold Ends Run.callNative
  cases m.host[n.index]? with
  | none => exact regular_of_ne (by simp) paren
  | some code =>
    dsimp only
    cases code ⟨m.heap, m.clock.reading m.clock.reads⟩ args with
    | ok v => trivial
    | error words => exact regular_of_ne (by simp) paren

theorem upholds_native (here : Scene) (n : NativeId) (args : List Value) (paren : Span)
    (hcalled : ∀ t : Record, t.Upright → P t →
      Called t.machine.heap t.homes (.run (.native n) args)) :
    Upholds P (do
      mark here (.run (.native n) args)
      lift (Run.callNative n args paren)) fun v => (Trait.sane [v]).holds := by
  refine ⟨(tells_native (K := ⟨.empty, 0⟩) (P := P) here n args paren).grows, fun t ht hp => ?_⟩
  rw [ends_bind]
  show Ends (lift (Run.callNative n args paren)) (t.noted here (.run (.native n) args)) _ _
  rw [ends_lift]
  have hevent : ∀ id name, Event.run (.native n) args = .use id name → Ordinary name := fun _ _ h => by cases h
  have hnoted : t.Onward (t.noted here (.run (.native n) args)) :=
    ⟨t.before_noted .., .refl _⟩
  have hupright : (t.noted here (.run (.native n) args)).Upright := by
    refine ht.noted ?_ (hcalled t ht hp)
    exact Point.seated_of_ordinary hevent ht.proper.older
      fun c name f hf => ht.proper.function (ht.proper.isMethod hf)
  have hends := ((callNative_ends here n args paren (t.noted here (.run (.native n) args))).and
    (callNative_lendsClass here n args paren (t.noted here (.run (.native n) args)))).and
      (StopsRegularly.callNative n args paren (t.noted here (.run (.native n) args)).machine)
  refine hends.imp (fun v m hm hgiven => ?_) fun _ m hm _ =>
    ⟨⟨hnoted.trans hm.1.1.onward, hm.1.1.upright hupright⟩, hm.2⟩
  obtain ⟨⟨⟨halike, hlends⟩, hclass⟩, -⟩ := hm
  refine ⟨⟨hnoted.trans halike.onward, halike.upright hupright⟩, holds_sane_singleton.mpr ?_⟩
  have hheap : m.heap = t.machine.heap := halike.heap
  refine ⟨fun f hf => ?_, fun c hc => ?_⟩
  · obtain ⟨hlt, hhomes⟩ := hgiven.lent _ (Array.mem_push_self ..) f (hlends f hf)
    have hin : f.index < t.homes.size := by
      rw [ht.proper.size]
      exact hlt
    have hhome : t.homes[f.index]? = some t.homes[f.index] := Array.getElem?_eq_getElem hin
    exact ⟨_, hhome, hhomes _ hhome⟩
  · show c.index < m.heap.classes.size
    rw [hheap]
    exact hgiven.classes _ (Array.mem_push_self ..) c (hclass c hc)

theorem upholds_callResult {f : FunctionObject} {flow : Flow}
    (hflow : ∀ t, P t → (Trait.sane (valuesOf flow)).holds t)
    (hinitialized : ∀ t, P t → (Trait.initialized f).holds t) :
    Upholds P (lift (Eval.callResult f flow)) fun v => (Trait.sane [v]).holds := by
  unfold Eval.callResult
  by_cases hinit : f.isInitializer = true
  · rw [if_pos hinit]
    refine upholds_step (fun t => t.machine.heap.getAt? f.closure 0 "this") (fun t => t)
      (k := fun found => lift (Run.orElseFail found .initializerUnbound f.fn.span))
      (M := fun found _ => ∃ i, found = some (.instance_ i))
      (fun _ => rfl) Record.Before.refl (fun t _ h => ⟨⟨.refl _, ‹_›⟩, hinitialized t h hinit⟩)
      fun found => ?_
    cases found with
    | none =>
      have hfails := tells_fail (K := ⟨.empty, 0⟩) (P := P) (Q := fun (_ : Value) _ => True)
        .initializerUnbound f.fn.span
      refine ⟨hfails.grows, fun t _ h => ?_⟩
      obtain ⟨i, hi⟩ := h
      cases hi
    | some v =>
      refine upholds_pure fun t h => ?_
      obtain ⟨i, hi⟩ := h
      obtain rfl := Option.some.inj hi
      exact holds_sane_instance i
  · rw [if_neg hinit]
    cases flow with
    | normal => exact upholds_pure fun t _ => holds_sane_nil
    | break_ => exact upholds_pure fun t _ => holds_sane_nil
    | return_ v => exact upholds_pure hflow

/-! ## Evaluation -/

/-- What evaluation upholds within a bound on steps. -/
structure UpholdsWithin (fuel : Nat) : Prop where
  expr : ∀ here e, Upholds (Trait.here here.ribs (Placed.expr · e)).holds (Watch.expr fuel here e)
    fun v => (Trait.sane [v]).holds
  exprs : ∀ here es, Upholds (Trait.here here.ribs (Placed.exprs · es)).holds
    (Watch.exprs fuel here es) fun vs => (Trait.sane vs).holds
  call : ∀ here f args paren, Upholds
    (fun t => (Trait.sane (f :: args)).holds t ∧ t.machine.heap.arity? f = some args.length)
    (Watch.call fuel here f args paren) fun v => (Trait.sane [v]).holds
  construct : ∀ here c args, Upholds (Trait.sane args).holds (Watch.construct fuel here c args)
    fun v => (Trait.sane [v]).holds
  callFunction : ∀ here f args, Upholds ((Trait.stands false f.closure here.ribs
    (Placed.function · f.fn)).and ((Trait.initialized f).and (Trait.sane args))).holds
    (Watch.callFunction fuel here f args) fun v => (Trait.sane [v]).holds
  stmt : ∀ here s, Upholds (Trait.here here.ribs (Placed.stmt · s)).holds (Watch.stmt fuel here s)
    fun flow => (Trait.sane (valuesOf flow)).holds
  stmts : ∀ here ss, Upholds (Trait.here here.ribs (Placed.stmts · ss)).holds
    (Watch.stmts fuel here ss) fun flow => (Trait.sane (valuesOf flow)).holds

/-- What stands in some kind of class has parts that stand there too. -/
theorem Trait.here_imp {ribs : List Rib} {p q : ClassKind → Prop} {t : Record}
    (h : (Trait.here ribs p).holds t) (hpq : ∀ k, p k → q k) : (Trait.here ribs q).holds t :=
  let ⟨k, hstanding, hp⟩ := h
  ⟨k, hstanding, hpq k hp⟩

theorem sane_data {result : Except RuntimeError Value} {span : Span}
    (herror : ∀ error, result = .error error → error.OfOperands)
    (h : ∀ v, result = .ok v → v.IsData) :
    Upholds P (lift (Run.orFail result span)) fun v => (Trait.sane [v]).holds :=
  upholds_orFail (fun error he => (herror error he).ne_initializerUnbound)
    fun v hv _ _ => holds_sane_data (h v hv).ne_function (h v hv).ne_class

theorem upholds_expr_step (ih : UpholdsWithin fuel) (here : Scene) (e : Expr) :
    Upholds (Trait.here here.ribs (Placed.expr · e)).holds (Watch.expr (fuel + 1) here e)
      fun v => (Trait.sane [v]).holds := by
  rw [Watch.expr.eq_def]
  refine upholds_mark_ordinary (fun _ _ h => by cases h)
    (M := (Trait.here here.ribs (Placed.expr · e)).holds)
    (fun _ _ _ => called_of_ne fun _ _ h => by cases h) (fun _ h => h) ?_
  cases e with
  | literal value _ =>
    have hdata := value.value_isData
    exact upholds_pure fun _ _ => holds_sane_data hdata.ne_function hdata.ne_class
  | grouping inner _ => exact ih.expr here inner
  | unary op opSpan operand =>
    exact (ih.expr here operand).bind fun v =>
      sane_data (fun _ => UnaryOp.ofOperands) fun _ => UnaryOp.apply_isData
  | binary left op opSpan right =>
    refine ((ih.expr here left).weaken fun t h => Trait.here_imp h fun _ h => h.1).bind
      fun a => ?_
    refine ((ih.expr here right).weaken fun t h => Trait.here_imp h.1 fun _ h => h.2).bind
      fun b => ?_
    exact sane_data (fun _ => BinaryOp.ofOperands) fun _ => BinaryOp.apply_isData
  | logical left op _ right =>
    refine ((ih.expr here left).weaken fun t h => Trait.here_imp h fun _ h => h.1).bind
      fun a => ?_
    by_cases hsettled : op.settledBy a = true
    · rw [if_pos hsettled]
      exact upholds_pure fun t h => h.2
    · rw [if_neg hsettled]
      exact (ih.expr here right).weaken fun t h => Trait.here_imp h.1 fun _ h => h.2
  | var target =>
    refine upholds_readOrdinary fun t h => ?_
    obtain ⟨_, -, hname⟩ := h
    exact hname
  | assign target value =>
    refine ((ih.expr here value).weaken fun t h => Trait.here_imp h fun _ h => h.2).bind
      fun v => ?_
    refine (upholds_writeVariable (fun t h => ?_) fun t h => h.2).bind fun _ => ?_
    · obtain ⟨⟨_, -, hname, -⟩, -⟩ := h
      exact hname
    · exact upholds_pure fun t h => h.1.2
  | call callee paren arguments =>
    refine ((ih.expr here callee).weaken fun t h => Trait.here_imp h fun _ h => h.1).bind
      fun f => ?_
    refine ((ih.exprs here arguments).weaken fun t h => Trait.here_imp h.1 fun _ h => h.2).bind
      fun args => ?_
    refine Upholds.called ((ih.call _ f args paren).weaken fun t h => ⟨?_, h.2⟩) paren
    exact List.forall_mem_cons.mpr ⟨h.1.1.2 f List.mem_cons_self, h.1.2⟩
  | get object name => exact (ih.expr here object).bind fun o => upholds_property o name
  | set object name value =>
    refine ((ih.expr here object).weaken fun t h => Trait.here_imp h fun _ h => h.1).bind
      fun o => ?_
    refine (upholds_still (still_fieldOwner o name) (.fieldOwner o name)).seq fun i => ?_
    refine ((ih.expr here value).weaken fun t h => Trait.here_imp h.1 fun _ h => h.2).bind
      fun v => ?_
    refine upholds_change (M := fun _ => (Trait.sane [v]).holds) (fun h => h.grows_setField ..)
      (fun t ht h => ⟨firm_of_frames rfl (Nat.le_refl _),
        ht.proper.setField i _ (holds_sane_singleton.mp h.2)⟩)
      (fun t _ h honward => (Trait.sane [v]).stays honward h.2) fun _ => ?_
    exact upholds_pure fun t h => h
  | this id span =>
    refine upholds_readVariable fun t ht h => ?_
    obtain ⟨k, hstanding, hk⟩ := h
    refine ⟨fun _ _ => ⟨k, hk, hstanding⟩, fun _ hevent => ?_, ht.proper.older,
      fun c name f hf => ht.proper.function (ht.proper.isMethod hf)⟩
    exact absurd (Event.use.inj hevent).2 (by decide)
  | super id keyword method => exact upholds_superMethod fun t h => h
  | lambda fn => exact upholds_closure none fun t h => h

theorem upholds_exprs_step (ih : UpholdsWithin fuel) (here : Scene) (es : List Expr) :
    Upholds (Trait.here here.ribs (Placed.exprs · es)).holds (Watch.exprs (fuel + 1) here es)
      fun vs => (Trait.sane vs).holds := by
  cases es with
  | nil =>
    rw [Watch.exprs]
    exact upholds_pure fun _ _ => holds_sane_none
  | cons e es =>
    rw [Watch.exprs]
    refine ((ih.expr here e).weaken fun t h => Trait.here_imp h fun _ h => h.1).bind fun v => ?_
    refine ((ih.exprs here es).weaken fun t h => Trait.here_imp h.1 fun _ h => h.2).bind
      fun vs => ?_
    exact upholds_pure fun t h => List.forall_mem_cons.mpr ⟨h.1.2 v List.mem_cons_self, h.2⟩

theorem upholds_call_step (ih : UpholdsWithin fuel) (here : Scene) (callee : Value)
    (args : List Value) (paren : Span) :
    Upholds (fun t => (Trait.sane (callee :: args)).holds t ∧
        t.machine.heap.arity? callee = some args.length)
      (Watch.call (fuel + 1) here callee args paren) fun v => (Trait.sane [v]).holds := by
  rw [Watch.call.eq_def]
  have hcalled : ∀ t : Record, t.Upright → ((Trait.sane (callee :: args)).holds t ∧
      t.machine.heap.arity? callee = some args.length) →
        Called t.machine.heap t.homes (.run callee args) := by
    rintro t - ⟨hsane, harity⟩ _ _ ⟨⟩
    exact ⟨hsane callee List.mem_cons_self, harity⟩
  have hmark : ∀ {k : Unit → Watched Value}, Upholds (Trait.sane (callee :: args)).holds (k ())
      (fun v => (Trait.sane [v]).holds) → Upholds (fun t => (Trait.sane (callee :: args)).holds t ∧
        t.machine.heap.arity? callee = some args.length)
          (mark here (.run callee args) >>= k) fun v => (Trait.sane [v]).holds := fun hk =>
    upholds_mark_ordinary (fun _ _ h => by cases h) hcalled (fun _ h => h.1) hk
  cases callee with
  | native n => exact upholds_native here n args paren hcalled
  | function f =>
    refine hmark ?_
    refine upholds_ask (M := fun object? t => (Trait.sane (.function f :: args)).holds t ∧
      t.machine.heap.function? f = object?) (fun t _ h => ⟨h, rfl⟩) fun object? => ?_
    refine (upholds_orElseFail (Q := fun object t => (Trait.sane (.function f :: args)).holds t ∧
      t.machine.heap.function? f = some object) (by simp) fun object hobject t h => ?_).seq
        fun object => ?_
    · obtain rfl := hobject
      exact h
    refine upholds_step (fun t => t.homes[f.index]?.getD ⟨[], false⟩) (fun t => t)
      (M := fun home => ((Trait.stands false object.closure home.ribs
        (Placed.function · object.fn)).and
          ((Trait.initialized object).and (Trait.sane args))).holds) (fun _ => rfl)
      Record.Before.refl (fun t ht h => ⟨⟨.refl _, ht⟩, ?_⟩)
      fun home => ih.callFunction { here with ribs := home.ribs } object args
    obtain ⟨hsane, hobject⟩ := h
    obtain ⟨hf, hargs⟩ := List.forall_mem_cons.mp hsane
    obtain ⟨home, hhome, hbound⟩ := hf.fine f rfl
    obtain ⟨⟨k, hstanding, hplaced⟩, hinitial⟩ := ht.proper.functions f object home hobject hhome
    rw [hbound] at hstanding
    rw [hhome]
    exact ⟨⟨k, hstanding, hplaced⟩, fun hinitializer => (hinitial hinitializer).2 hbound, hargs⟩
  | class_ c =>
    exact hmark ((ih.construct here c args).weaken fun t h => (List.forall_mem_cons.mp h).2)
  | _ => exact hmark (upholds_fail (by simp) _)

/-- An initializer is run as a method that has been bound to the new instance. -/
theorem upholds_construct_step (ih : UpholdsWithin fuel) (here : Scene) (c : ClassId)
    (args : List Value) :
    Upholds (Trait.sane args).holds (Watch.construct (fuel + 1) here c args)
      fun v => (Trait.sane [v]).holds := by
  rw [Watch.construct]
  refine upholds_change (M := fun _ => (Trait.sane args).holds) (fun h => h.grows_newInstance c)
    (fun t ht _ => ⟨firm_of_frames rfl (Nat.le_refl _), ht.proper.newInstance c⟩)
    (fun t _ h honward => (Trait.sane args).stays honward h) fun i => ?_
  have hinstance : ∀ t, (Trait.sane [.instance_ i]).holds t := fun _ => holds_sane_instance i
  refine upholds_ask (M := fun found t => (Trait.sane args).holds t ∧
    t.machine.heap.findMethod? c initializerName = found) (fun t _ h => ⟨h, rfl⟩) fun found => ?_
  refine upholds_ask (M := fun method? t => (Trait.sane args).holds t ∧
    t.machine.heap.findMethod? c initializerName = found ∧
      found.bind t.machine.heap.function? = method?)
    (fun t _ h => ⟨h.1, h.2, by rw [← h.2]⟩) fun method? => ?_
  cases method? with
  | none => exact upholds_pure fun t _ => hinstance t
  | some method =>
    refine upholds_step
      (fun t => (t.homes[(found.getD ⟨0⟩).index]?.getD ⟨[], false⟩,
        (⟨t.machine.heap.frames.size⟩ : FrameId), (t.machine.heap.bind method i).1))
      (fun t => t.withHeap (t.machine.heap.bind method i).2)
      (k := fun r => do
        let _ ← Watch.callFunction fuel { here with ribs := receiverRib i r.2.1 :: r.1.ribs }
          r.2.2 args
        pure (.instance_ i))
      (M := fun r => ((Trait.stands false r.2.2.closure (receiverRib i r.2.1 :: r.1.ribs)
        (Placed.function · r.2.2.fn)).and
          ((Trait.initialized r.2.2).and (Trait.sane args))).holds)
      (fun _ => rfl) (fun t => Record.before_withHeap (Heap.grows_newFrame ..))
      (fun t ht h => ?_) fun r => ?_
    · obtain ⟨hsane, hfound, hmethod⟩ := h
      obtain ⟨f, rfl, hobject⟩ := Option.bind_eq_some_iff.mp hmethod
      obtain ⟨home, hhome, hunbound⟩ := ht.proper.isMethod hfound
      have hrooted := rooted_bind (ht.proper.functions f method home hobject hhome) hunbound i
      have hat : t.homes[f.index]?.getD ⟨[], false⟩ = home := by
        rw [hhome]
        rfl
      have honward : t.Onward (t.withHeap (t.machine.heap.bind method i).2) :=
        ⟨Record.before_withHeap (Heap.grows_newFrame ..), firm_newFrame ..⟩
      refine ⟨⟨firm_newFrame .., ht.proper.bind method i, ht.points, ht.housed⟩, ?_,
        fun hinitializer => (hrooted.2 hinitializer).2 rfl, (Trait.sane args).stays honward hsane⟩
      show (Trait.stands false _ (receiverRib i _ :: (t.homes[f.index]?.getD ⟨[], false⟩).ribs)
        _).holds _
      rw [hat]
      exact hrooted.1
    · refine (ih.callFunction { here with ribs := receiverRib i r.2.1 :: r.1.ribs } r.2.2
        args).bind fun _ => ?_
      exact upholds_pure fun t _ => hinstance t

theorem upholds_callFunction_step (ih : UpholdsWithin fuel) (here : Scene) (f : FunctionObject)
    (args : List Value) :
    Upholds ((Trait.stands false f.closure here.ribs (Placed.function · f.fn)).and
      ((Trait.initialized f).and (Trait.sane args))).holds
      (Watch.callFunction (fuel + 1) here f args) fun v => (Trait.sane [v]).holds := by
  rw [Watch.callFunction]
  refine upholds_change (M := fun frame => ((Trait.initialized f).and (Trait.stands false frame
      (callRib f.fn frame :: here.ribs) (Placed.stmts · f.fn.body))).holds)
    (fun h => h.grows_newFrame ..)
    (fun t ht h => ⟨firm_newFrame .., ht.proper.newFrame _ fun name v hv =>
      h.2.2 v (mem_of_bindParams hv)⟩) (fun t ht h honward => ?_) fun frame => ?_
  · obtain ⟨⟨k, hstanding, hplaced⟩, hinitialized, -⟩ := h
    obtain ⟨hparams, hbody⟩ : Named (f.fn.params.map Ident.text) ∧ Placed.stmts k f.fn.body := by
      cases hfn : f.fn with
      | mk params body span =>
        rw [hfn] at hplaced
        exact ⟨hplaced.1.1, hplaced.2⟩
    have houter := hstanding.mono honward.before.heap honward.firm
    exact ⟨(Trait.initialized f).stays honward hinitialized, k,
      .inner (r := callRib f.fn ⟨t.machine.heap.frames.size⟩) ⟨(fun _ h => by cases h), hparams⟩
        (Heap.enclosing?_newFrame_self ..) houter, hbody⟩
  · have hbody := (ih.stmts (here.enter (callRib f.fn frame)) f.fn.body).within frame
    exact hbody.frame.seq fun flow => upholds_callResult (fun t h => h.2) fun t h => h.1

/-- What comes after the initializer of a variable. -/
theorem upholds_variable {name : String} {v : Value} (hname : ∀ t, F.holds t → Ordinary name)
    (hv : ∀ t, F.holds t → (Trait.sane [v]).holds t) :
    Upholds F.holds (do
      lift (Run.define name v)
      complete name
      pure .normal) fun flow => (Trait.sane (valuesOf flow)).holds := by
  refine upholds_define (k := fun _ => do
    complete name
    pure Flow.normal) hname hv ?_
  exact upholds_complete (upholds_pure fun _ _ => holds_sane_none)

theorem upholds_stmt_step (ih : UpholdsWithin fuel) (here : Scene) (s : Stmt) :
    Upholds (Trait.here here.ribs (Placed.stmt · s)).holds (Watch.stmt (fuel + 1) here s)
      fun flow => (Trait.sane (valuesOf flow)).holds := by
  rw [Watch.stmt.eq_def]
  dsimp only
  refine upholds_mark_ordinary (fun _ _ h => by cases h)
    (M := (Trait.here here.ribs (Placed.stmt · s)).holds)
    (fun _ _ _ => called_of_ne fun _ _ h => by cases h) (fun _ h => h) ?_
  have hnormal : ∀ t, (Trait.sane (valuesOf .normal)).holds t := fun _ => holds_sane_none
  cases s with
  | expression value => exact (ih.expr here value).bind fun _ => upholds_pure fun t _ => hnormal t
  | print value =>
    refine (ih.expr here value).bind fun v => ?_
    refine upholds_ask (M := fun _ _ => True) (fun _ _ _ => trivial) fun text => ?_
    exact (upholds_writeLine text).seq fun _ => upholds_pure fun t _ => hnormal t
  | var name initializer =>
    cases initializer with
    | none =>
      refine upholds_variable (fun t h => ?_) fun t _ => holds_sane_nil
      obtain ⟨_, -, hname⟩ := h
      exact hname
    | some initializer =>
      refine ((ih.expr (here.initializing name.text) initializer).weaken fun t h => ?_).bind
        fun v => ?_
      · obtain ⟨k, hstanding, hname, hplaced⟩ := h
        exact ⟨k, hstanding.initializing hname, hplaced⟩
      · refine upholds_variable (fun t h => ?_) fun t h => h.2
        obtain ⟨⟨_, -, hname, -⟩, -⟩ := h
        exact hname
  | block body =>
    refine upholds_ask (M := fun outer => (Trait.stands false outer here.ribs
      (Placed.stmts · body)).holds) (fun t _ h => h) fun outer => ?_
    refine upholds_change (M := fun frame => (Trait.stands false frame
        (⟨.block body, [], none, frame⟩ :: here.ribs) (Placed.stmts · body)).holds)
      (fun h => h.grows_newFrame ..)
      (fun t ht _ => ⟨firm_newFrame .., ht.proper.newFrame _ fun name v hv => by cases hv⟩)
      (fun t ht h honward => ?_) fun frame => ?_
    · obtain ⟨k, hstanding, hplaced⟩ := h
      have houter := hstanding.mono honward.before.heap honward.firm
      exact ⟨k, .inner (r := ⟨.block body, [], none, ⟨t.machine.heap.frames.size⟩⟩)
        ⟨(fun _ h => by cases h), Grammar.named_nil⟩ (Heap.enclosing?_newFrame_self ..) houter, hplaced⟩
    · exact (ih.stmts (here.enter ⟨.block body, [], none, frame⟩) body).within frame
  | ifElse condition thenBranch elseBranch =>
    cases elseBranch with
    | none =>
      refine ((ih.expr here condition).weaken fun t h => Trait.here_imp h fun _ h => h.1).bind
        fun v => ?_
      by_cases htruthy : v.truthy = true
      · rw [if_pos htruthy]
        exact (ih.stmt here thenBranch).weaken fun t h => Trait.here_imp h.1 fun _ h => h.2
      · rw [if_neg htruthy]
        exact upholds_pure fun t _ => hnormal t
    | some elseBranch =>
      refine ((ih.expr here condition).weaken fun t h => Trait.here_imp h fun _ h => h.1).bind
        fun v => ?_
      by_cases htruthy : v.truthy = true
      · rw [if_pos htruthy]
        exact (ih.stmt here thenBranch).weaken fun t h => Trait.here_imp h.1 fun _ h => h.2.1
      · rw [if_neg htruthy]
        exact (ih.stmt here elseBranch).weaken fun t h => Trait.here_imp h.1 fun _ h => h.2.2
  | while_ condition body =>
    refine ((ih.expr here condition).weaken fun t h => Trait.here_imp h fun _ h => h.1).bind
      fun v => ?_
    by_cases htruthy : v.truthy = true
    · rw [if_pos htruthy]
      refine ((ih.stmt here body).weaken fun t h => Trait.here_imp h.1 fun _ h => h.2).bind
        fun flow => ?_
      cases flow with
      | normal => exact (ih.stmt here (.while_ condition body)).weaken fun t h => h.1.1
      | break_ => exact upholds_pure fun t _ => hnormal t
      | return_ value => exact upholds_pure fun t h => h.2
    · rw [if_neg htruthy]
      exact upholds_pure fun t _ => hnormal t
  | break_ _ => exact upholds_pure fun t _ => hnormal t
  | return_ _ value =>
    cases value with
    | none => exact upholds_pure fun t _ => holds_sane_nil
    | some value => exact (ih.expr here value).bind fun v => upholds_pure fun t h => h.2
  | function name fn =>
    refine (upholds_closure (some name.text) fun t h => ?_).bind fun v => ?_
    · obtain ⟨k, hstanding, hname, hplaced⟩ := h
      exact ⟨k, hstanding.declare hname, hplaced⟩
    · refine upholds_define (k := fun _ => pure Flow.normal) (fun t h => ?_) (fun t h => h.2) ?_
      · obtain ⟨⟨_, -, hname, -⟩, -⟩ := h
        exact hname
      · exact upholds_pure fun t _ => hnormal t
  | class_ name superclass methods =>
    refine ((upholds_declareClass fun t h => h).weaken fun t h => ?_).seq
      fun _ => upholds_pure fun t _ => hnormal t
    obtain ⟨k, hstanding, hplaced⟩ := h
    refine ⟨k, hstanding.declare ?_, hplaced⟩
    cases superclass <;> exact hplaced.1

theorem ordinary_declared {k : ClassKind} : ∀ {s : Stmt}, Placed.stmt k s →
    ∀ name ∈ declared? s, Ordinary name
  | .var _ none, h, _, rfl => h
  | .var _ (some _), h, _, rfl => h.1
  | .function .., h, _, rfl => h.1
  | .class_ _ none _, h, _, rfl => h.1
  | .class_ _ (some _) _, h, _, rfl => h.1

theorem upholds_stmts_step (ih : UpholdsWithin fuel) (here : Scene) (ss : List Stmt) :
    Upholds (Trait.here here.ribs (Placed.stmts · ss)).holds (Watch.stmts (fuel + 1) here ss)
      fun flow => (Trait.sane (valuesOf flow)).holds := by
  cases ss with
  | nil =>
    rw [Watch.stmts]
    exact upholds_pure fun _ _ => holds_sane_none
  | cons s rest =>
    rw [Watch.stmts]
    refine ((ih.stmt here s).weaken fun t h => Trait.here_imp h fun _ h => h.1).bind
      fun flow => ?_
    cases flow with
    | normal =>
      refine (ih.stmts (here.after s) rest).weaken fun t h => ?_
      obtain ⟨⟨k, hstanding, hs, hrest⟩, -⟩ := h
      exact ⟨k, hstanding.after (ordinary_declared hs), hrest⟩
    | break_ => exact upholds_pure fun t h => h.2
    | return_ value => exact upholds_pure fun t h => h.2

/-- Within every bound on steps, evaluation leaves everything where it should stand. -/
theorem upholdsWithin (fuel : Nat) : UpholdsWithin fuel := by
  induction fuel with
  | zero =>
    constructor <;> intros
    · rw [Watch.expr]; exact upholds_exhaust
    · rw [Watch.exprs]; exact upholds_exhaust
    · rw [Watch.call]; exact upholds_exhaust
    · rw [Watch.construct]; exact upholds_exhaust
    · rw [Watch.callFunction]; exact upholds_exhaust
    · rw [Watch.stmt]; exact upholds_exhaust
    · rw [Watch.stmts]; exact upholds_exhaust
  | succ fuel ih =>
    exact ⟨upholds_expr_step ih, upholds_exprs_step ih, upholds_call_step ih,
      upholds_construct_step ih, upholds_callFunction_step ih, upholds_stmt_step ih,
      upholds_stmts_step ih⟩

end Lox.Watch
