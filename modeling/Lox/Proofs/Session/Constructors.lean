import Lox.Proofs.Session.Dispatch
import Lox.Proofs.Watch.Lasting

/-! # Constructors produce their instances

A call of a class makes an instance and runs the nearest initializer on it, if
there is one. The walk over the scopes refuses a `return` with a value in a method
named `init`, and evaluation takes the instance for the result of just those
functions that such methods become, so no value is ever dropped for it. -/

namespace Lox

open Scope (Placed.function Placed.stmts)

/-! ## Running an initializer -/

/-- The machine in which the body of a function begins: in a new frame the parameters are bound to
the arguments. -/
def Machine.calling (m : Machine) (f : FunctionObject) (args : List Value) : Machine :=
  { m with
    heap := (m.heap.newFrame (some f.closure) (Eval.bindParams f.fn.params args)).2
    current := (m.heap.newFrame (some f.closure) (Eval.bindParams f.fn.params args)).1 }

/-- The machine in which the body of an initializer begins: there is one more instance, to which the
method has been bound. -/
def Machine.initializing (m : Machine) (c : ClassId) (method : FunctionObject)
    (args : List Value) : Machine :=
  let (i, made) := m.heap.newInstance c
  let (bound, heap) := made.bind method i
  { m with heap }.calling bound args

/-- A construction has run an initializer once, and nothing else: its body was run where `this` is
the new instance and all parameters are bound to the arguments, and it returned no value. -/
structure Initializes (m : Machine) (c : ClassId) (i : InstanceId) (method : FunctionObject)
    (args : List Value) (m' : Machine) : Prop where
  count : args.length = method.fn.params.length
  this : (m.initializing c method args).heap.getAt? (m.initializing c method args).current 1
    "this" = some (.instance_ i)
  parameters : ∀ (k : Nat) (name : Ident) (v : Value), method.fn.params[k]? = some name →
    args[k]? = some v → (m.initializing c method args).heap.get?
      (m.initializing c method args).current name.text = some v
  body : ∃ fuel flow last,
    Eval.stmts fuel method.fn.body (m.initializing c method args) = .ok flow last ∧
      (∀ v, flow = .return_ v → v = .nil) ∧ m' = { last with current := m.current }

namespace Watch

/-- At a point, what is called as a constructor or as an initializer is one. -/
structure Point.Constructs (p : Point) : Prop where
  /-- A class that is called takes so many arguments. If the call has a result it is a new instance
  of this class, on which the nearest initializer has been run; without one nothing has been. -/
  instances : ∀ c args, p.event = .run (.class_ c) args →
    args.length = p.machine.heap.classArity c ∧
      ∀ fuel paren v m', Eval.call fuel (.class_ c) args paren p.machine = .ok v m' →
        ∃ i, v = .instance_ i ∧ p.machine.heap.classOf? i = none ∧ m'.heap.classOf? i = some c ∧
          (∀ f, p.machine.heap.Nearest initializerName c f →
            ∃ method, p.machine.heap.function? f = some method ∧ method.isInitializer = true ∧
              Initializes p.machine c i method args m') ∧
          ((∀ f, ¬ p.machine.heap.Nearest initializerName c f) → args = [] ∧
            m' = { p.machine with heap := (p.machine.heap.newInstance c).2 })
  /-- An initializer that is called is bound to an instance, and this is the result of the call if it
  has one. -/
  bound : ∀ f args object, p.event = .run (.function f) args →
    p.machine.heap.function? f = some object → object.isInitializer = true →
      ∃ i, BoundTo p.machine.heap object i ∧
        ∀ fuel paren v m', Eval.call fuel (.function f) args paren p.machine = .ok v m' →
          v = .instance_ i
  /-- The body of an initializer returns no value, wherever it is run. -/
  valueless : ∀ f object, p.machine.heap.function? f = some object → object.isInitializer = true →
    ∀ fuel m v m', Eval.stmts fuel object.fn.body m = .ok (.return_ v) m' → v = .nil

/-! ## What functions of a proper heap are -/

variable {globals : FrameId} {h : Heap} {homes : Array Home} {f : FunctionId}
  {object : FunctionObject}

theorem Proper.rooted (hp : Proper globals h homes) (hf : h.function? f = some object) :
    ∃ home, homes[f.index]? = some home ∧ Rooted h globals object home := by
  have hlt := Heap.index_lt_of_function hf
  rw [← hp.size] at hlt
  exact ⟨_, Array.getElem?_eq_getElem hlt,
    hp.functions f object _ hf (Array.getElem?_eq_getElem hlt)⟩

theorem Proper.placed (hp : Proper globals h homes) (hf : h.function? f = some object) :
    ∃ k, Placed.function k object.fn := by
  obtain ⟨home, -, ⟨k, -, hplaced⟩, -⟩ := hp.rooted hf
  exact ⟨k, hplaced⟩

theorem Proper.furnished (hp : Proper globals h homes) : Furnished h := by
  intro object hobject
  obtain ⟨i, hi⟩ := Array.mem_iff_getElem?.mp hobject
  exact hp.placed (f := ⟨i⟩) hi

theorem Proper.valueless (hp : Proper globals h homes) (hf : h.function? f = some object)
    (hinitializer : object.isInitializer = true) : Valueless.stmts object.fn.body := by
  obtain ⟨home, -, -, hinitial⟩ := hp.rooted hf
  exact (hinitial hinitializer).1

theorem Proper.boundTo (hp : Proper globals h homes) (hf : h.function? f = some object)
    (hinitializer : object.isInitializer = true) (hfine : Fine homes (.function f)) :
    ∃ i, BoundTo h object i := by
  obtain ⟨home, hhome, -, hinitial⟩ := hp.rooted hf
  obtain ⟨home', hhome', hbound⟩ := hfine f rfl
  obtain rfl := Option.some.inj (hhome.symm.trans hhome')
  exact (hinitial hinitializer).2 hbound

end Watch

/-! ## Calls -/

variable {m m' : Machine} {v : Value} {args : List Value} {object : FunctionObject}

open Watch (BoundTo Furnished Lasting lastsWithin)

theorem Machine.getAt?_calling {i : InstanceId} (hbound : BoundTo m.heap object i)
    (args : List Value) : (m.calling object args).heap.getAt? (m.calling object args).current 1
      "this" = some (.instance_ i) := by
  have henclosing : (m.calling object args).heap.enclosing? (m.calling object args).current =
      some object.closure := Heap.enclosing?_newFrame_self ..
  rw [Heap.getAt?, Heap.ancestor?, henclosing]
  exact hbound.mono (Watch.firm_newFrame ..)

theorem Machine.get?_calling (hnodup : (object.fn.params.map Ident.text).Nodup) {k : Nat}
    {name : Ident} (hname : object.fn.params[k]? = some name) (hv : args[k]? = some v) :
    (m.calling object args).heap.get? (m.calling object args).current name.text = some v := by
  refine (Heap.get?_newFrame ..).trans ((if_pos ?_).trans ?_)
  · rfl
  · exact get?_bindParams hnodup hname hv

/-- A function that has been called has had its body run once. -/
theorem Eval.callFunction_ok {fuel : Nat} (h : Eval.callFunction fuel object args m = .ok v m') :
    ∃ fuel' flow last, Eval.stmts fuel' object.fn.body (m.calling object args) = .ok flow last ∧
      Eval.callResult object flow { last with current := m.current } = .ok v m' := by
  cases fuel with
  | zero => cases h
  | succ fuel =>
    cases hr : Eval.stmts fuel object.fn.body (m.calling object args) with
    | ok flow last =>
      refine ⟨fuel, flow, last, hr, ?_⟩
      have hwithin : Run.within (m.calling object args).current (Eval.stmts fuel object.fn.body)
          { m with heap := (m.calling object args).heap } =
            .ok flow { last with current := m.current } := Run.within_of_ok hr
      exact (bind_of_ok hwithin).symm.trans h
    | error stop last =>
      have hwithin : Run.within (m.calling object args).current (Eval.stmts fuel object.fn.body)
          { m with heap := (m.calling object args).heap } =
            .error stop { last with current := m.current } := Run.within_of_error hr
      cases (bind_of_error hwithin).symm.trans h

/-- What a call returns is told without changing the machine. -/
theorem Eval.callResult_ok {flow : Flow} (h : Eval.callResult object flow m = .ok v m') :
    m' = m ∧ (object.isInitializer = true → m.heap.get? object.closure "this" = some v) := by
  unfold Eval.callResult at h
  split at h
  · rw [Run.ask_bind] at h
    cases hthis : m.heap.getAt? object.closure 0 "this" with
    | none =>
      rw [hthis] at h
      cases h
    | some w =>
      rw [hthis] at h
      cases h
      exact ⟨rfl, fun _ => hthis⟩
  · next hinitializer =>
    refine ⟨?_, fun h => absurd h hinitializer⟩
    cases flow <;> cases h <;> rfl

/-- An initializer that is bound to an instance returns it. -/
theorem callFunction_initializer {fuel : Nat} {i : InstanceId} (hm : Furnished m.heap)
    (hplaced : ∃ k, Placed.function k object.fn) (hbound : BoundTo m.heap object i)
    (hinitializer : object.isInitializer = true)
    (h : Eval.callFunction fuel object args m = .ok v m') : v = .instance_ i := by
  obtain ⟨k, hplaced⟩ := hplaced
  have hbody : Placed.stmts k object.fn.body := by
    cases hfn : object.fn with
    | mk params body span =>
      rw [hfn] at hplaced
      exact hplaced.2
  obtain ⟨fuel', flow, last, hrun, hresult⟩ := Eval.callFunction_ok h
  have hlasts := (((lastsWithin fuel').stmts hbody).ends (m.calling object args) hm).of_ok hrun
  have hlast : BoundTo last.heap object i :=
    (hbound.mono (Watch.firm_newFrame ..)).mono hlasts.2.firm
  exact Option.some.inj (((Eval.callResult_ok hresult).2 hinitializer).symm.trans hlast)

/-- Making an instance changes nothing for methods. -/
theorem findMethod_newInstance (h : Heap) (c c' : ClassId) (name : String) :
    ((h.newInstance c).2.findMethod? c' name).bind (h.newInstance c).2.function? =
      (h.findMethod? c' name).bind h.function? := by
  have hclasses : (h.newInstance c).2.classes = h.classes := rfl
  rw [Heap.findMethod?_of_classes hclasses]
  rfl

theorem run_newInstance (m : Machine) (c : ClassId) :
    Run.onHeap (·.newInstance c) m =
      .ok (m.heap.newInstance c).1 { m with heap := (m.heap.newInstance c).2 } := rfl

variable {c : ClassId} {fuel : Nat} {paren : Span}

/-- A construction without an initializer only makes an instance. -/
theorem construct_bare (hfound : (m.heap.findMethod? c initializerName).bind m.heap.function? = none)
    (h : Eval.call fuel (.class_ c) args paren m = .ok v m') :
    v = .instance_ (m.heap.newInstance c).1 ∧
      m' = { m with heap := (m.heap.newInstance c).2 } := by
  rcases fuel with _ | _ | fuel
  · cases h
  · cases h
  change Eval.construct (fuel + 1) c args m = .ok v m' at h
  unfold Eval.construct at h
  rw [bind_of_ok (run_newInstance m c), Run.ask_bind] at h
  dsimp only at h
  rw [findMethod_newInstance, hfound] at h
  cases h
  exact ⟨rfl, rfl⟩

/-- A construction with an initializer runs it on the new instance. -/
theorem construct_initialized
    (hfound : (m.heap.findMethod? c initializerName).bind m.heap.function? = some object)
    (h : Eval.call fuel (.class_ c) args paren m = .ok v m') :
    v = .instance_ (m.heap.newInstance c).1 ∧ ∃ fuel' w,
      Eval.callFunction fuel' ((m.heap.newInstance c).2.bind object (m.heap.newInstance c).1).1 args
        { m with heap := ((m.heap.newInstance c).2.bind object (m.heap.newInstance c).1).2 } =
          .ok w m' := by
  rcases fuel with _ | _ | fuel
  · cases h
  · cases h
  change Eval.construct (fuel + 1) c args m = .ok v m' at h
  unfold Eval.construct at h
  rw [bind_of_ok (run_newInstance m c), Run.ask_bind] at h
  dsimp only at h
  rw [findMethod_newInstance, hfound] at h
  change (Eval.callFunction fuel
    ((m.heap.newInstance c).2.bind object (m.heap.newInstance c).1).1 args >>= fun _ =>
      pure (Value.instance_ (m.heap.newInstance c).1))
    { m with heap := ((m.heap.newInstance c).2.bind object (m.heap.newInstance c).1).2 } = _ at h
  cases hr : Eval.callFunction fuel
    ((m.heap.newInstance c).2.bind object (m.heap.newInstance c).1).1 args
    { m with heap := ((m.heap.newInstance c).2.bind object (m.heap.newInstance c).1).2 } with
  | ok w last =>
    rw [bind_of_ok hr] at h
    cases h
    exact ⟨rfl, fuel, w, hr⟩
  | error stop last =>
    rw [bind_of_error hr] at h
    cases h

/-! ## Points -/

namespace Watch

variable {globals : FrameId} {homes : Array Home}

/-- A new instance has its class for good. -/
theorem classOf?_of_lasting {h h' : Heap} (hl : Lasting (h.newInstance c).2 h') :
    h'.classOf? (h.newInstance c).1 = some c := by
  refine hl.kinds _ _ ?_
  simp [Heap.classOf?, Heap.newInstance]

theorem classOf?_newInstance (h : Heap) (c : ClassId) :
    h.classOf? (h.newInstance c).1 = none := by
  simp [Heap.classOf?, Heap.newInstance]

/-- The nearest initializer is run on the new instance. -/
theorem Proper.initializes (hp : Proper globals m.heap homes) {f : FunctionId}
    (hfind : m.heap.findMethod? c initializerName = some f) (hf : m.heap.function? f = some object)
    (hcount : args.length = m.heap.classArity c)
    (h : Eval.call fuel (.class_ c) args paren m = .ok v m') :
    v = .instance_ (m.heap.newInstance c).1 ∧ m'.heap.classOf? (m.heap.newInstance c).1 = some c ∧
      object.isInitializer = true ∧ Initializes m c (m.heap.newInstance c).1 object args m' := by
  have hfound : (m.heap.findMethod? c initializerName).bind m.heap.function? = some object := by
    rw [hfind]
    exact hf
  have hinitializer : object.isInitializer = true := by
    obtain ⟨object', hobject', hflag⟩ := (hp.methodOf hfind).2 rfl
    obtain rfl := Option.some.inj (hf.symm.trans hobject')
    exact hflag
  obtain ⟨k, hplaced⟩ := hp.placed hf
  have hnodup : (object.fn.params.map Ident.text).Nodup := by
    cases hfn : object.fn with
    | mk params body span =>
      rw [hfn] at hplaced
      exact hplaced.1.2
  obtain ⟨rfl, fuel', w, hrun⟩ := construct_initialized hfound h
  have hbound : BoundTo ((m.heap.newInstance c).2.bind object (m.heap.newInstance c).1).2
      ((m.heap.newInstance c).2.bind object (m.heap.newInstance c).1).1
      (m.heap.newInstance c).1 := boundTo_bind ..
  have hlasts := (((lastsWithin fuel').callFunction args
    (f := ((m.heap.newInstance c).2.bind object (m.heap.newInstance c).1).1) ⟨k, hplaced⟩).ends
      { m with heap := ((m.heap.newInstance c).2.bind object (m.heap.newInstance c).1).2 }
        hp.furnished).of_ok hrun
  have hbinding : Lasting (m.heap.newInstance c).2
      ((m.heap.newInstance c).2.bind object (m.heap.newInstance c).1).2 :=
    (firm_newFrame ..).lasting rfl
  refine ⟨rfl, classOf?_of_lasting (hbinding.trans hlasts.2), hinitializer, ?_, ?_, ?_, ?_⟩
  · rw [hcount, Heap.classArity, hfind]
    show m.heap.functionArity f = _
    rw [Heap.functionArity, hf]
    rfl
  · exact Machine.getAt?_calling hbound args
  · exact fun _ _ _ hname hv => @Machine.get?_calling _ _ args
      ((m.heap.newInstance c).2.bind object (m.heap.newInstance c).1).1 hnodup _ _ hname hv
  · obtain ⟨fuel'', flow, last, hbody, hresult⟩ := Eval.callFunction_ok hrun
    refine ⟨fuel'', flow, last, hbody, ?_, (Eval.callResult_ok hresult).1⟩
    exact ((Eval.concludes fuel'').stmts (hp.valueless hf hinitializer)).of_ok hbody

/-- Where functions stand where they should, constructors and initializers do what they should. -/
theorem Point.Housed.constructs {p : Point} (h : p.Housed) : p.Constructs := by
  obtain ⟨homes, hproper, hcalled⟩ := h
  refine ⟨fun c args hevent => ?_, fun f args object hevent hf hinitializer => ?_,
    fun f object hf hinitializer fuel m v m' hrun => ?_⟩
  · obtain ⟨-, harity⟩ := hcalled _ _ hevent
    have hcount : args.length = p.machine.heap.classArity c := (Option.some.inj harity).symm
    refine ⟨hcount, fun fuel paren v m' hrun => ⟨(p.machine.heap.newInstance c).1, ?_⟩⟩
    cases hfind : p.machine.heap.findMethod? c initializerName with
    | none =>
      have hnone : ∀ f, ¬ p.machine.heap.Nearest initializerName c f := fun f hf =>
        absurd ((Heap.findMethod?_iff_nearest hproper.older).mpr hf) (by rw [hfind]; simp)
      obtain ⟨rfl, rfl⟩ := construct_bare (by rw [hfind]; rfl) hrun
      refine ⟨rfl, classOf?_newInstance .., classOf?_of_lasting (.refl _),
        fun f hf => absurd hf (hnone f), fun _ => ⟨?_, rfl⟩⟩
      rw [Heap.classArity, hfind] at hcount
      exact List.eq_nil_of_length_eq_zero hcount
    | some f =>
      obtain ⟨object, hf⟩ := hproper.function (hproper.isMethod hfind)
      obtain ⟨hv, hclass, hinitializer, hruns⟩ := hproper.initializes hfind hf hcount hrun
      refine ⟨hv, classOf?_newInstance .., hclass, fun f' hf' => ?_, fun hnone => ?_⟩
      · have hsame := (Heap.findMethod?_iff_nearest hproper.older).mpr hf'
        obtain rfl := Option.some.inj (hfind.symm.trans hsame)
        exact ⟨object, hf, hinitializer, hruns⟩
      · exact absurd ((Heap.findMethod?_iff_nearest hproper.older).mp hfind) (hnone f)
  · obtain ⟨hsane, -⟩ := hcalled _ _ hevent
    obtain ⟨i, hbound⟩ := hproper.boundTo hf hinitializer hsane.fine
    refine ⟨i, hbound, fun fuel paren v m' hrun => ?_⟩
    cases fuel with
    | zero => cases hrun
    | succ fuel =>
      have hcall : Eval.call (fuel + 1) (.function f) args paren p.machine =
          (Run.orElseFail (p.machine.heap.function? f) .notCallable paren >>= fun object =>
            Eval.callFunction fuel object args) p.machine := rfl
      rw [hcall, hf, Run.orElseFail_some, Run.pure_bind] at hrun
      exact callFunction_initializer hproper.furnished (hproper.placed hf) hbound hinitializer hrun
  · exact ((Eval.concludes fuel).stmts (hproper.valueless hf hinitializer)).of_ok hrun v rfl

end Watch

/-! ## The main statement -/

open Watch in
/-- **Constructors produce their instances.** A session with any functions of the host takes any
inputs, and what these functions hand out are classes that exist, functions that are no methods
without an instance, or other values. Then at every point at which a class is called, it is with as
many arguments as the class takes, and whatever the call comes to, if it has a result this is a new
instance of the class on which the nearest initializer has been run once, with all arguments, or on
which nothing has been run if there is none. At every point at which an initializer is called, it is
bound to an instance, which is the result of the call if it has one. No body of an initializer
returns a value, and no answer tells that an initializer was not bound to an instance. The session
that is watched is the session itself. -/
theorem constructors_produce_instances {sink : Sink} {reading : Nat → Float}
    {natives : List Native} {inputs : List (Nat × Input)} {as : Option (List Answer)} {c : Course}
    (hcourse : (Course.start ((Session.start sink reading).withNatives natives)).takeAll inputs =
      (as, c)) (hgiven : c.record.Given) :
    (∀ p ∈ c.record.points, p.Constructs) ∧
      (∀ answered, as = some answered → ∀ a ∈ answered, ∀ d ∈ a.faults.runtime, ∀ span,
        d ≠ .located (.execution .initializerUnbound) span) ∧
      Session.answers inputs ((Session.start sink reading).withNatives natives) =
        as.map fun as => (as, c.session) := by
  have hupright := (Course.upright_start sink reading natives).takeAll_expected inputs
  have hanswers := Course.answers_eq_takeAll inputs
    (Course.start ((Session.start sink reading).withNatives natives))
  rw [hcourse] at hupright hanswers
  obtain ⟨hend, hexpected⟩ := hupright hgiven
  exact ⟨fun p hp => (hend.record.housed p hp).constructs,
    fun answered has a ha d hd => hexpected answered has a ha d hd, hanswers⟩

/-- Whether a value is called with these arguments. -/
def Watch.Point.calls (p : Watch.Point) (callee : Value) (args : List Value) : Bool :=
  match p.event with
  | .run callee' args' => callee' = callee && args' = args
  | _ => false

open Watch in
/-- A class without an initializer of its own is constructed with that of the class above it, which
calls the one above that. An initializer that is kept and called again returns its instance, also
when it ends early. -/
theorem constructors_produce_instances_inherited :
    let inputs : List (Nat × Input) := [
      (60, .program "class A \x7b init(n) \x7b this.n = n; if (n == nil) return; this.m = n; \x7d \x7d
        class B < A \x7b init(a, b) \x7b super.init(a); this.b = b; \x7d \x7d
        class C < B \x7b \x7d"),
      (60, .program "var o = B(\"p\", \"q\"); var again = o.init;
        print again(nil, \"r\") == o; print o.n == nil; print C(\"s\", \"t\").b;")]
    ∃ as c, (Course.start ((Session.start .reliable fun _ => 0).withNatives
          Native.extras)).takeAll inputs = (some as, c) ∧ c.record.Given ∧
      c.session.machine.sink.lines = #["true", "true", "t"] ∧
      (∀ a ∈ as, ∀ d ∈ a.faults.runtime, ∀ span,
        d ≠ .located (.execution .initializerUnbound) span) ∧
      ∃ p ∈ c.record.points, p.calls (.class_ ⟨2⟩) [.string "s", .string "t"] = true ∧
        p.Constructs := by
  intro inputs
  have hrun : ((Course.start ((Session.start .reliable fun _ => 0).withNatives
      Native.extras)).takeAll inputs).1.isSome = true ∧
        ((Course.start ((Session.start .reliable fun _ => 0).withNatives
          Native.extras)).takeAll inputs).2.record.Given ∧
        ((Course.start ((Session.start .reliable fun _ => 0).withNatives
          Native.extras)).takeAll inputs).2.session.machine.sink.lines = #["true", "true", "t"] ∧
        ((Course.start ((Session.start .reliable fun _ => 0).withNatives
          Native.extras)).takeAll inputs).2.record.points.toList.any
            (·.calls (.class_ ⟨2⟩) [.string "s", .string "t"]) = true := by
    decide +kernel
  cases hcourse : (Course.start ((Session.start .reliable fun _ => 0).withNatives
      Native.extras)).takeAll inputs with
  | mk as? c =>
    rw [hcourse] at hrun
    obtain ⟨hsome, hgiven, hlines, hcalled⟩ := hrun
    obtain ⟨as, rfl⟩ := Option.isSome_iff_exists.mp hsome
    obtain ⟨hconstructs, hexpected, -⟩ := constructors_produce_instances hcourse hgiven
    obtain ⟨p, hp, hcalls⟩ := List.any_eq_true.mp hcalled
    have hmem := Array.mem_toList_iff.mp hp
    exact ⟨as, c, rfl, hgiven, hlines, hexpected as rfl, p, hmem, hcalls, hconstructs p hmem⟩

end Lox
