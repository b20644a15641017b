import Lox.Proofs.Eval.Bodies
import Lox.Proofs.Watch.Moves

/-! # What new functions and classes tell

A new function stands where its text does. A method that is bound gains the
scope of `this` together with the frame for it, and becomes a value that
programs can hold. -/

namespace Lox.Watch

open Eval (methodObjects size_methodObjects heap_methodTable get?_methodTable)
open Scope (Known)

variable {α : Type} {K : Known} {P : Record → Prop} {F : Fact} {t : Record} {here : Scene}

/-! ## New functions -/

/-- A record after functions with the same home have been made. -/
def Record.withFunctions (t : Record) (objects : Array FunctionObject) (home : Home) : Record :=
  { t.withHeap (t.machine.heap.addFunctions objects) with
    homes := t.homes ++ Array.replicate objects.size home }

theorem Record.before_withFunctions (objects : Array FunctionObject) (home : Home) :
    t.Before (t.withFunctions objects home) :=
  ⟨rfl, rfl, rfl, Heap.grows_addFunctions .., kept_append _ _, fun _ hp => hp⟩

theorem Record.Good.withFunctions {objects : Array FunctionObject} {home : Home} (ht : t.Good K)
    (hsited : ∀ object ∈ objects, Sited K t.machine.heap t.machine.globals object home) :
    (t.withFunctions objects home).Good K where
  records := ht.records
  sound := ht.sound.addFunctions hsited
  completed b hb := (Heap.grows_addFunctions ..).binds _ _ (ht.completed b hb)
  points := ht.points

/-- The functions that were made have this home. -/
theorem home_withFunctions {objects : Array FunctionObject} {home : Home} (ht : t.Good K)
    {f : FunctionId} (hle : t.machine.heap.functions.size ≤ f.index)
    (hlt : f.index < t.machine.heap.functions.size + objects.size) :
    (t.withFunctions objects home).homes[f.index]? = some home := by
  have hsize := ht.sound.size
  show (t.homes ++ Array.replicate objects.size home)[f.index]? = some home
  rw [Array.getElem?_append, if_neg (by omega), Array.getElem?_replicate, if_pos (by omega)]

theorem fine_withFunctions {object : FunctionObject} {home : Home} (ht : t.Good K)
    (hbound : home.unbound = false) :
    Fine (t.withFunctions #[object] home).homes (.function ⟨t.machine.heap.functions.size⟩) := by
  intro f hf
  obtain rfl := Value.function.inj hf
  refine ⟨home, home_withFunctions ht (Nat.le_refl _) ?_, hbound⟩
  exact Nat.lt_succ_self _

/-- A function that closes over the present frame. -/
def closureObject (name : Option String) (fn : Lambda) (t : Record) : FunctionObject :=
  ⟨name, fn, t.machine.current, false⟩

theorem tells_closure {name : Option String} {fn : Lambda}
    (haddressed : ∀ t, P t → Scope.Addressed.function K (namesOf here.ribs) fn)
    (hhere : ∀ t, P t → (Fact.here here.ribs).holds t) :
    Tells K P (closure here.ribs name fn) fun v => (Fact.fine [v]).holds := by
  refine tells_step (fun t => .function ⟨t.machine.heap.functions.size⟩)
    (fun t => t.withFunctions #[closureObject name fn t] ⟨here.ribs, false⟩)
    (k := pure) (M := fun v t => Fine t.homes v) (fun _ => rfl)
    (fun t => t.before_withFunctions ..) (fun t ht h => ⟨?_, fine_withFunctions ht rfl⟩)
    fun v => tells_pure fun t h w hw => ?_
  · refine ht.withFunctions fun object hobject => ?_
    obtain rfl := Array.mem_singleton.mp hobject
    exact ⟨hhere t h, haddressed t h⟩
  · obtain rfl := List.mem_singleton.mp hw
    exact h

/-- A function that is declared. It comes to stand where its name is declared, as though the name
had been bound before. -/
theorem tells_function {name : String} {fn : Lambda} {k : Unit → Watched α}
    {Q : α → Record → Prop}
    (haddressed : ∀ t, P t →
      Scope.Addressed.function K (Scope.declareIn name (namesOf here.ribs)) fn)
    (hhere : ∀ t, P t → (Fact.here here.ribs).holds t)
    (hk : Tells K (Fact.here (here.declare name).ribs).holds (k ()) Q) :
    Tells K P (do
      let v ← closure (here.declare name).ribs (some name) fn
      lift (Run.define name v)
      k ()) Q := by
  let home : Home := ⟨(here.declare name).ribs, false⟩
  let made (t : Record) : Record := t.withFunctions #[closureObject (some name) fn t] home
  let bind (t : Record) (v : Value) : Record :=
    t.withHeap (t.machine.heap.define t.machine.current name v)
  let value (t : Record) : Value := .function ⟨t.machine.heap.functions.size⟩
  have hbind : ∀ (t : Record) v, t.Before (bind t v) := fun t v =>
    Record.before_withHeap (Heap.grows_define ..)
  refine tells_step (fun _ => ()) (fun t => bind (made t) (value t)) (fun _ => rfl)
    (fun t => (t.before_withFunctions ..).trans (hbind _ _)) (fun t ht h => ?_) fun _ => hk
  -- the same record, made the other way round
  have hagain : bind (bind t .nil) (value t) = bind t (value t) :=
    congrArg t.withHeap (Heap.define_define ..)
  have hsame : bind (made t) (value t) = bind (made (bind t .nil)) (value t) :=
    calc
      bind (made t) (value t) = made (bind t (value t)) := rfl
      _ = made (bind (bind t .nil) (value t)) := by rw [hagain]
      _ = bind (made (bind t .nil)) (value t) := rfl
  have hchained := hhere t h
  have hframe := hchained.linked.exists ht.sound.outermost
  have hbound := Heap.binds_define_self t.machine.heap hframe name .nil
  have hdeclared : (bind t .nil).Good K := ht.withHeap (Heap.grows_define ..)
    (ht.sound.define _ name (fine_of_ne fun _ hv => by cases hv))
  have hchain : (Fact.here (here.declare name).ribs).holds (bind t .nil) :=
    Chain.declare (hchained.mono (Heap.grows_define ..)) hbound
  have hmade : (made (bind t .nil)).Good K := by
    refine hdeclared.withFunctions fun object hobject => ?_
    obtain rfl := Array.mem_singleton.mp hobject
    refine ⟨hchain, ?_⟩
    show Scope.Addressed.function K (namesOf (here.declare name).ribs) fn
    rw [namesOf_declare]
    exact haddressed t h
  have hfine : Fine (made (bind t .nil)).homes (value t) := fine_withFunctions hdeclared rfl
  rw [hsame]
  refine ⟨hmade.withHeap (Heap.grows_define ..) (hmade.sound.define _ name hfine), ?_⟩
  exact (Fact.here _).stays ((Record.before_withFunctions ..).trans (hbind _ _)) hchain

/-! ## Bound methods -/

/-- The chain behind a method that has been bound begins with the frame of `this`. -/
theorem sited_bind {h : Heap} {globals : FrameId} {method : FunctionObject} {home : Home}
    (hs : Sited K h globals method home) (hunbound : home.unbound = true) (i : InstanceId) :
    Sited K (h.bind method i).2 globals (h.bind method i).1
      ⟨receiverRib i ⟨h.frames.size⟩ :: home.ribs, false⟩ := by
  let names : Bindings Value := Bindings.empty.insert "this" (.instance_ i)
  have hgrows := h.grows_newFrame (some method.closure) names
  have hgrown := hs.mono hgrows
  constructor
  · have hchain : Chain (h.newFrame (some method.closure) names).2 globals
        (receiverRib i ⟨h.frames.size⟩).frame (receiverRib i ⟨h.frames.size⟩ :: home.ribs) := by
      refine hgrown.chain.enter _ (h.enclosing?_newFrame_self ..) fun name hname => ?_
      obtain rfl := List.mem_singleton.mp hname
      exact h.binds_newFrame_self (some method.closure) names "this"
    exact hchain
  · have haddressed := hs.addressed
    unfold Home.scopes at haddressed
    rw [if_pos hunbound] at haddressed
    exact haddressed

/-- Binding a method makes a frame in which only an instance stands. -/
theorem Record.Good.withBind (ht : t.Good K) (method : FunctionObject) (i : InstanceId) :
    (t.withHeap (t.machine.heap.bind method i).2).Good K := by
  refine ht.withHeap (Heap.grows_newFrame ..) (ht.sound.newFrame _ fun name v hv => ?_)
  rw [Bindings.get?_insert] at hv
  split at hv
  · obtain rfl := Option.some.inj hv
    exact fine_of_ne fun _ hf => by cases hf
  · cases hv

theorem boundMethod_eq (found : Option FunctionId) (i : InstanceId) (name : Ident) (m : Machine) :
    Eval.boundMethod found i name m =
      match found.bind m.heap.function? with
      | none => Run.fail (.undefinedProperty name.text) name.span m
      | some method => .ok (.function ⟨m.heap.functions.size⟩)
          { m with heap := (m.heap.bind method i).2.addFunctions #[(m.heap.bind method i).1] } := by
  unfold Eval.boundMethod
  rw [Run.ask_bind]
  cases found.bind m.heap.function? <;> rfl

/-- A record after a method has been bound. -/
def Record.withBound (t : Record) (i : InstanceId) (method : FunctionObject) (home : Home) :
    Record :=
  (t.withHeap (t.machine.heap.bind method i).2).withFunctions #[(t.machine.heap.bind method i).1]
    ⟨receiverRib i ⟨t.machine.heap.frames.size⟩ :: home.ribs, false⟩

theorem Record.before_withBound (i : InstanceId) (method : FunctionObject) (home : Home) :
    t.Before (t.withBound i method home) :=
  (Record.before_withHeap (Heap.grows_newFrame ..)).trans (Record.before_withFunctions ..)

theorem Record.Good.withBound {method : FunctionObject} {home : Home} (ht : t.Good K)
    (hs : Sited K t.machine.heap t.machine.globals method home) (hunbound : home.unbound = true)
    (i : InstanceId) : (t.withBound i method home).Good K := by
  refine (ht.withBind method i).withFunctions fun object hobject => ?_
  obtain rfl := Array.mem_singleton.mp hobject
  exact sited_bind hs hunbound i

/-- What becomes of a record when a method is bound. -/
theorem boundMethod_ends (found : Option FunctionId) (i : InstanceId) (name : Ident) (t : Record) :
    Ends (boundMethod found i name) t
      (fun v u => ∃ f method, found = some f ∧ t.machine.heap.function? f = some method ∧
        v = .function ⟨t.machine.heap.functions.size⟩ ∧
        u = t.withBound i method (t.homes[f.index]?.getD ⟨[], false⟩))
      fun stop u => u = t ∧
        stop = .failed (.located (.execution (.undefinedProperty name.text)) name.span) := by
  have heq := boundMethod_eq found i name t.machine
  show Ends (lift (Eval.boundMethod found i name) >>= fun v => do
    settle 1 ⟨receiverRib i ⟨t.machine.heap.frames.size⟩ ::
      (t.homes[(found.getD ⟨0⟩).index]?.getD ⟨[], false⟩).ribs, false⟩
    pure v) t _ _
  rw [ends_bind, ends_lift]
  unfold Ends
  rw [heq]
  cases hmethod : found.bind t.machine.heap.function? with
  | none => exact ⟨rfl, rfl⟩
  | some method =>
    obtain ⟨f, rfl, hf⟩ := Option.bind_eq_some_iff.mp hmethod
    exact ⟨f, method, rfl, hf, rfl, rfl⟩

theorem tells_boundMethod (found : Option FunctionId) (i : InstanceId) (name : Ident) :
    Tells K (Fact.method found).holds (boundMethod found i name)
      fun v => (Fact.fine [v]).holds := by
  constructor
  · intro t
    refine (boundMethod_ends found i name t).imp (fun v u hu => ?_) fun _ u hu => ?_
    · obtain ⟨f, method, -, -, -, rfl⟩ := hu
      exact Record.before_withBound ..
    · rw [hu.1]
      exact .refl t
  · intro t ht hmethod
    refine (boundMethod_ends found i name t).imp (fun v u hu _ => ?_) fun _ u hu _ => ?_
    · obtain ⟨f, method, rfl, hf, rfl, rfl⟩ := hu
      obtain ⟨home, hhome, hunbound⟩ := hmethod f rfl
      have hat : t.homes[f.index]?.getD ⟨[], false⟩ = home := by
        rw [hhome]
        rfl
      rw [hat]
      refine ⟨ht.withBound (ht.sound.functions f method home hf hhome) hunbound i, ?_⟩
      exact holds_fine_singleton.mpr (fine_withFunctions (ht.withBind method i) rfl)
    · rw [hu.1]
      exact ht

theorem tells_property (object : Value) (name : Ident) :
    Tells K P (property object name) fun v => (Fact.fine [v]).holds := by
  cases object with
  | instance_ i =>
    refine tells_ask (M := fun field t => ∀ v ∈ field, Fine t.homes v)
      (fun t ht _ v hv => ht.sound.fields i name.text v hv) fun field => ?_
    cases field with
    | some value =>
      refine tells_pure fun t h v hv => ?_
      obtain rfl := List.mem_singleton.mp hv
      exact h v rfl
    | none =>
      refine tells_ask (M := fun found => (Fact.method found).holds) (fun t ht _ f hf => ?_)
        fun found => tells_boundMethod found i name
      obtain ⟨c, -, hc⟩ := Option.bind_eq_some_iff.mp hf
      exact ht.sound.isMethod hc
  | _ => exact tells_fail ..

theorem tells_superMethod {id : Nat} {keyword : Span} {method : Ident}
    (hleads : ∀ t, P t → K.Leads (namesOf here.ribs) id "super")
    (hhere : ∀ t, P t → (Fact.here here.ribs).holds t) :
    Tells K P (superMethod here id keyword method) fun v => (Fact.fine [v]).holds := by
  refine tells_mark (M := fun _ => True)
    (fun t ht h => right_of_reaches (hleads t h) ht (reaches_of_here (hhere t h) _))
    (fun _ _ => trivial) ?_
  refine tells_ask (M := fun _ _ => True) (fun _ _ _ => trivial) fun found? => ?_
  refine (tells_orElseFail (Q := fun _ _ => True) fun _ _ _ _ => trivial).seq fun hops => ?_
  refine (tells_still (still_superClass hops keyword)).seq fun c => ?_
  refine (tells_still (still_superInstance hops keyword)).seq fun i => ?_
  refine tells_ask (M := fun found => (Fact.method found).holds) (fun t ht _ f hf => ?_)
    fun found => tells_boundMethod found i method
  exact ht.sound.isMethod hf

/-! ## Classes -/

variable {ribs : List Rib} {Q : α → Record → Prop}

theorem tells_methods {frame : FrameId} {ms : List Method}
    {k : Bindings FunctionId → Watched α}
    (hchain : ∀ t, F.holds t → (Fact.chain frame ribs).holds t)
    (haddressed : ∀ t, F.holds t → Scope.Addressed.methods K (["this"] :: namesOf ribs) ms)
    (hk : ∀ table, Tells K (F.and (Fact.methods table)).holds (k table) Q) :
    Tells K F.holds (do
      let table ← lift (Run.onHeap (Eval.methodTable frame ms .empty))
      settle ms.length ⟨ribs, true⟩
      k table) Q := by
  refine tells_step (fun t => (Eval.methodTable frame ms .empty t.machine.heap).1)
    (fun t => t.withFunctions (methodObjects frame ms) ⟨ribs, true⟩) (fun t => ?_)
    (fun t => t.before_withFunctions ..) (fun t ht h => ⟨?_, ?_, ?_⟩) hk
  · unfold Record.withFunctions
    rw [← heap_methodTable frame ms .empty, size_methodObjects]
    rfl
  · refine ht.withFunctions fun object hobject => ?_
    obtain ⟨m, hm, rfl⟩ := List.mem_map.mp (List.mem_toArray.mp hobject)
    exact ⟨hchain t h, Scope.Addressed.function_of_methods (haddressed t h) m hm⟩
  · exact F.stays (t.before_withFunctions ..) h
  · intro name f hf
    rcases get?_methodTable hf with hempty | ⟨hle, hlt⟩
    · cases hempty
    · rw [← size_methodObjects frame ms] at hlt
      exact ⟨_, home_withFunctions ht hle hlt, rfl⟩

theorem tells_methodFrame {parent : Option ClassId} {k : FrameId → Watched α}
    (hhere : ∀ t, F.holds t → (Fact.here ribs).holds t)
    (hk : ∀ frame, Tells K (F.and (Fact.chain frame (methodRibs parent frame ribs))).holds
      (k frame) Q) : Tells K F.holds (lift (Eval.methodFrame parent) >>= k) Q := by
  cases parent with
  | none =>
    exact tells_step (fun t => t.machine.current) (fun t => t) (fun _ => rfl) Record.Before.refl
      (fun t ht h => ⟨ht, h, hhere t h⟩) hk
  | some c =>
    let names : Bindings Value := Bindings.empty.insert "super" (.class_ c)
    refine tells_step
      (fun t => (t.machine.heap.newFrame (some t.machine.current) names).1)
      (fun t => t.withHeap (t.machine.heap.newFrame (some t.machine.current) names).2)
      (fun _ => rfl) (fun t => Record.before_withHeap (Heap.grows_newFrame ..))
      (fun t ht h => ?_) hk
    have hgrows := t.machine.heap.grows_newFrame (some t.machine.current) names
    refine ⟨ht.withHeap hgrows (ht.sound.newFrame _ fun name v hv => ?_),
      F.stays (Record.before_withHeap hgrows) h, ?_⟩
    · rw [Bindings.get?_insert] at hv
      split at hv
      · obtain rfl := Option.some.inj hv
        exact fine_of_ne fun _ hf => by cases hf
      · cases hv
    · have houter : Chain (t.machine.heap.newFrame (some t.machine.current) names).2
          t.machine.globals t.machine.current ribs := (hhere t h).mono hgrows
      refine houter.enter
        ⟨.superclass c, ["super"], none, ⟨t.machine.heap.frames.size⟩⟩
        (Heap.enclosing?_newFrame_self ..) fun name hname => ?_
      obtain rfl := List.mem_singleton.mp hname
      exact t.machine.heap.binds_newFrame_self (some t.machine.current) names "super"

theorem tells_superclassOf {name : Ident} {superclass : Option Reference} {methods : List Method}
    (haddressed : ∀ t, F.holds t →
      Scope.Addressed.stmt K (namesOf here.ribs) (.class_ name superclass methods))
    (hhere : ∀ t, F.holds t → (Fact.here here.ribs).holds t) :
    Tells K F.holds (superclassOf (here.declare name.text) superclass)
      fun parent => (Fact.pure (parent.isSome = superclass.isSome)).holds := by
  cases superclass with
  | none => exact tells_pure fun _ _ => rfl
  | some target =>
    -- the name of the class is declared but not bound; the superclass has another name
    have hread : Tells K F.holds
        (readVariable (here.declare name.text) target.id target.name.text target.name.span)
        fun v => (Fact.fine [v]).holds := by
      refine tells_readVariable (fun t h => ?_) fun t h => ?_
      · rw [namesOf_declare]
        exact (haddressed t h).1.1
      · have hchain := hhere t h
        exact ⟨linked_declare hchain.linked _,
          readyFor_declare (hchain.ready _) (haddressed t h).1.2⟩
    refine hread.bind fun v => ?_
    cases v with
    | class_ c => exact tells_pure fun _ _ => rfl
    | _ => exact tells_fail ..

/-- The methods of a class are addressed whatever its frames are. -/
theorem addressed_methodRibs {name : Ident} {superclass : Option Reference}
    {methods : List Method}
    (haddressed : Scope.Addressed.stmt K (namesOf here.ribs) (.class_ name superclass methods))
    {parent : Option ClassId} (hparent : parent.isSome = superclass.isSome) (frame : FrameId) :
    Scope.Addressed.methods K
      (["this"] :: namesOf (methodRibs parent frame (here.declare name.text).ribs)) methods := by
  cases superclass with
  | none =>
    obtain rfl := Option.isNone_iff_eq_none.mp (by simpa using hparent)
    show Scope.Addressed.methods K (["this"] :: namesOf (here.declare name.text).ribs) methods
    rw [namesOf_declare]
    exact haddressed
  | some target =>
    obtain ⟨c, rfl⟩ := Option.isSome_iff_exists.mp hparent
    show Scope.Addressed.methods K
      (["this"] :: ["super"] :: namesOf (here.declare name.text).ribs) methods
    rw [namesOf_declare]
    exact haddressed.2

/-- A class is declared: its methods stand where their texts do. -/
theorem tells_declareClass {name : Ident} {superclass : Option Reference} {methods : List Method}
    (haddressed : ∀ t, F.holds t →
      Scope.Addressed.stmt K (namesOf here.ribs) (.class_ name superclass methods))
    (hhere : ∀ t, F.holds t → (Fact.here here.ribs).holds t) :
    Tells K F.holds (declareClass (here.declare name.text) name superclass methods)
      fun _ => (Fact.here (here.declare name.text).ribs).holds := by
  unfold declareClass
  refine (tells_superclassOf haddressed hhere).bind fun parent => ?_
  refine tells_define (fun t h => hhere t h.1) (fun t _ => fine_of_ne fun _ hv => by cases hv) ?_
  refine tells_methodFrame (fun t h => h.2) fun frame => ?_
  refine tells_methods (fun t h => h.2)
    (fun t h => addressed_methodRibs (haddressed t h.1.1.1) h.1.1.2 frame) fun table => ?_
  refine tells_onHeap (fun _ => Fact.pure True) (fun h => h.grows_newClass _)
    (fun t ht h => ht.sound.newClass h.2) (fun _ _ _ => trivial) fun c => ?_
  rw [← bind_pure (lift _)]
  refine tells_define (fun t h => hhere t h.1.1.1.1.1)
    (fun t _ => fine_of_ne fun _ hv => by cases hv) ?_
  exact tells_pure fun t h => h.2

end Lox.Watch
