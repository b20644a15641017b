import Lox.Proofs.Watch.Upholding

/-! # What the parts of evaluation uphold

Uses of variables, new functions, methods that are bound, classes that are
declared, calls, and functions of the host. -/

namespace Lox.Watch

open Scope (ClassKind)
open Grammar (Named)

variable {α : Type} {P : Record → Prop} {F : Trait} {here : Scene}

theorem holds_sane_singleton {t : Record} {v : Value} :
    (Trait.sane [v]).holds t ↔ Sane t.machine.heap.classes.size t.homes v := by
  constructor
  · intro h
    exact h v List.mem_cons_self
  · intro h w hw
    obtain rfl := List.mem_singleton.mp hw
    exact h

theorem holds_sane_data {t : Record} {v : Value} (hf : ∀ f, v ≠ .function f)
    (hc : ∀ c, v ≠ .class_ c) : (Trait.sane [v]).holds t :=
  holds_sane_singleton.mpr (sane_of_data hf hc)

theorem holds_sane_nil {t : Record} : (Trait.sane [.nil]).holds t :=
  holds_sane_data (fun _ h => by cases h) fun _ h => by cases h

theorem holds_sane_instance {t : Record} (i : InstanceId) : (Trait.sane [.instance_ i]).holds t :=
  holds_sane_data (fun _ h => by cases h) fun _ h => by cases h

theorem holds_sane_none {t : Record} : (Trait.sane []).holds t :=
  fun _ h => by cases h

/-! ## Variables -/

theorem upholds_readVariable {id : Nat} {name : String} {span : Span}
    (hseated : ∀ t : Record, t.Upright → P t →
      (Point.mk (.use id name) here t.machine t.completed).Seated) :
    Upholds P (readVariable here id name span) fun v => (Trait.sane [v]).holds := by
  refine upholds_mark (M := fun _ => True) hseated
    (fun _ _ _ => called_of_ne fun _ _ h => by cases h) (fun _ _ => trivial) ?_
  refine upholds_step (fun t => t.machine.readVariable id name) (fun t => t)
    (k := fun found => lift (Run.orElseFail found (.undefinedVariable name) span))
    (M := fun found t => ∀ v ∈ found, Sane t.machine.heap.classes.size t.homes v)
    (fun _ => rfl) Record.Before.refl (fun t ht _ => ⟨⟨.refl _, ht⟩, fun v hv => ?_⟩)
    fun found => ?_
  · obtain ⟨frame, -, hget⟩ := Option.bind_eq_some_iff.mp hv
    exact ht.proper.values frame name v hget
  · exact upholds_orElseFail (by simp) fun v hv t h => holds_sane_singleton.mpr (h v hv)

/-- A variable with an ordinary name. -/
theorem upholds_readOrdinary {id : Nat} {name : String} {span : Span} (hname : ∀ t, P t → Ordinary name) :
    Upholds P (readVariable here id name span) fun v => (Trait.sane [v]).holds := by
  refine upholds_readVariable fun t ht hp => ?_
  refine Point.seated_of_ordinary ?_ ht.proper.older
    fun c name f hf => ht.proper.function (ht.proper.isMethod hf)
  rintro _ _ ⟨⟩
  exact hname t hp

theorem upholds_writeVariable {target : Reference} {v : Value}
    (hname : ∀ t, P t → Ordinary target.name.text) (hv : ∀ t, P t → (Trait.sane [v]).holds t) :
    Upholds P (writeVariable here target v) fun _ => (Trait.pure True).holds := by
  refine upholds_mark (M := fun t => Ordinary target.name.text ∧ (Trait.sane [v]).holds t)
    (fun t ht hp => ?_) (fun _ _ _ => called_of_ne fun _ _ h => by cases h)
    (fun t hp => ⟨hname t hp, hv t hp⟩) ?_
  · refine Point.seated_of_ordinary ?_ ht.proper.older
      fun c name f hf => ht.proper.function (ht.proper.isMethod hf)
    rintro _ _ ⟨⟩
    exact hname t hp
  let next (t : Record) : Record :=
    (t.machine.bindingFrame? target.id target.name.text).elim t fun frame =>
      t.withHeap (t.machine.heap.define frame target.name.text v)
  refine upholds_step (fun t => t.machine.bindingFrame? target.id target.name.text) next
    (k := fun found => found.elim
      (lift (Run.fail (.undefinedVariable target.name.text) target.name.span)) fun _ => pure ())
    (M := fun _ _ => True) (fun t => ?_) (fun t => ?_) (fun t ht h => ?_) fun found => ?_
  · simp only [lift, Eval.writeVariable, next]
    cases t.machine.bindingFrame? target.id target.name.text <;> rfl
  · simp only [next]
    cases t.machine.bindingFrame? target.id target.name.text with
    | none => exact .refl t
    | some frame => exact Record.before_withHeap (Heap.grows_define ..)
  · simp only [next]
    cases t.machine.bindingFrame? target.id target.name.text with
    | none => exact ⟨⟨.refl _, ht⟩, trivial⟩
    | some frame =>
      have hsane := holds_sane_singleton.mp h.2
      exact ⟨⟨firm_define _ _ h.1 v, ht.proper.define frame h.1 hsane, ht.points, ht.housed⟩,
        trivial⟩
  · cases found with
    | none => exact upholds_fail (by simp) _
    | some frame => exact upholds_pure fun _ h => h

/-- A name is bound in the present frame. -/
theorem upholds_define {name : String} {v : Value} {k : Unit → Watched α} {Q : α → Record → Prop}
    (hname : ∀ t, F.holds t → Ordinary name)
    (hv : ∀ t, F.holds t → (Trait.sane [v]).holds t) (hk : Upholds F.holds (k ()) Q) :
    Upholds F.holds (lift (Run.define name v) >>= k) Q := by
  refine upholds_step (fun _ => ())
    (fun t => t.withHeap (t.machine.heap.define t.machine.current name v)) (fun _ => rfl)
    (fun t => Record.before_withHeap (Heap.grows_define ..)) (fun t ht h => ?_) fun _ => hk
  have hfirm := firm_define t.machine.heap t.machine.current (hname t h) v
  refine ⟨⟨hfirm, ?_, ht.points, ht.housed⟩, F.stays ⟨Record.before_withHeap (Heap.grows_define ..), hfirm⟩ h⟩
  exact ht.proper.define _ (hname t h) (holds_sane_singleton.mp (hv t h))

theorem upholds_complete {name : String} {k : Unit → Watched α} {Q : α → Record → Prop}
    (hk : Upholds F.holds (k ()) Q) : Upholds F.holds (complete name >>= k) Q := by
  have hbefore : ∀ t : Record,
      t.Before { t with completed := (t.machine.current, name) :: t.completed } := fun t =>
    ⟨rfl, rfl, rfl, .refl _, fun _ _ hhome => hhome, fun _ hp => hp⟩
  exact upholds_step (fun _ => ()) _ (fun _ => rfl) hbefore
    (fun t ht h => ⟨⟨.refl _, ht.proper, ht.points, ht.housed⟩, F.stays ⟨hbefore t, .refl _⟩ h⟩)
    fun _ => hk

/-! ## New functions -/

theorem Record.Upright.withFunctions {t : Record} {objects : Array FunctionObject} {home : Home}
    (ht : t.Upright) (hrooted : ∀ object ∈ objects,
      Rooted t.machine.heap t.machine.globals object home) :
    (t.withFunctions objects home).Upright :=
  ⟨ht.proper.addFunctions hrooted, ht.points, ht.housed⟩

theorem onward_withFunctions (t : Record) (objects : Array FunctionObject) (home : Home) :
    t.Onward (t.withFunctions objects home) :=
  ⟨t.before_withFunctions .., firm_of_frames rfl (Nat.le_refl _)⟩

/-- The functions that were made have this home. -/
theorem home_of_made {t : Record} {objects : Array FunctionObject} {home : Home} (ht : t.Upright)
    {f : FunctionId} (hle : t.machine.heap.functions.size ≤ f.index)
    (hlt : f.index < t.machine.heap.functions.size + objects.size) :
    (t.withFunctions objects home).homes[f.index]? = some home := by
  have hsize := ht.proper.size
  show (t.homes ++ Array.replicate objects.size home)[f.index]? = some home
  rw [Array.getElem?_append, if_neg (by omega), Array.getElem?_replicate, if_pos (by omega)]

theorem sane_made {t : Record} {object : FunctionObject} {home : Home} (ht : t.Upright)
    (hbound : home.unbound = false) :
    (Trait.sane [.function ⟨t.machine.heap.functions.size⟩]).holds
      (t.withFunctions #[object] home) := by
  refine holds_sane_singleton.mpr ⟨fun f hf => ?_, fun c hc => by cases hc⟩
  obtain rfl := Value.function.inj hf
  exact ⟨home, home_of_made ht (Nat.le_refl _) (Nat.lt_succ_self _), hbound⟩

theorem upholds_closure {fn : Lambda} {ribs : List Rib} (name : Option String)
    (hhere : ∀ t, P t → (Trait.here ribs (Scope.Placed.function · fn)).holds t) :
    Upholds P (closure ribs name fn) fun v => (Trait.sane [v]).holds := by
  refine upholds_step (fun t => .function ⟨t.machine.heap.functions.size⟩)
    (fun t => t.withFunctions #[closureObject name fn t] ⟨ribs, false⟩)
    (k := pure) (M := fun v => (Trait.sane [v]).holds) (fun _ => rfl)
    (fun t => t.before_withFunctions ..)
    (fun t ht h => ⟨⟨(onward_withFunctions ..).firm, ?_⟩, sane_made ht rfl⟩)
    fun v => upholds_pure fun t h => h
  refine ht.withFunctions fun object hobject => ?_
  obtain rfl := Array.mem_singleton.mp hobject
  exact ⟨hhere t h, fun hinitializer => by cases hinitializer⟩

/-! ## Bound methods -/

/-- A method that has been bound is bound to its instance. -/
theorem boundTo_bind (h : Heap) (method : FunctionObject) (i : InstanceId) :
    BoundTo (h.bind method i).2 (h.bind method i).1 i := by
  let names : Bindings Value := Bindings.empty.insert "this" (.instance_ i)
  show (h.newFrame (some method.closure) names).2.get?
    (h.newFrame (some method.closure) names).1 "this" = _
  rw [Heap.get?_newFrame, if_pos rfl]
  exact Bindings.get?_insert_self ..

/-- Behind a method that has been bound stands its instance. -/
theorem rooted_bind {h : Heap} {globals : FrameId} {method : FunctionObject} {home : Home}
    (hr : Rooted h globals method home) (hunbound : home.unbound = true) (i : InstanceId) :
    Rooted (h.bind method i).2 globals (h.bind method i).1
      ⟨receiverRib i ⟨h.frames.size⟩ :: home.ribs, false⟩ := by
  obtain ⟨⟨k, hstanding, hplaced⟩, hinitial⟩ := hr
  rw [hunbound] at hstanding
  let names : Bindings Value := Bindings.empty.insert "this" (.instance_ i)
  have houter := hstanding.mono (h.grows_newFrame (some method.closure) names)
    (firm_newFrame h (some method.closure) names)
  have hbound := boundTo_bind h method i
  refine ⟨⟨k, .method (i := i) (r := receiverRib i ⟨h.frames.size⟩) ?_
    (h.enclosing?_newFrame_self (some method.closure) names) houter, hplaced⟩, fun hinitializer =>
      ⟨(hinitial hinitializer).1, fun _ => ⟨i, hbound⟩⟩⟩
  exact ⟨rfl, List.mem_singleton.mpr rfl, by simp [receiverRib], hbound⟩

theorem Proper.bind {globals : FrameId} {h : Heap} {homes : Array Home} (hp : Proper globals h homes)
    (method : FunctionObject) (i : InstanceId) : Proper globals (h.bind method i).2 homes := by
  refine hp.newFrame _ fun name v hv => ?_
  rw [Bindings.get?_insert] at hv
  split at hv
  · obtain rfl := Option.some.inj hv
    exact sane_of_data (fun _ h => by cases h) fun _ h => by cases h
  · cases hv

theorem upholds_boundMethod (found : Option FunctionId) (i : InstanceId) (name : Ident) :
    Upholds (Trait.method found).holds (boundMethod found i name)
      fun v => (Trait.sane [v]).holds := by
  refine ⟨(tells_boundMethod (K := ⟨.empty, 0⟩) found i name).grows, fun t ht hmethod => ?_⟩
  refine (boundMethod_ends found i name t).imp (fun v u hu _ => ?_) fun _ u hu _ => ?_
  · obtain ⟨f, method, rfl, hf, rfl, rfl⟩ := hu
    obtain ⟨home, hhome, hunbound⟩ := hmethod f rfl
    have hat : t.homes[f.index]?.getD ⟨[], false⟩ = home := by
      rw [hhome]
      rfl
    rw [hat]
    have hbind : (t.withHeap (t.machine.heap.bind method i).2).Upright :=
      ⟨ht.proper.bind method i, ht.points, ht.housed⟩
    have honward : t.Onward (t.withHeap (t.machine.heap.bind method i).2) :=
      ⟨Record.before_withHeap (Heap.grows_newFrame ..), firm_newFrame ..⟩
    have hrooted := rooted_bind (ht.proper.functions f method home hf hhome) hunbound i
    refine ⟨⟨honward.trans (onward_withFunctions ..), hbind.withFunctions fun object hobject => ?_⟩,
      sane_made (t := t.withHeap (t.machine.heap.bind method i).2) hbind rfl⟩
    obtain rfl := Array.mem_singleton.mp hobject
    exact hrooted
  · obtain ⟨rfl, rfl⟩ := hu
    exact ⟨⟨.refl u, ht⟩, regular_of_ne (by simp) name.span⟩

theorem upholds_property (object : Value) (name : Ident) :
    Upholds P (property object name) fun v => (Trait.sane [v]).holds := by
  cases object with
  | instance_ i =>
    refine upholds_ask
      (M := fun field t => ∀ v ∈ field, Sane t.machine.heap.classes.size t.homes v)
      (fun t ht _ v hv => ht.proper.fields i name.text v hv) fun field => ?_
    cases field with
    | some value => exact upholds_pure fun t h => holds_sane_singleton.mpr (h value rfl)
    | none =>
      refine upholds_ask (M := fun found => (Trait.method found).holds) (fun t ht _ f hf => ?_)
        fun found => upholds_boundMethod found i name
      obtain ⟨c, -, hc⟩ := Option.bind_eq_some_iff.mp hf
      exact ht.proper.isMethod hc
  | _ => exact upholds_fail (by simp) _

theorem upholds_superMethod {id : Nat} {keyword : Span} {method : Ident}
    (hhere : ∀ t, P t → (Trait.here here.ribs (· = ClassKind.subclass)).holds t) :
    Upholds P (superMethod here id keyword method) fun v => (Trait.sane [v]).holds := by
  refine upholds_mark (M := fun _ => True) (fun t ht hp => ⟨fun _ hevent => absurd (Event.use.inj hevent).2 (by decide),
    fun _ _ => ?_,
    ht.proper.older, fun c name f hf => ht.proper.function (ht.proper.isMethod hf)⟩)
    (fun _ _ _ => called_of_ne fun _ _ h => by cases h) (fun _ _ => trivial) ?_
  · obtain ⟨k, hstanding, rfl⟩ := hhere t hp
    exact hstanding
  refine upholds_ask (M := fun _ _ => True) (fun _ _ _ => trivial) fun found? => ?_
  refine (upholds_orElseFail (Q := fun _ _ => True) (by simp) fun _ _ _ _ => trivial).seq
    fun hops => ?_
  refine (upholds_still (still_superClass hops keyword) (.superClass hops keyword)).seq
    fun c => ?_
  refine (upholds_still (still_superInstance hops keyword)
    (.superInstance hops keyword)).seq fun i => ?_
  refine upholds_ask (M := fun found => (Trait.method found).holds) (fun t ht _ f hf => ?_)
    fun found => upholds_boundMethod found i method
  exact ht.proper.isMethod hf

end Lox.Watch
