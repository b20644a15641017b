import Lox.Proofs.Watch.Calls
import Lox.Proofs.Watch.Receivers

/-! # Functions stand in their classes

Every function of a heap stands in a class as its text does: `this` and `super`
are written in it only where the frames around it hold an instance and a class.
Initializers come from methods named so, and from binding such methods to
instances. What programs hold are functions that are no methods without an
instance, and classes that exist; so the superclass of a new class is older than
that class. -/

namespace Lox.Watch

open Scope (ClassKind)

/-- A value that a program can hold. A class is one of the first `classes` ones. -/
structure Sane (classes : Nat) (homes : Array Home) (v : Value) : Prop where
  fine : Fine homes v
  older : ∀ c, v = .class_ c → c.index < classes

/-- The frame that a function closes over holds the instance that it was bound to. -/
def BoundTo (h : Heap) (object : FunctionObject) (i : InstanceId) : Prop :=
  h.get? object.closure "this" = some (.instance_ i)

/-- An initializer returns no value, and it is bound to an instance unless it has none yet. -/
def Initial (h : Heap) (object : FunctionObject) (unbound : Bool) : Prop :=
  object.isInitializer = true → Valueless.stmts object.fn.body ∧
    (unbound = false → ∃ i, BoundTo h object i)

/-- A function stands in a class as its text does. -/
def Rooted (h : Heap) (globals : FrameId) (object : FunctionObject) (home : Home) : Prop :=
  (∃ k, Standing h globals home.unbound k object.closure home.ribs ∧
    Scope.Placed.function k object.fn) ∧ Initial h object home.unbound

/-- A method that was found is one without an instance, and it is an initializer if it is named
so. -/
def MethodOf (h : Heap) (homes : Array Home) (name : String) (f : FunctionId) : Prop :=
  IsMethod homes f ∧
    (name = initializerName → ∃ object, h.function? f = some object ∧ object.isInitializer = true)

/-- In a heap every function stands in a class as its text does. -/
structure Proper (globals : FrameId) (h : Heap) (homes : Array Home) : Prop where
  size : homes.size = h.functions.size
  functions : ∀ f object home, h.function? f = some object → homes[f.index]? = some home →
    Rooted h globals object home
  values : ∀ f name v, h.get? f name = some v → Sane h.classes.size homes v
  fields : ∀ i name v, h.field? i name = some v → Sane h.classes.size homes v
  methods : ∀ c name f, h.ownMethod? c name = some f → MethodOf h homes name f
  older : h.Older

variable {globals : FrameId} {h h' : Heap} {homes homes' : Array Home} {v : Value}

theorem sane_of_data {classes : Nat} (hf : ∀ f, v ≠ .function f) (hc : ∀ c, v ≠ .class_ c) :
    Sane classes homes v :=
  ⟨fine_of_ne hf, fun c h => absurd h (hc c)⟩

theorem Sane.mono {classes classes' : Nat} (hkept : Kept homes homes') (hclasses : classes ≤ classes')
    (hv : Sane classes homes v) : Sane classes' homes' v :=
  ⟨hv.fine.mono hkept, fun c hc => Nat.lt_of_lt_of_le (hv.older c hc) hclasses⟩

theorem BoundTo.mono (hf : Firm h h') {object : FunctionObject} {i : InstanceId}
    (hb : BoundTo h object i) : BoundTo h' object i :=
  hf.keyword _ _ _ (by decide) hb

theorem Initial.mono (hf : Firm h h') {object : FunctionObject} {unbound : Bool}
    (hi : Initial h object unbound) : Initial h' object unbound := fun hinitializer =>
  ⟨(hi hinitializer).1, fun hbound => ((hi hinitializer).2 hbound).imp fun _ => .mono hf⟩

theorem Rooted.mono (hg : h.Grows h') (hf : Firm h h') {object : FunctionObject} {home : Home}
    (hr : Rooted h globals object home) : Rooted h' globals object home :=
  let ⟨⟨k, hstanding, hplaced⟩, hinitial⟩ := hr
  ⟨⟨k, hstanding.mono hg hf, hplaced⟩, hinitial.mono hf⟩

theorem MethodOf.mono (hg : h.Grows h') (hkept : Kept homes homes') {name : String}
    {f : FunctionId} (hm : MethodOf h homes name f) : MethodOf h' homes' name f :=
  ⟨hm.1.mono hkept, fun hname =>
    (hm.2 hname).imp fun object hobject => ⟨hg.functions f object hobject.1, hobject.2⟩⟩

/-- A method that is found is a function. -/
theorem Proper.function (hp : Proper globals h homes) {f : FunctionId} (hf : IsMethod homes f) :
    ∃ object, h.function? f = some object := by
  obtain ⟨home, hhome, -⟩ := hf
  have hlt := (Array.getElem?_eq_some_iff.mp hhome).1
  rw [hp.size] at hlt
  exact ⟨h.functions[f.index], Array.getElem?_eq_getElem hlt⟩

theorem Proper.methodOf (hp : Proper globals h homes) {c : ClassId} {name : String}
    {f : FunctionId} (hf : h.findMethod? c name = some f) : MethodOf h homes name f := by
  obtain ⟨c', hown⟩ := Heap.ownMethod_of_findMethod h hf
  exact hp.methods c' name f hown

theorem Proper.isMethod (hp : Proper globals h homes) {c : ClassId} {name : String}
    {f : FunctionId} (hf : h.findMethod? c name = some f) : IsMethod homes f :=
  (hp.methodOf hf).1

/-! ## What evaluation does to a heap -/

theorem Proper.define (hp : Proper globals h homes) (f : FrameId) {name : String}
    (hname : Ordinary name) (hv : Sane h.classes.size homes v) : Proper globals (h.define f name v) homes where
  size := hp.size
  functions g object home hobject hhome :=
    (hp.functions g object home hobject hhome).mono (h.grows_define f name v)
      (firm_define h f hname v)
  values g other w hw := by
    rw [Heap.get?_define] at hw
    split at hw
    · obtain rfl := Option.some.inj hw
      exact hv
    · exact hp.values g other w hw
  fields := hp.fields
  methods := hp.methods
  older := hp.older

theorem Proper.newFrame (hp : Proper globals h homes) (enclosing : Option FrameId)
    {names : Bindings Value} (hnames : ∀ name v, names.get? name = some v → Sane h.classes.size homes v) :
    Proper globals (h.newFrame enclosing names).2 homes where
  size := hp.size
  functions g object home hobject hhome :=
    (hp.functions g object home hobject hhome).mono (h.grows_newFrame enclosing names)
      (firm_newFrame h enclosing names)
  values g other w hw := by
    rw [Heap.get?_newFrame] at hw
    split at hw
    · exact hnames other w hw
    · exact hp.values g other w hw
  fields := hp.fields
  methods := hp.methods
  older := hp.older

theorem Proper.addFunctions (hp : Proper globals h homes) {objects : Array FunctionObject}
    {home : Home} (hrooted : ∀ object ∈ objects, Rooted h globals object home) :
    Proper globals (h.addFunctions objects) (homes ++ Array.replicate objects.size home) := by
  have hgrows := h.grows_addFunctions objects
  have hfirm : Firm h (h.addFunctions objects) := firm_of_frames rfl (Nat.le_refl _)
  have hkept := kept_append homes (Array.replicate objects.size home)
  refine ⟨?_, ?_, fun f name v hv => ?_, fun i name v hv => ?_, fun c name f hf => ?_, hp.older⟩
  · show (homes ++ _).size = (h.functions ++ objects).size
    rw [Array.size_append, Array.size_append, Array.size_replicate, hp.size]
  · intro f object home' hobject hhome
    rw [Heap.function?_addFunctions] at hobject
    rw [Array.getElem?_append, hp.size] at hhome
    by_cases hlt : f.index < h.functions.size
    · rw [if_pos hlt] at hobject hhome
      exact (hp.functions f object home' hobject hhome).mono hgrows hfirm
    · rw [if_neg hlt] at hobject hhome
      rw [Array.getElem?_replicate] at hhome
      split at hhome
      · obtain rfl := Option.some.inj hhome
        exact (hrooted object (Array.mem_of_getElem? hobject)).mono hgrows hfirm
      · cases hhome
  · exact (hp.values f name v hv).mono hkept (Nat.le_refl _)
  · exact (hp.fields i name v hv).mono hkept (Nat.le_refl _)
  · exact (hp.methods c name f hf).mono hgrows hkept

theorem Proper.newInstance (hp : Proper globals h homes) (c : ClassId) :
    Proper globals (h.newInstance c).2 homes where
  size := hp.size
  functions f object home hobject hhome :=
    (hp.functions f object home hobject hhome).mono (h.grows_newInstance c)
      (firm_of_frames rfl (Nat.le_refl _))
  values := hp.values
  fields i name v hv := by
    rw [Heap.field?_newInstance] at hv
    exact hp.fields i name v hv
  methods := hp.methods
  older := hp.older

theorem Proper.setField (hp : Proper globals h homes) (i : InstanceId) (name : String)
    (hv : Sane h.classes.size homes v) : Proper globals (h.setField i name v) homes where
  size := hp.size
  functions f object home hobject hhome :=
    (hp.functions f object home hobject hhome).mono (h.grows_setField i name v)
      (firm_of_frames rfl (Nat.le_refl _))
  values := hp.values
  fields j other w hw := by
    rw [Heap.field?_setField] at hw
    split at hw
    · obtain rfl := Option.some.inj hw
      exact hv
    · exact hp.fields j other w hw
  methods := hp.methods
  older := hp.older

theorem firm_newClass (h : Heap) (object : ClassObject) : Firm h (h.newClass object).2 := by
  refine firm_of_frames rfl ?_
  show h.classes.size ≤ (h.classes.push object).size
  rw [Array.size_push]
  exact Nat.le_succ _

theorem Proper.newClass (hp : Proper globals h homes) {object : ClassObject}
    (hmethods : ∀ name f, object.methods.get? name = some f → MethodOf h homes name f)
    (hparent : ∀ parent ∈ object.superclass, parent.index < h.classes.size) :
    Proper globals (h.newClass object).2 homes where
  size := hp.size
  functions f object home hobject hhome :=
    (hp.functions f object home hobject hhome).mono (h.grows_newClass _) (firm_newClass h _)
  values f name v hv := (hp.values f name v hv).mono (fun _ _ hhome => hhome)
    (firm_newClass h object).classes
  fields i name v hv := (hp.fields i name v hv).mono (fun _ _ hhome => hhome)
    (firm_newClass h object).classes
  methods c name f hf := by
    rw [Heap.ownMethod?_newClass] at hf
    split at hf
    · exact hmethods name f hf
    · exact hp.methods c name f hf
  older := hp.older.newClass hparent

theorem Proper.newNative (hp : Proper globals h homes) (n : NativeObject) :
    Proper globals (h.newNative n).2 homes where
  size := hp.size
  functions f object home hobject hhome :=
    (hp.functions f object home hobject hhome).mono (h.grows_newNative n)
      (firm_of_frames rfl (Nat.le_refl _))
  values := hp.values
  fields := hp.fields
  methods := hp.methods
  older := hp.older

end Lox.Watch
