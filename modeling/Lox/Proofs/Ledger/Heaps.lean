import Lox.Machine.Basic
import Lox.Proofs.Heap.Growth

/-! # Heaps without loose ends

Classes that are referred to exist, and a superclass is older than the classes
below it. In such heaps the chain of classes above an instance is settled once and
for all: later classes are not on it. -/

namespace Lox

/-- The class that a value is, if it is one. -/
def Value.classes : Value → List ClassId
  | .class_ c => [c]
  | _ => []

namespace Heap

/-- Classes that exist. -/
def Holds (h : Heap) (cs : List ClassId) : Prop := ∀ c ∈ cs, c.index < h.classes.size

/-- A heap that refers to no classes and has no methods but those that exist. -/
structure Tidy (h : Heap) : Prop where
  values : ∀ f name v, h.get? f name = some v → h.Holds v.classes
  fields : ∀ i name v, h.field? i name = some v → h.Holds v.classes
  instances : ∀ i c, h.classOf? i = some c → c.index < h.classes.size
  methods : ∀ c name f, h.ownMethod? c name = some f → f.index < h.functions.size
  older : h.Older

/-- Instances stay in their classes, and classes and functions stay what they are. -/
structure Keeps (h h' : Heap) : Prop where
  classes : h.classes.toList <+: h'.classes.toList
  functions : h.functions.toList <+: h'.functions.toList
  classOf : ∀ i c, h.classOf? i = some c → h'.classOf? i = some c

/-- Instances, classes and functions stay what they are. There may be more of them. -/
structure Extends (h h' : Heap) : Prop where
  instances : h.instances.toList <+: h'.instances.toList
  classes : h.classes.toList <+: h'.classes.toList
  functions : h.functions.toList <+: h'.functions.toList

variable {h h' h'' : Heap} {cs cs' : List ClassId} {i : InstanceId} {c : ClassId} {name : String}

theorem getElem?_of_more {α : Type} {xs ys : Array α} (hp : xs.toList <+: ys.toList) {n : Nat}
    {x : α} (hx : xs[n]? = some x) : ys[n]? = some x := by
  rw [← Array.getElem?_toList] at hx ⊢
  obtain ⟨hn, rfl⟩ := List.getElem?_eq_some_iff.mp hx
  exact List.prefix_iff_getElem?.mp hp n hn

theorem holds_nil (h : Heap) : h.Holds [] := fun _ hc => absurd hc List.not_mem_nil

theorem Holds.sub (hh : h.Holds cs) (hsub : cs' ⊆ cs) : h.Holds cs' := fun c hc => hh c (hsub hc)

theorem Holds.append (hh : h.Holds cs) (hh' : h.Holds cs') : h.Holds (cs ++ cs') :=
  List.forall_mem_append.mpr ⟨hh, hh'⟩

theorem Holds.mono (hh : h.Holds cs) (hclasses : h.classes.toList <+: h'.classes.toList) :
    h'.Holds cs :=
  fun c hc => Nat.lt_of_lt_of_le (hh c hc) hclasses.length_le

/-! ## Keeping and extending -/

theorem Keeps.refl (h : Heap) : h.Keeps h :=
  ⟨List.prefix_rfl, List.prefix_rfl, fun _ _ hc => hc⟩

theorem Keeps.trans (hk : h.Keeps h') (hk' : h'.Keeps h'') : h.Keeps h'' where
  classes := hk.classes.trans hk'.classes
  functions := hk.functions.trans hk'.functions
  classOf i c hc := hk'.classOf i c (hk.classOf i c hc)

theorem Extends.refl (h : Heap) : h.Extends h :=
  ⟨List.prefix_rfl, List.prefix_rfl, List.prefix_rfl⟩

theorem Extends.trans (he : h.Extends h') (he' : h'.Extends h'') : h.Extends h'' where
  instances := he.instances.trans he'.instances
  classes := he.classes.trans he'.classes
  functions := he.functions.trans he'.functions

theorem Extends.keeps (he : h.Extends h') : h.Keeps h' := by
  refine ⟨he.classes, he.functions, fun i c hc => ?_⟩
  obtain ⟨object, hobject, hclass⟩ := Option.map_eq_some_iff.mp hc
  rw [classOf?, getElem?_of_more he.instances hobject]
  exact congrArg some hclass

/-- The fields of an instance that exists stay what they are. -/
theorem Extends.field (he : h.Extends h') (hi : h.classOf? i = some c) (name : String) :
    h'.field? i name = h.field? i name := by
  obtain ⟨object, hobject, -⟩ := Option.map_eq_some_iff.mp hi
  rw [field?, field?, hobject, getElem?_of_more he.instances hobject]

theorem keeps_setField (h : Heap) (i : InstanceId) (name : String) (v : Value) :
    h.Keeps (h.setField i name v) := by
  refine ⟨List.prefix_rfl, List.prefix_rfl, fun j c hc => ?_⟩
  obtain ⟨object, hobject, hclass⟩ := Option.map_eq_some_iff.mp hc
  simp only [classOf?, setField, Array.getElem?_modify, hobject]
  split <;> exact congrArg some hclass

/-! ## The chain of classes above an instance -/

/-- The nearest declaration of a method on the chain of classes of an instance. -/
def Declares (h : Heap) (i : InstanceId) (name : String) (method : FunctionObject) : Prop :=
  ∃ c f, h.classOf? i = some c ∧ h.Nearest name c f ∧ h.function? f = some method

theorem superclass?_of_more (hclasses : h.classes.toList <+: h'.classes.toList)
    (hc : c.index < h.classes.size) : h'.superclass? c = h.superclass? c := by
  have hobject := Array.getElem?_eq_getElem hc
  rw [superclass?, superclass?, hobject, getElem?_of_more hclasses hobject]

theorem ownMethod?_of_more (hclasses : h.classes.toList <+: h'.classes.toList)
    (hc : c.index < h.classes.size) : h'.ownMethod? c name = h.ownMethod? c name := by
  have hobject := Array.getElem?_eq_getElem hc
  rw [ownMethod?, ownMethod?, hobject, getElem?_of_more hclasses hobject]

/-- The nearest definition of a method for a class that exists stays the same. -/
theorem nearest_of_more (hclasses : h.classes.toList <+: h'.classes.toList) (hh : h.Older)
    {f : FunctionId} (hc : c.index < h.classes.size) :
    h'.Nearest name c f ↔ h.Nearest name c f := by
  constructor
  · intro hf
    induction hf with
    | own found => exact .own (ownMethod?_of_more hclasses hc ▸ found)
    | @inherited c parent f absent above _ ih =>
      have habove : h.superclass? c = some parent := superclass?_of_more hclasses hc ▸ above
      have hparent : parent.index < h.classes.size := Nat.lt_trans (hh c parent habove) hc
      exact .inherited (ownMethod?_of_more hclasses hc ▸ absent) habove (ih hparent)
  · intro hf
    induction hf with
    | own found => exact .own ((ownMethod?_of_more hclasses hc).trans found)
    | @inherited c parent f absent above _ ih =>
      have hparent : parent.index < h.classes.size := Nat.lt_trans (hh c parent above) hc
      exact .inherited ((ownMethod?_of_more hclasses hc).trans absent)
        ((superclass?_of_more hclasses hc).trans above) (ih hparent)

theorem Tidy.function_of_nearest (ht : h.Tidy) {f : FunctionId} (hf : h.Nearest name c f) :
    ∃ method, h.function? f = some method := by
  induction hf with
  | own found => exact ⟨_, Array.getElem?_eq_getElem (ht.methods _ _ _ found)⟩
  | inherited _ _ _ ih => exact ih

/-- What is declared for an instance stays declared, and nothing else comes to be declared. -/
theorem Keeps.declares_iff (hk : h.Keeps h') (ht : h.Tidy) (hi : h.classOf? i = some c)
    (method : FunctionObject) : h'.Declares i name method ↔ h.Declares i name method := by
  have hc := ht.instances i c hi
  have hi' := hk.classOf i c hi
  constructor
  · rintro ⟨c', f, hclass, hnearest, hmethod⟩
    obtain rfl := Option.some.inj (hi'.symm.trans hclass)
    rw [nearest_of_more hk.classes ht.older hc] at hnearest
    obtain ⟨method', hmethod'⟩ := ht.function_of_nearest hnearest
    obtain rfl := Option.some.inj (hmethod.symm.trans (getElem?_of_more hk.functions hmethod'))
    exact ⟨c, f, hi, hnearest, hmethod'⟩
  · rintro ⟨c', f, hclass, hnearest, hmethod⟩
    obtain rfl := Option.some.inj (hi.symm.trans hclass)
    exact ⟨c, f, hi', (nearest_of_more hk.classes ht.older hc).mpr hnearest,
      getElem?_of_more hk.functions hmethod⟩

/-- The method that is looked up is the one that is declared. -/
theorem Tidy.declares_iff (ht : h.Tidy) (hi : h.classOf? i = some c) (method : FunctionObject) :
    h.Declares i name method ↔ (h.methodOf? i name).bind h.function? = some method := by
  rw [methodOf?, hi, Option.bind_some, Option.bind_eq_some_iff]
  constructor
  · rintro ⟨c', f, hclass, hnearest, hmethod⟩
    obtain rfl := Option.some.inj (hi.symm.trans hclass)
    exact ⟨f, (findMethod?_iff_nearest ht.older).mpr hnearest, hmethod⟩
  · rintro ⟨f, hf, hmethod⟩
    exact ⟨c, f, hi, (findMethod?_iff_nearest ht.older).mp hf, hmethod⟩

/-! ## What tidiness survives -/

theorem Tidy.define (ht : h.Tidy) (f : FrameId) (name : String) {v : Value}
    (hv : h.Holds v.classes) : (h.define f name v).Tidy where
  values g other w hw := by
    rw [get?_define] at hw
    split at hw
    · obtain rfl := Option.some.inj hw
      exact hv
    · exact ht.values g other w hw
  fields := ht.fields
  instances := ht.instances
  methods := ht.methods
  older := ht.older

theorem Tidy.newFrame (ht : h.Tidy) (enclosing : Option FrameId) {names : Bindings Value}
    (hnames : ∀ name v, names.get? name = some v → h.Holds v.classes) :
    (h.newFrame enclosing names).2.Tidy where
  values g other w hw := by
    rw [get?_newFrame] at hw
    split at hw
    · exact hnames other w hw
    · exact ht.values g other w hw
  fields := ht.fields
  instances := ht.instances
  methods := ht.methods
  older := ht.older

theorem Tidy.addFunctions (ht : h.Tidy) (objects : Array FunctionObject) :
    (h.addFunctions objects).Tidy where
  values := ht.values
  fields := ht.fields
  instances := ht.instances
  methods c name f hf :=
    Nat.lt_of_lt_of_le (ht.methods c name f hf) (h.grows_addFunctions objects).size
  older := ht.older

theorem Tidy.newInstance (ht : h.Tidy) (hc : c.index < h.classes.size) :
    (h.newInstance c).2.Tidy where
  values := ht.values
  fields i name v hv := by
    rw [field?_newInstance] at hv
    exact ht.fields i name v hv
  instances i c' hc' := by
    simp only [classOf?, Heap.newInstance, Array.getElem?_push] at hc'
    split at hc'
    · obtain rfl := Option.some.inj hc'
      exact hc
    · exact ht.instances i c' hc'
  methods := ht.methods
  older := ht.older

theorem Tidy.setField (ht : h.Tidy) (i : InstanceId) (name : String) {v : Value}
    (hv : h.Holds v.classes) : (h.setField i name v).Tidy where
  values := ht.values
  fields j other w hw := by
    rw [field?_setField] at hw
    split at hw
    · obtain rfl := Option.some.inj hw
      exact hv
    · exact ht.fields j other w hw
  instances j c hc := by
    refine ht.instances j c ?_
    simp only [classOf?, Heap.setField, Array.getElem?_modify] at hc ⊢
    split at hc
    · rw [Option.map_map] at hc
      exact hc
    · exact hc
  methods := ht.methods
  older := ht.older

/-- Frames have nothing to do with it. -/
theorem extends_define (h : Heap) (f : FrameId) (name : String) (v : Value) :
    h.Extends (h.define f name v) :=
  ⟨List.prefix_rfl, List.prefix_rfl, List.prefix_rfl⟩

theorem extends_newFrame (h : Heap) (enclosing : Option FrameId) (names : Bindings Value) :
    h.Extends (h.newFrame enclosing names).2 :=
  ⟨List.prefix_rfl, List.prefix_rfl, List.prefix_rfl⟩

theorem extends_newClass (h : Heap) (object : ClassObject) : h.Extends (h.newClass object).2 := by
  refine ⟨List.prefix_rfl, ?_, List.prefix_rfl⟩
  show h.classes.toList <+: (h.classes.push object).toList
  rw [Array.toList_push]
  exact List.prefix_append ..

theorem Tidy.newClass (ht : h.Tidy) {object : ClassObject}
    (hparent : h.Holds object.superclass.toList)
    (hmethods : ∀ name f, object.methods.get? name = some f → f.index < h.functions.size) :
    (h.newClass object).2.Tidy where
  values f name v hv := (ht.values f name v hv).mono (h.extends_newClass object).classes
  fields i name v hv := (ht.fields i name v hv).mono (h.extends_newClass object).classes
  instances i c hc :=
    Nat.lt_of_lt_of_le (ht.instances i c hc) (h.extends_newClass object).classes.length_le
  methods c name f hf := by
    rw [ownMethod?_newClass] at hf
    split at hf
    · exact hmethods name f hf
    · exact ht.methods c name f hf
  older := ht.older.newClass fun parent hp => hparent parent (Option.mem_toList.mpr hp)

theorem extends_addFunctions (h : Heap) (objects : Array FunctionObject) :
    h.Extends (h.addFunctions objects) := by
  refine ⟨List.prefix_rfl, List.prefix_rfl, ?_⟩
  show h.functions.toList <+: (h.functions ++ objects).toList
  rw [Array.toList_append]
  exact List.prefix_append ..

theorem extends_newInstance (h : Heap) (c : ClassId) : h.Extends (h.newInstance c).2 := by
  refine ⟨?_, List.prefix_rfl, List.prefix_rfl⟩
  show h.instances.toList <+: (h.instances.push ⟨c, .empty⟩).toList
  rw [Array.toList_push]
  exact List.prefix_append ..

end Heap

/-! ## Machines -/

/-- Code of the host that hands out no classes but those that exist, as long as it is given none
but such. -/
def HostCode.Honest (code : HostCode) : Prop :=
  ∀ view args v, view.heap.Tidy → view.heap.Holds (args.flatMap Value.classes) →
    code view args = .ok v → view.heap.Holds v.classes

/-- A machine with a tidy heap, the host of which keeps it so. -/
structure Machine.Orderly (m : Machine) : Prop where
  heap : m.heap.Tidy
  host : ∀ code ∈ m.host, code.Honest

end Lox
