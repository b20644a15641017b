import Lox.Proofs.Watch.Chains

/-! # Functions and the scopes around their text

The frame that a function closes over begins a chain that mirrors the scopes
around the text of the function. A method has one scope more in its text than
it has frames, that of `this`: it becomes a function when it is bound to an
instance, and until then no variable and no field holds it. -/

namespace Lox.Watch

open Scope (Known)

/-- A value that a program can hold: a function that is no method without an instance, or
something else. -/
def Fine (homes : Array Home) (v : Value) : Prop :=
  ∀ f, v = .function f → ∃ home, homes[f.index]? = some home ∧ home.unbound = false

/-- A method that has no instance yet. -/
def IsMethod (homes : Array Home) (f : FunctionId) : Prop :=
  ∃ home, homes[f.index]? = some home ∧ home.unbound = true

/-- The names declared around the text of a function. -/
def Home.scopes (home : Home) : List (List String) :=
  if home.unbound then ["this"] :: namesOf home.ribs else namesOf home.ribs

/-- A function object stands where its text does. -/
structure Sited (K : Known) (h : Heap) (globals : FrameId) (object : FunctionObject)
    (home : Home) : Prop where
  chain : Chain h globals object.closure home.ribs
  addressed : Scope.Addressed.function K home.scopes object.fn

/-- In a heap every function stands where its text does, and methods without an instance are held
by classes only. -/
structure Sound (K : Known) (globals : FrameId) (h : Heap) (homes : Array Home) : Prop where
  outermost : globals.index < h.frames.size
  size : homes.size = h.functions.size
  functions : ∀ f object home, h.function? f = some object → homes[f.index]? = some home →
    Sited K h globals object home
  values : ∀ f name v, h.get? f name = some v → Fine homes v
  fields : ∀ i name v, h.field? i name = some v → Fine homes v
  methods : ∀ c name f, h.ownMethod? c name = some f → IsMethod homes f

/-- Functions keep their homes. -/
def Kept (homes homes' : Array Home) : Prop :=
  ∀ (i : Nat) home, homes[i]? = some home → homes'[i]? = some home

variable {K K' : Known} {globals : FrameId} {h h' : Heap} {homes homes' : Array Home}

theorem fine_of_ne {v : Value} (hv : ∀ f, v ≠ .function f) : Fine homes v :=
  fun f hf => absurd hf (hv f)

theorem Fine.mono (hkept : Kept homes homes') {v : Value}
    (hv : Fine homes v) : Fine homes' v := by
  intro f hf
  obtain ⟨home, hhome, hbound⟩ := hv f hf
  exact ⟨home, hkept _ home hhome, hbound⟩

theorem IsMethod.mono (hkept : Kept homes homes')
    {f : FunctionId} (hf : IsMethod homes f) : IsMethod homes' f := by
  obtain ⟨home, hhome, hunbound⟩ := hf
  exact ⟨home, hkept _ home hhome, hunbound⟩

theorem Sited.mono (hg : h.Grows h') {object : FunctionObject} {home : Home}
    (hs : Sited K h globals object home) : Sited K h' globals object home :=
  ⟨hs.chain.mono hg, hs.addressed⟩

theorem Sound.known (hK : K.Extends K') (hs : Sound K globals h homes) :
    Sound K' globals h homes where
  outermost := hs.outermost
  size := hs.size
  functions f object home hobject hhome :=
    have hsited := hs.functions f object home hobject hhome
    ⟨hsited.chain, Scope.Addressed.function_mono hK _ _ hsited.addressed⟩
  values := hs.values
  fields := hs.fields
  methods := hs.methods

/-- A function that is found has a home. -/
theorem Sound.home (hs : Sound K globals h homes) {f : FunctionId} {object : FunctionObject}
    (hf : h.function? f = some object) : ∃ home, homes[f.index]? = some home := by
  have hlt := Heap.index_lt_of_function hf
  rw [← hs.size] at hlt
  exact ⟨homes[f.index], Array.getElem?_eq_getElem hlt⟩

theorem Sound.isMethod (hs : Sound K globals h homes) {c : ClassId} {name : String}
    {f : FunctionId} (hf : h.findMethod? c name = some f) : IsMethod homes f := by
  obtain ⟨c', hown⟩ := Heap.ownMethod_of_findMethod h hf
  exact hs.methods c' name f hown

/-! ## What evaluation does to a heap -/

theorem Sound.define (hs : Sound K globals h homes) (f : FrameId) (name : String) {v : Value}
    (hv : Fine homes v) : Sound K globals (h.define f name v) homes where
  outermost := Nat.lt_of_lt_of_le hs.outermost (h.grows_define f name v).frames
  size := hs.size
  functions g object home hobject hhome :=
    (hs.functions g object home hobject hhome).mono (h.grows_define f name v)
  values g other w hw := by
    rw [Heap.get?_define] at hw
    split at hw
    · obtain rfl := Option.some.inj hw
      exact hv
    · exact hs.values g other w hw
  fields := hs.fields
  methods := hs.methods

theorem Sound.newFrame (hs : Sound K globals h homes) (enclosing : Option FrameId)
    {names : Bindings Value} (hnames : ∀ name v, names.get? name = some v → Fine homes v) :
    Sound K globals (h.newFrame enclosing names).2 homes where
  outermost := Nat.lt_of_lt_of_le hs.outermost (h.grows_newFrame enclosing names).frames
  size := hs.size
  functions g object home hobject hhome :=
    (hs.functions g object home hobject hhome).mono (h.grows_newFrame enclosing names)
  values g other w hw := by
    rw [Heap.get?_newFrame] at hw
    split at hw
    · exact hnames other w hw
    · exact hs.values g other w hw
  fields := hs.fields
  methods := hs.methods

theorem kept_append (homes more : Array Home) : Kept homes (homes ++ more) := by
  intro i home hhome
  have hlt := (Array.getElem?_eq_some_iff.mp hhome).1
  rw [Array.getElem?_append, if_pos hlt]
  exact hhome

theorem Sound.addFunctions (hs : Sound K globals h homes) {objects : Array FunctionObject}
    {home : Home} (hsited : ∀ object ∈ objects, Sited K h globals object home) :
    Sound K globals (h.addFunctions objects) (homes ++ Array.replicate objects.size home) := by
  have hgrows := h.grows_addFunctions objects
  have hkept := kept_append homes (Array.replicate objects.size home)
  refine ⟨hs.outermost, ?_, ?_, ?_, ?_, ?_⟩
  · show (homes ++ _).size = (h.functions ++ objects).size
    rw [Array.size_append, Array.size_append, Array.size_replicate, hs.size]
  · intro f object home' hobject hhome
    rw [Heap.function?_addFunctions] at hobject
    rw [Array.getElem?_append, hs.size] at hhome
    by_cases hlt : f.index < h.functions.size
    · rw [if_pos hlt] at hobject hhome
      exact (hs.functions f object home' hobject hhome).mono hgrows
    · rw [if_neg hlt] at hobject hhome
      obtain rfl : home = home' := by
        rw [Array.getElem?_replicate] at hhome
        split at hhome
        · exact Option.some.inj hhome
        · cases hhome
      exact (hsited object (Array.mem_of_getElem? hobject)).mono hgrows
  · intro f name v hv
    exact (hs.values f name v hv).mono hkept
  · intro i name v hv
    exact (hs.fields i name v hv).mono hkept
  · intro c name f hf
    exact (hs.methods c name f hf).mono hkept

theorem Sound.newInstance (hs : Sound K globals h homes) (c : ClassId) :
    Sound K globals (h.newInstance c).2 homes where
  outermost := hs.outermost
  size := hs.size
  functions f object home hobject hhome :=
    (hs.functions f object home hobject hhome).mono (h.grows_newInstance c)
  values := hs.values
  fields i name v hv := by
    rw [Heap.field?_newInstance] at hv
    exact hs.fields i name v hv
  methods := hs.methods

theorem Sound.setField (hs : Sound K globals h homes) (i : InstanceId) (name : String) {v : Value}
    (hv : Fine homes v) : Sound K globals (h.setField i name v) homes where
  outermost := hs.outermost
  size := hs.size
  functions f object home hobject hhome :=
    (hs.functions f object home hobject hhome).mono (h.grows_setField i name v)
  values := hs.values
  fields j other w hw := by
    rw [Heap.field?_setField] at hw
    split at hw
    · obtain rfl := Option.some.inj hw
      exact hv
    · exact hs.fields j other w hw
  methods := hs.methods

theorem Sound.newClass (hs : Sound K globals h homes) {object : ClassObject}
    (hmethods : ∀ name f, object.methods.get? name = some f → IsMethod homes f) :
    Sound K globals (h.newClass object).2 homes where
  outermost := hs.outermost
  size := hs.size
  functions f object home hobject hhome :=
    (hs.functions f object home hobject hhome).mono (h.grows_newClass _)
  values := hs.values
  fields := hs.fields
  methods c name f hf := by
    rw [Heap.ownMethod?_newClass] at hf
    split at hf
    · exact hmethods name f hf
    · exact hs.methods c name f hf

theorem Sound.newNative (hs : Sound K globals h homes) (n : NativeObject) :
    Sound K globals (h.newNative n).2 homes where
  outermost := hs.outermost
  size := hs.size
  functions f object home hobject hhome :=
    (hs.functions f object home hobject hhome).mono (h.grows_newNative n)
  values := hs.values
  fields := hs.fields
  methods := hs.methods

/-- The heap of a machine that has run nothing. -/
theorem sound_bare (K : Known) (sink : Sink) (reading : Nat → Float) :
    Sound K (Machine.bare sink reading).globals (Machine.bare sink reading).heap #[] where
  outermost := Nat.zero_lt_one
  size := rfl
  functions f object home hobject _ := by cases hobject
  values f name v hv := by
    change (Heap.empty.newFrame none .empty).2.get? f name = some v at hv
    rw [Heap.get?_newFrame] at hv
    split at hv
    · cases hv
    · cases hv
  fields i name v hv := by cases hv
  methods c name f hf := by cases hf

end Lox.Watch
