import Lox.Bindings
import Lox.Syntax
import Lox.Value

/-! # The heap

All objects that a program makes stand in the heap, in arrays that only grow:
frames of variables, functions, classes, instances, and the functions of the
host. The identity of an object is its place. -/

namespace Lox

/-- The variables of a scope, and the frame of the scope around it. -/
structure Frame where
  enclosing : Option FrameId
  names : Bindings Value

/-- A function together with the frame it closes over. -/
structure FunctionObject where
  name : Option String
  fn : Lambda
  closure : FrameId
  isInitializer : Bool

/-- A class. -/
structure ClassObject where
  name : String
  superclass : Option ClassId
  methods : Bindings FunctionId

/-- An instance. -/
structure InstanceObject where
  class_ : ClassId
  fields : Bindings Value

/-- What programs can see of a function of the host. -/
structure NativeObject where
  name : String
  arity : Nat

/-- All objects. -/
structure Heap where
  frames : Array Frame := #[]
  functions : Array FunctionObject := #[]
  classes : Array ClassObject := #[]
  instances : Array InstanceObject := #[]
  natives : Array NativeObject := #[]

namespace Heap

/-- The heap without objects. -/
def empty : Heap := {}

instance : Inhabited Heap := ⟨empty⟩

/-! ## Frames -/

/-- A new frame inside another one. -/
def newFrame (h : Heap) (enclosing : Option FrameId) (names : Bindings Value) : FrameId × Heap :=
  (⟨h.frames.size⟩, { h with frames := h.frames.push ⟨enclosing, names⟩ })

/-- The frame around a frame. -/
def enclosing? (h : Heap) (f : FrameId) : Option FrameId :=
  h.frames[f.index]?.bind Frame.enclosing

/-- The value of a name in one frame. -/
def get? (h : Heap) (f : FrameId) (name : String) : Option Value :=
  h.frames[f.index]?.bind fun frame => frame.names.get? name

/-- Binds a name in one frame, in place of what it was bound to there. -/
def define (h : Heap) (f : FrameId) (name : String) (value : Value) : Heap :=
  { h with frames := h.frames.modify f.index fun frame =>
      { frame with names := frame.names.insert name value } }

/-- Whether one frame binds a name. -/
def binds (h : Heap) (f : FrameId) (name : String) : Bool := (h.get? f name).isSome

/-- Gives a name that one frame binds another value. There is no result when
the frame does not bind it. -/
def assign? (h : Heap) (f : FrameId) (name : String) (value : Value) : Option Heap :=
  if h.binds f name then some (h.define f name value) else none

/-- The frame that lies `distance` frames further out. -/
def ancestor? (h : Heap) (f : FrameId) : Nat → Option FrameId
  | 0 => some f
  | distance + 1 => (h.enclosing? f).bind fun outer => h.ancestor? outer distance

/-- The value of a name in the frame `distance` frames further out. -/
def getAt? (h : Heap) (f : FrameId) (distance : Nat) (name : String) : Option Value :=
  (h.ancestor? f distance).bind fun outer => h.get? outer name

/-- Gives a name of the frame `distance` frames further out another value. -/
def assignAt? (h : Heap) (f : FrameId) (distance : Nat) (name : String) (value : Value) :
    Option Heap :=
  (h.ancestor? f distance).bind fun outer => h.assign? outer name value

@[simp] theorem enclosing?_define (h : Heap) (f g : FrameId) (name : String) (value : Value) :
    (h.define f name value).enclosing? g = h.enclosing? g := by
  simp only [enclosing?, define, Array.getElem?_modify]
  split
  · cases h.frames[g.index]? <;> rfl
  · rfl

/-- Binding a name shows in its own frame and under its own name only. -/
theorem get?_define (h : Heap) (f g : FrameId) (name other : String) (value : Value) :
    (h.define f name value).get? g other =
      if f = g ∧ name = other ∧ f.index < h.frames.size then some value else h.get? g other := by
  obtain ⟨i⟩ := f
  obtain ⟨j⟩ := g
  simp only [get?, define, Array.getElem?_modify, FrameId.mk.injEq]
  by_cases hij : i = j
  · subst hij
    by_cases hlt : i < h.frames.size
    · simp [hlt, Bindings.get?_insert]
    · simp [hlt]
  · simp [hij]

@[simp] theorem ancestor?_define (h : Heap) (f g : FrameId) (name : String) (value : Value)
    (distance : Nat) : (h.define f name value).ancestor? g distance = h.ancestor? g distance := by
  induction distance generalizing g with
  | zero => rfl
  | succ distance ih => simp only [ancestor?, enclosing?_define, ih]

/-- Going out `a + b` frames is going out `a` frames and then `b` more. -/
theorem ancestor?_add (h : Heap) (f : FrameId) (a b : Nat) :
    h.ancestor? f (a + b) = (h.ancestor? f a).bind fun outer => h.ancestor? outer b := by
  induction a generalizing f with
  | zero => simp [ancestor?]
  | succ a ih =>
    rw [Nat.add_right_comm]
    simp only [ancestor?, Option.bind_assoc, ih]

/-! ## Functions, classes and instances -/

/-- A new function object. -/
def newFunction (h : Heap) (f : FunctionObject) : FunctionId × Heap :=
  (⟨h.functions.size⟩, { h with functions := h.functions.push f })

/-- A new class. -/
def newClass (h : Heap) (c : ClassObject) : ClassId × Heap :=
  (⟨h.classes.size⟩, { h with classes := h.classes.push c })

/-- A new instance without fields. -/
def newInstance (h : Heap) (c : ClassId) : InstanceId × Heap :=
  (⟨h.instances.size⟩, { h with instances := h.instances.push ⟨c, .empty⟩ })

/-- A new function of the host. -/
def newNative (h : Heap) (n : NativeObject) : NativeId × Heap :=
  (⟨h.natives.size⟩, { h with natives := h.natives.push n })

/-- The value of a field of an instance. -/
def field? (h : Heap) (i : InstanceId) (name : String) : Option Value :=
  h.instances[i.index]?.bind fun object => object.fields.get? name

/-- Gives a field of an instance a value. -/
def setField (h : Heap) (i : InstanceId) (name : String) (value : Value) : Heap :=
  { h with instances := h.instances.modify i.index fun object =>
      { object with fields := object.fields.insert name value } }

/-- The method of a name in a class, or else in the nearest class above it that
has one. A superclass is always older than the class that names it. -/
def findMethod? (h : Heap) (c : ClassId) (name : String) : Option FunctionId :=
  match h.classes[c.index]? with
  | none => none
  | some object =>
    match object.methods.get? name with
    | some method => some method
    | none =>
      match object.superclass with
      | some parent => if parent.index < c.index then h.findMethod? parent name else none
      | none => none
termination_by c.index

/-- The object of a function. -/
def function? (h : Heap) (f : FunctionId) : Option FunctionObject := h.functions[f.index]?

/-- The class of an instance. -/
def classOf? (h : Heap) (i : InstanceId) : Option ClassId :=
  h.instances[i.index]?.map InstanceObject.class_

/-- The method of a name for an instance. -/
def methodOf? (h : Heap) (i : InstanceId) (name : String) : Option FunctionId :=
  (h.classOf? i).bind fun c => h.findMethod? c name

/-- A method bound to an instance: it closes over a frame of its own, in which
`this` is the instance. -/
def bind (h : Heap) (method : FunctionObject) (i : InstanceId) : FunctionObject × Heap :=
  let (frame, h) := h.newFrame (some method.closure) (Bindings.empty.insert "this" (.instance_ i))
  ({ method with closure := frame }, h)

/-! ## What programs see -/

/-- The number of parameters of a function. -/
def functionArity (h : Heap) (f : FunctionId) : Nat :=
  ((h.function? f).map fun object => object.fn.arity).getD 0

/-- The number of arguments of a construction: those of the initializer, if there is one. -/
def classArity (h : Heap) (c : ClassId) : Nat :=
  ((h.findMethod? c initializerName).map h.functionArity).getD 0

/-- The number of arguments that a value takes, if it can be called. -/
def arity? (h : Heap) : Value → Option Nat
  | .function f => some (h.functionArity f)
  | .class_ c => some (h.classArity c)
  | .native n => h.natives[n.index]?.map NativeObject.arity
  | _ => none

/-- The name of a class. -/
def className (h : Heap) (c : ClassId) : String :=
  (h.classes[c.index]?.map ClassObject.name).getD ""

end Heap
end Lox
