import Lox.Native
import Lox.Proofs.Heap.Growth
import Lox.Proofs.Twin.Kin

/-! # Heaps that look alike

Programs see the name and the number of parameters of a function, but neither
its body nor its frame. Heaps that agree on this, and on classes, instances and
functions of the host, are alike: values have the same text in both, take the
same number of arguments, and have the same properties.

A function of the host is expected to see no more than that, and to hand out no
function that it was not given. -/

namespace Lox

/-- What programs can see of a function object. -/
def FunctionObject.face (f : FunctionObject) : Option String × Nat × Bool :=
  (f.name, f.fn.arity, f.isInitializer)

namespace Heap

/-- Heaps in which programs see the same objects. -/
structure Alike (h h' : Heap) : Prop where
  functions : h'.functions.map FunctionObject.face = h.functions.map FunctionObject.face
  classes : h'.classes = h.classes
  instances : h'.instances = h.instances
  natives : h'.natives = h.natives

theorem Alike.refl (h : Heap) : h.Alike h := ⟨rfl, rfl, rfl, rfl⟩

variable {h h' : Heap}

theorem Alike.size (ha : h.Alike h') : h'.functions.size = h.functions.size := by
  have hsizes := congrArg Array.size ha.functions
  rwa [Array.size_map, Array.size_map] at hsizes

theorem Alike.face (ha : h.Alike h') (f : FunctionId) :
    (h'.function? f).map FunctionObject.face = (h.function? f).map FunctionObject.face := by
  have hat := congrArg (fun faces => faces[f.index]?) ha.functions
  rwa [Array.getElem?_map, Array.getElem?_map] at hat

/-- Where one heap has a function, the other one has a function with the same face. -/
theorem Alike.function (ha : h.Alike h') {f : FunctionId} {o : FunctionObject}
    (hf : h.function? f = some o) : ∃ o', h'.function? f = some o' ∧ o'.face = o.face := by
  have hface := ha.face f
  rw [hf] at hface
  exact Option.map_eq_some_iff.mp hface

theorem Alike.function_none (ha : h.Alike h') {f : FunctionId} (hf : h.function? f = none) :
    h'.function? f = none := by
  have hface := ha.face f
  rw [hf] at hface
  exact Option.map_eq_none_iff.mp hface

theorem Alike.field (ha : h.Alike h') (i : InstanceId) (name : String) :
    h'.field? i name = h.field? i name := by
  unfold field?
  rw [ha.instances]

theorem Alike.findMethod (ha : h.Alike h') (c : ClassId) (name : String) :
    h'.findMethod? c name = h.findMethod? c name := findMethod?_of_classes ha.classes c name

theorem Alike.methodOf (ha : h.Alike h') (i : InstanceId) (name : String) :
    h'.methodOf? i name = h.methodOf? i name := by
  unfold methodOf? classOf?
  rw [ha.instances]
  cases h.instances[i.index]?.map InstanceObject.class_ with
  | none => rfl
  | some c => exact ha.findMethod c name

theorem Alike.functionArity (ha : h.Alike h') (f : FunctionId) :
    h'.functionArity f = h.functionArity f := by
  unfold Heap.functionArity
  cases hf : h.function? f with
  | none => rw [ha.function_none hf]
  | some o =>
    obtain ⟨o', ho', hface⟩ := ha.function hf
    rw [ho']
    exact congrArg (fun face => face.2.1) hface

theorem Alike.classArity (ha : h.Alike h') (c : ClassId) : h'.classArity c = h.classArity c := by
  unfold Heap.classArity
  rw [ha.findMethod]
  cases h.findMethod? c initializerName with
  | none => rfl
  | some f => exact ha.functionArity f

theorem Alike.arity (ha : h.Alike h') (v : Value) : h'.arity? v = h.arity? v := by
  cases v with
  | function f => exact congrArg some (ha.functionArity f)
  | class_ c => exact congrArg some (ha.classArity c)
  | native n =>
    have hnative := congrArg (fun natives => natives[n.index]?) ha.natives
    exact congrArg (Option.map NativeObject.arity) hnative
  | _ => rfl

theorem Alike.functionName (ha : h.Alike h') (f : FunctionId) :
    (h'.function? f).bind FunctionObject.name = (h.function? f).bind FunctionObject.name := by
  cases hf : h.function? f with
  | none => rw [ha.function_none hf]
  | some o =>
    obtain ⟨o', ho', hface⟩ := ha.function hf
    rw [ho']
    exact congrArg Prod.fst hface

theorem Alike.className (ha : h.Alike h') : h'.className = h.className := by
  funext c
  unfold Heap.className
  rw [ha.classes]

theorem Alike.describe (ha : h.Alike h') (v : Value) : h'.describe v = h.describe v := by
  unfold Heap.describe
  cases v with
  | function f =>
    dsimp only
    rw [ha.functionName]
  | class_ c => exact congrFun ha.className c
  | native n =>
    dsimp only
    rw [ha.natives]
  | instance_ i =>
    dsimp only
    unfold classOf?
    rw [ha.instances, ha.className]
  | _ => rfl

end Heap

/-! ## Functions of the host -/

/-- The code of a function of the host sees of the heap what programs see. -/
def HostCode.Respectful (code : HostCode) : Prop :=
  ∀ (h h' : Heap) (now : Float) (args : List Value), h.Alike h' →
    code ⟨h', now⟩ args = code ⟨h, now⟩ args

/-- The code of a function of the host hands out no function of its own: only functions that it
was given or that are the value of a variable or of a field. -/
def HostCode.Discreet (code : HostCode) : Prop :=
  ∀ (view : HostView) (args : List Value) (f : FunctionId),
    code view args = .ok (.function f) → .function f ∈ args ∨
      (∃ frame name, view.heap.get? frame name = some (.function f)) ∨
      ∃ i name, view.heap.field? i name = some (.function f)

namespace Native

theorem clock_respectful : clock.code.Respectful := fun _ _ _ _ _ => rfl

theorem clock_discreet : clock.code.Discreet := fun _ _ _ h => by cases h

end Native
end Lox

/-! # Settings and worlds

Two machines run kindred trees. What their frames have in common is said by a
setting, together with the laws that evaluation needs. Which frames of the two
go together, and at which place of the text they stand, and which functions are
values and which are methods without an instance, is kept in a world that only
grows. -/

namespace Lox

/-- The frame in which a name stands: so many frames further out, or else that of the globals. -/
def Heap.frameFor? (h : Heap) (hops? : Option Nat) (current globals : FrameId) : Option FrameId :=
  match hops? with
  | some hops => h.ancestor? current hops
  | none => some globals

/-- The `this` of the frame just inside the one that is so many frames further out. -/
def Heap.thisWithin? (h : Heap) (f : FrameId) : Nat → Option Value
  | 0 => none
  | inner + 1 => h.getAt? f inner "this"

theorem Machine.frameOf?_eq (m : Machine) (id : Nat) :
    m.frameOf? id = m.heap.frameFor? (m.resolutions.find? id) m.current m.globals := by
  unfold Machine.frameOf? Heap.frameFor?
  cases m.resolutions.find? id <;> rfl

namespace Twin

/-- Which frames of the first machine go with which ones of the second, and at which places. -/
abbrev Sites (Place : Type) := FrameId → FrameId → Place → Prop

/-- Two more frames go together at a place. -/
def Sites.put {Place : Type} (s : Sites Place) (f f' : FrameId) (p : Place) : Sites Place :=
  fun g g' q => s g g' q ∨ g = f ∧ g' = f' ∧ q = p

/-- Two frames hold the same under a name of each, and may hold any other value there, as far as
`frames` is concerned; or there is no frame on either side. -/
inductive Matched (frames : Heap → Heap → Prop) (h h' : Heap) (name name' : String) :
    Option FrameId → Option FrameId → Prop
  | none : Matched frames h h' name name' none none
  | some {f f' : FrameId} (get : h'.get? f' name' = h.get? f name)
    (define : ∀ v, frames (h.define f name v) (h'.define f' name' v)) :
    Matched frames h h' name name' (some f) (some f')

theorem Matched.imp {frames frames' : Heap → Heap → Prop} {h h' : Heap} {name name' : String}
    {f? f?' : Option FrameId} (hm : Matched frames h h' name name' f? f?')
    (himp : ∀ k k', frames k k' → frames' k k') : Matched frames' h h' name name' f? f?' := by
  cases hm with
  | none => exact .none
  | some hget hdefine => exact .some hget fun v => himp _ _ (hdefine v)

/-- Names that go together are bound to the same values, in the same order. -/
def Kinship.Paired (K : Kinship) (p : K.Place) (names names' : Bindings Value) : Prop :=
  List.Forall₂ (fun entry entry' => K.declare p entry.1 entry'.1 ∧ entry'.2 = entry.2)
    names.entries names'.entries

section

variable {K : Kinship} {p : K.Place}

/-- Names that go together at a place are the same together. -/
def Kinship.Distinct (K : Kinship) (p : K.Place) : Prop :=
  ∀ {name name' other other' : String}, K.declare p name name' → K.declare p other other' →
    (name = other ↔ name' = other')

theorem paired_empty : K.Paired p .empty .empty := .nil

theorem Kinship.Paired.insert (hdistinct : K.Distinct p) {names names' : Bindings Value}
    (h : K.Paired p names names') {name name' : String} (hname : K.declare p name name')
    (v : Value) : K.Paired p (names.insert name v) (names'.insert name' v) := by
  obtain ⟨entries⟩ := names
  obtain ⟨entries'⟩ := names'
  show List.Forall₂ _ (Bindings.put name v entries) (Bindings.put name' v entries')
  unfold Kinship.Paired at h
  dsimp only at h
  induction h with
  | nil => exact .cons ⟨hname, rfl⟩ .nil
  | @cons entry entry' rest rest' hentry hrest ih =>
    obtain ⟨key, old⟩ := entry
    obtain ⟨key', old'⟩ := entry'
    have hsame := hdistinct hentry.1 hname
    unfold Bindings.put
    by_cases hkey : key = name
    · rw [if_pos hkey, if_pos (hsame.mp hkey)]
      exact .cons ⟨hname, rfl⟩ hrest
    · rw [if_neg hkey, if_neg fun h => hkey (hsame.mpr h)]
      exact .cons hentry ih

theorem Kinship.Paired.get? (hdistinct : K.Distinct p) {names names' : Bindings Value}
    (h : K.Paired p names names') {name name' : String} (hname : K.declare p name name') :
    names'.get? name' = names.get? name := by
  obtain ⟨entries⟩ := names
  obtain ⟨entries'⟩ := names'
  show Bindings.lookup name' entries' = Bindings.lookup name entries
  unfold Kinship.Paired at h
  dsimp only at h
  induction h with
  | nil => rfl
  | @cons entry entry' rest rest' hentry hrest ih =>
    obtain ⟨key, old⟩ := entry
    obtain ⟨key', old'⟩ := entry'
    have hsame := hdistinct hentry.1 hname
    unfold Bindings.lookup
    by_cases hkey : key = name
    · rw [if_pos hkey, if_pos (hsame.mp hkey)]
      exact congrArg some hentry.2
    · rw [if_neg hkey, if_neg fun h => hkey (hsame.mpr h)]
      exact ih

/-- When only the same names go together, the tables are the same. -/
theorem Kinship.Paired.eq
    (hsame : ∀ name name', K.declare p name name' → name' = name) {names names' : Bindings Value}
    (h : K.Paired p names names') : names' = names := by
  obtain ⟨entries⟩ := names
  obtain ⟨entries'⟩ := names'
  unfold Kinship.Paired at h
  dsimp only at h
  congr 1
  induction h with
  | nil => rfl
  | cons hentry _ ih => rw [ih, Prod.ext (hsame _ _ hentry.1) hentry.2]

end

/-- At these distances two frames see the same superclass, and the same instance that goes with it
one frame further in. -/
structure SeesSuper (h h' : Heap) (f f' : FrameId) (hops hops' : Nat) : Prop where
  super : h'.getAt? f' hops' "super" = h.getAt? f hops "super"
  this : h'.thisWithin? f' hops' = h.thisWithin? f hops

/-- A kinship of trees, and what it means for the frames of the machines that run them. -/
structure Setting extends Kinship where
  globals : FrameId
  globals' : FrameId
  known : Resolutions
  known' : Resolutions
  /-- What the frames of two heaps have in common that stand at places. -/
  Frames : Sites Place → Heap → Heap → Prop
  distinct : ∀ p, toKinship.Distinct p
  keyword : ∀ {p q name}, inside p q → name = "this" ∨ name = "super" → declare q name name
  congr : ∀ {s h h' k k'}, Frames s h h' → k.frames = h.frames → k'.frames = h'.frames →
    Frames s k k'
  get : ∀ {s h h' f f' p name name'}, Frames s h h' → s f f' p → declare p name name' →
    h'.get? f' name' = h.get? f name
  define : ∀ {s h h' f f' p name name'} (v : Value), Frames s h h' → s f f' p →
    declare p name name' → Frames s (h.define f name v) (h'.define f' name' v)
  enter : ∀ {s h h' f f' p q} {names names' : Bindings Value}, Frames s h h' → s f f' p →
    inside p q → toKinship.Paired q names names' →
    Frames (s.put ⟨h.frames.size⟩ ⟨h'.frames.size⟩ q) (h.newFrame (some f) names).2
      (h'.newFrame (some f') names').2
  locate : ∀ {s h h' f f' p id id' name name'}, Frames s h h' → s f f' p →
    use p id id' name name' → Matched (Frames s) h h' name name'
      (h.frameFor? (known.find? id) f globals) (h'.frameFor? (known'.find? id') f' globals')
  super : ∀ {s h h' f f' p id id'}, Frames s h h' → s f f' p → use p id id' "super" "super" →
    Option.Rel (SeesSuper h h' f f') (known.find? id) (known'.find? id')

/-! ## Worlds -/

/-- Which frames go together, which functions are values, and which are methods of classes. -/
structure World (Place : Type) where
  sites : Sites Place
  free : FunctionId → Prop
  methods : FunctionId → Prop

namespace World

variable {Place : Type}

/-- What is known in one world is known in a later one. -/
structure Grows (w w' : World Place) : Prop where
  sites : ∀ f f' p, w.sites f f' p → w'.sites f f' p
  free : ∀ f, w.free f → w'.free f
  methods : ∀ f, w.methods f → w'.methods f

theorem Grows.refl (w : World Place) : w.Grows w :=
  ⟨fun _ _ _ h => h, fun _ h => h, fun _ h => h⟩

theorem Grows.trans {w w' w'' : World Place} (h : w.Grows w') (h' : w'.Grows w'') : w.Grows w'' :=
  ⟨fun f f' p hf => h'.sites f f' p (h.sites f f' p hf), fun f hf => h'.free f (h.free f hf),
    fun f hf => h'.methods f (h.methods f hf)⟩

/-- A world in which two more frames go together. -/
def withFrame (w : World Place) (f f' : FrameId) (p : Place) : World Place :=
  { w with sites := w.sites.put f f' p }

/-- A world in which one more function is a value. -/
def withFunction (w : World Place) (f : FunctionId) : World Place :=
  { w with free := fun g => w.free g ∨ g = f }

/-- A world in which one more function is a method of a class. -/
def withMethod (w : World Place) (f : FunctionId) : World Place :=
  { w with methods := fun g => w.methods g ∨ g = f }

theorem grows_withFrame (w : World Place) (f f' : FrameId) (p : Place) :
    w.Grows (w.withFrame f f' p) :=
  ⟨fun _ _ _ h => .inl h, fun _ h => h, fun _ h => h⟩

theorem grows_withFunction (w : World Place) (f : FunctionId) : w.Grows (w.withFunction f) :=
  ⟨fun _ _ _ h => h, fun _ h => .inl h, fun _ h => h⟩

theorem grows_withMethod (w : World Place) (f : FunctionId) : w.Grows (w.withMethod f) :=
  ⟨fun _ _ _ h => h, fun _ h => h, fun _ h => .inl h⟩

/-- A value that is no function, or a function that is known to be a value. -/
def Fine (w : World Place) (v : Value) : Prop := ∀ f, v = .function f → w.free f

theorem Fine.mono {w w' : World Place} {v : Value} (h : w.Fine v) (hw : w.Grows w') : w'.Fine v :=
  fun f hf => hw.free f (h f hf)

theorem fine_of_ne {w : World Place} {v : Value} (h : ∀ f, v ≠ .function f) : w.Fine v :=
  fun f hf => absurd hf (h f)

end World

/-! ## Functions -/

variable (S : Setting)

/-- Function objects that programs cannot tell apart and that close over frames that go together,
where their text stands. The frame of an initializer holds its instance. -/
structure Setting.Closed (s : Sites S.Place) (o o' : FunctionObject) : Prop where
  face : o'.face = o.face
  text : ∃ p, s o.closure o'.closure p ∧ KinLambda S.toKinship p o.fn o'.fn ∧
    (o.isInitializer = true → S.declare p "this" "this")

/-- Methods, whose text stands in a scope inside the one where their frames stand. -/
structure Setting.Unbound (s : Sites S.Place) (o o' : FunctionObject) : Prop where
  face : o'.face = o.face
  text : ∃ p q, s o.closure o'.closure p ∧ S.inside p q ∧ KinLambda S.toKinship q o.fn o'.fn

variable {S}

theorem Setting.Closed.mono {s s' : Sites S.Place} {o o' : FunctionObject}
    (h : S.Closed s o o') (hs : ∀ f f' p, s f f' p → s' f f' p) : S.Closed s' o o' := by
  obtain ⟨p, hp, htext⟩ := h.text
  exact ⟨h.face, p, hs _ _ p hp, htext⟩

theorem Setting.Unbound.mono {s s' : Sites S.Place} {o o' : FunctionObject}
    (h : S.Unbound s o o') (hs : ∀ f f' p, s f f' p → s' f f' p) : S.Unbound s' o o' := by
  obtain ⟨p, q, hp, htext⟩ := h.text
  exact ⟨h.face, p, q, hs _ _ p hp, htext⟩

end Twin
end Lox
