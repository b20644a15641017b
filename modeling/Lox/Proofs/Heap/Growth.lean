import Lox.Heap.Basic

/-! # Heaps only grow

What a heap holds it goes on holding: a frame keeps the frame around it and the
names that it binds, and a function object never changes. -/

namespace Lox

theorem Bindings.put_put {α : Type} (name : String) (old value : α) (entries : List (String × α)) :
    put name value (put name old entries) = put name value entries := by
  induction entries with
  | nil => simp [put]
  | cons entry rest ih =>
    obtain ⟨key, other⟩ := entry
    by_cases hkey : key = name
    · simp [put, hkey]
    · simp [put, hkey, ih]

theorem Bindings.insert_insert {α : Type} (b : Bindings α) (name : String) (old value : α) :
    (b.insert name old).insert name value = b.insert name value :=
  congrArg Bindings.mk (put_put name old value b.entries)

namespace Heap

/-- A later heap holds what an earlier one does. -/
structure Grows (h h' : Heap) : Prop where
  enclosing : ∀ f outer, h.enclosing? f = some outer → h'.enclosing? f = some outer
  binds : ∀ f name, h.binds f name = true → h'.binds f name = true
  functions : ∀ f object, h.function? f = some object → h'.function? f = some object
  frames : h.frames.size ≤ h'.frames.size
  size : h.functions.size ≤ h'.functions.size

theorem Grows.refl (h : Heap) : h.Grows h :=
  ⟨fun _ _ hf => hf, fun _ _ hf => hf, fun _ _ hf => hf, Nat.le_refl _, Nat.le_refl _⟩

theorem Grows.trans {h h' h'' : Heap} (hg : h.Grows h') (hg' : h'.Grows h'') : h.Grows h'' where
  enclosing f outer hf := hg'.enclosing f outer (hg.enclosing f outer hf)
  binds f name hf := hg'.binds f name (hg.binds f name hf)
  functions f object hf := hg'.functions f object (hg.functions f object hf)
  frames := Nat.le_trans hg.frames hg'.frames
  size := Nat.le_trans hg.size hg'.size

variable (h : Heap)

/-- What changes neither frames nor functions. -/
theorem grows_of_eq {h h' : Heap} (hframes : h'.frames = h.frames)
    (hfunctions : h'.functions = h.functions) : h.Grows h' where
  enclosing f outer hf := by
    unfold enclosing? at *
    rw [hframes]
    exact hf
  binds f name hf := by
    unfold binds get? at *
    rw [hframes]
    exact hf
  functions f object hf := by
    unfold function? at *
    rw [hfunctions]
    exact hf
  frames := Nat.le_of_eq (by rw [hframes])
  size := Nat.le_of_eq (by rw [hfunctions])

/-! ## Frames -/

theorem binds_define (f g : FrameId) (name other : String) (value : Value)
    (hf : h.binds g other = true) : (h.define f name value).binds g other = true := by
  unfold binds at *
  rw [get?_define]
  split
  · rfl
  · exact hf

theorem grows_define (f : FrameId) (name : String) (value : Value) :
    h.Grows (h.define f name value) where
  enclosing g outer hg := by
    rw [enclosing?_define]
    exact hg
  binds g other := binds_define h f g name other value
  functions _ _ hf := hf
  frames := Nat.le_of_eq (Array.size_modify ..).symm
  size := Nat.le_refl _

/-- A name is bound in a frame that exists once it has been defined there. -/
theorem binds_define_self {f : FrameId} (hf : f.index < h.frames.size) (name : String)
    (value : Value) : (h.define f name value).binds f name = true := by
  unfold binds
  rw [get?_define, if_pos ⟨rfl, rfl, hf⟩]
  rfl

/-- What a name was bound to is forgotten when it is bound again. -/
theorem define_define (f : FrameId) (name : String) (old value : Value) :
    (h.define f name old).define f name value = h.define f name value := by
  unfold define
  rw [Heap.mk.injEq]
  refine ⟨?_, rfl, rfl, rfl, rfl⟩
  refine Array.ext_getElem? fun i => ?_
  simp only [Array.getElem?_modify]
  by_cases hi : f.index = i
  · simp only [hi, if_true, Option.map_map]
    congr 1
    funext frame
    exact congrArg (Frame.mk frame.enclosing) (Bindings.insert_insert ..)
  · simp only [hi, if_false]

theorem index_lt_of_enclosing {h : Heap} {f outer : FrameId} (hf : h.enclosing? f = some outer) :
    f.index < h.frames.size := by
  obtain ⟨frame, hframe, -⟩ := Option.bind_eq_some_iff.mp hf
  exact (Array.getElem?_eq_some_iff.mp hframe).1

theorem size_define (f : FrameId) (name : String) (value : Value) :
    (h.define f name value).frames.size = h.frames.size := Array.size_modify ..

variable (enclosing : Option FrameId) (names : Bindings Value)

theorem size_newFrame : (h.newFrame enclosing names).2.frames.size = h.frames.size + 1 :=
  Array.size_push _

theorem getElem?_newFrame (f : FrameId) : (h.newFrame enclosing names).2.frames[f.index]? =
    if f = (h.newFrame enclosing names).1 then some ⟨enclosing, names⟩
    else h.frames[f.index]? := by
  obtain ⟨i⟩ := f
  simp only [newFrame, FrameId.mk.injEq, Array.getElem?_push]

theorem get?_newFrame (f : FrameId) (name : String) :
    (h.newFrame enclosing names).2.get? f name =
      if f = (h.newFrame enclosing names).1 then names.get? name else h.get? f name := by
  unfold get?
  rw [getElem?_newFrame]
  split <;> rfl

theorem enclosing?_newFrame (f : FrameId) :
    (h.newFrame enclosing names).2.enclosing? f =
      if f = (h.newFrame enclosing names).1 then enclosing else h.enclosing? f := by
  unfold enclosing?
  rw [getElem?_newFrame]
  split <;> rfl

/-- A new frame lies inside the one that it was made for, and binds what it was made with. -/
theorem enclosing?_newFrame_self :
    (h.newFrame enclosing names).2.enclosing? (h.newFrame enclosing names).1 = enclosing := by
  rw [enclosing?_newFrame, if_pos rfl]

theorem binds_newFrame_self (name : String) :
    (h.newFrame enclosing names).2.binds (h.newFrame enclosing names).1 name =
      names.contains name := by
  unfold binds
  rw [get?_newFrame, if_pos rfl]
  rfl

theorem newFrame_ne {f : FrameId} (hf : f.index < h.frames.size) :
    f ≠ (h.newFrame enclosing names).1 := by
  intro heq
  subst heq
  exact Nat.lt_irrefl _ hf

theorem grows_newFrame : h.Grows (h.newFrame enclosing names).2 where
  enclosing f outer hf := by
    rw [enclosing?_newFrame, if_neg (newFrame_ne h _ _ (index_lt_of_enclosing hf))]
    exact hf
  binds f name hf := by
    have hlt : f.index < h.frames.size := by
      unfold binds get? at hf
      obtain ⟨v, hv⟩ := Option.isSome_iff_exists.mp hf
      obtain ⟨frame, hframe, -⟩ := Option.bind_eq_some_iff.mp hv
      exact (Array.getElem?_eq_some_iff.mp hframe).1
    unfold binds
    rw [get?_newFrame, if_neg (newFrame_ne h _ _ hlt)]
    exact hf
  functions _ _ hf := hf
  frames := by simp [newFrame]
  size := Nat.le_refl _

/-! ## The same frames -/

section

variable {h h' : Heap}

/-- What is known of frames depends on the frames alone. -/
theorem get?_of_frames (hframes : h'.frames = h.frames) (f : FrameId) (name : String) :
    h'.get? f name = h.get? f name := by
  unfold get?
  rw [hframes]

theorem enclosing?_of_frames (hframes : h'.frames = h.frames) (f : FrameId) :
    h'.enclosing? f = h.enclosing? f := by
  unfold enclosing?
  rw [hframes]

theorem ancestor?_of_frames (hframes : h'.frames = h.frames) (f : FrameId) (hops : Nat) :
    h'.ancestor? f hops = h.ancestor? f hops := by
  induction hops generalizing f with
  | zero => rfl
  | succ hops ih =>
    unfold ancestor?
    rw [enclosing?_of_frames hframes]
    exact congrArg _ (funext ih)

theorem getAt?_of_frames (hframes : h'.frames = h.frames) (f : FrameId) (hops : Nat)
    (name : String) : h'.getAt? f hops name = h.getAt? f hops name := by
  unfold getAt?
  rw [ancestor?_of_frames hframes]
  exact congrArg _ (funext fun outer => get?_of_frames hframes outer name)

theorem frames_define (hframes : h'.frames = h.frames) (f : FrameId) (name : String) (v : Value) :
    (h'.define f name v).frames = (h.define f name v).frames := by
  unfold define
  rw [hframes]

theorem frames_newFrame (hframes : h'.frames = h.frames) (enclosing : Option FrameId)
    (names : Bindings Value) :
    (h'.newFrame enclosing names).2.frames = (h.newFrame enclosing names).2.frames := by
  unfold newFrame
  rw [hframes]

end

/-! ## Functions -/

/-- A heap with more functions. -/
def addFunctions (h : Heap) (objects : Array FunctionObject) : Heap :=
  { h with functions := h.functions ++ objects }

theorem index_lt_of_function {h : Heap} {f : FunctionId} {object : FunctionObject}
    (hf : h.function? f = some object) : f.index < h.functions.size :=
  (Array.getElem?_eq_some_iff.mp hf).1

theorem function?_addFunctions (objects : Array FunctionObject) (f : FunctionId) :
    (h.addFunctions objects).function? f =
      if f.index < h.functions.size then h.function? f
      else objects[f.index - h.functions.size]? := by
  unfold function? addFunctions
  rw [Array.getElem?_append]

theorem grows_addFunctions (objects : Array FunctionObject) : h.Grows (h.addFunctions objects) where
  enclosing _ _ hf := hf
  binds _ _ hf := hf
  functions f object hf := by
    rw [function?_addFunctions, if_pos (index_lt_of_function hf)]
    exact hf
  frames := Nat.le_refl _
  size := by
    show h.functions.size ≤ (h.functions ++ objects).size
    rw [Array.size_append]
    exact Nat.le_add_right _ _

/-! ## Fields and methods -/

theorem grows_newInstance (c : ClassId) : h.Grows (h.newInstance c).2 := grows_of_eq rfl rfl

theorem grows_setField (i : InstanceId) (name : String) (value : Value) :
    h.Grows (h.setField i name value) := grows_of_eq rfl rfl

theorem grows_newNative (n : NativeObject) : h.Grows (h.newNative n).2 := grows_of_eq rfl rfl

theorem grows_newClass (object : ClassObject) : h.Grows (h.newClass object).2 :=
  grows_of_eq rfl rfl

theorem field?_setField (i j : InstanceId) (name other : String) (value : Value) :
    (h.setField i name value).field? j other =
      if i = j ∧ name = other ∧ i.index < h.instances.size then some value
      else h.field? j other := by
  obtain ⟨i⟩ := i
  obtain ⟨j⟩ := j
  simp only [field?, setField, Array.getElem?_modify, InstanceId.mk.injEq]
  by_cases hij : i = j
  · subst hij
    by_cases hlt : i < h.instances.size
    · simp [hlt, Bindings.get?_insert]
    · simp [hlt]
  · simp [hij]

/-- A new instance has no fields yet. -/
theorem field?_newInstance (c : ClassId) (i : InstanceId) (name : String) :
    (h.newInstance c).2.field? i name = h.field? i name := by
  simp only [field?, newInstance, Array.getElem?_push]
  split
  · next heq =>
    rw [Array.getElem?_eq_none (Nat.le_of_eq heq.symm)]
    rfl
  · rfl

/-- A method that a class has itself. -/
def ownMethod? (c : ClassId) (name : String) : Option FunctionId :=
  h.classes[c.index]?.bind fun object => object.methods.get? name

theorem ownMethod?_newClass (object : ClassObject) (c : ClassId) (name : String) :
    (h.newClass object).2.ownMethod? c name =
      if c = (h.newClass object).1 then object.methods.get? name else h.ownMethod? c name := by
  obtain ⟨i⟩ := c
  simp only [ownMethod?, newClass, Array.getElem?_push, ClassId.mk.injEq]
  split <;> rfl

/-- A method that is found is one that some class has itself. -/
theorem ownMethod_of_findMethod {c : ClassId} {name : String} {f : FunctionId}
    (hf : h.findMethod? c name = some f) : ∃ c', h.ownMethod? c' name = some f := by
  fun_induction findMethod? h c name with
  | case1 => cases hf
  | case2 c object hobject method hmethod =>
    obtain rfl := Option.some.inj hf
    refine ⟨c, ?_⟩
    unfold ownMethod?
    rw [hobject]
    exact hmethod
  | case3 _ _ _ _ _ _ _ ih => exact ih hf
  | case4 => cases hf
  | case5 => cases hf

/-- The methods that are found depend on the classes alone. -/
theorem findMethod?_of_classes {h h' : Heap} (hclasses : h'.classes = h.classes) (c : ClassId)
    (name : String) : h'.findMethod? c name = h.findMethod? c name := by
  fun_induction findMethod? h c name with
  | case1 c hnone =>
    rw [findMethod?, hclasses, hnone]
  | case2 c object hobject method hmethod =>
    rw [findMethod?, hclasses, hobject]
    simp only [hmethod]
  | case3 c object hobject hmethod parent hparent hlt ih =>
    rw [findMethod?, hclasses, hobject]
    simp only [hmethod, hparent, hlt, if_true]
    exact ih
  | case4 c object hobject hmethod parent hparent hlt =>
    rw [findMethod?, hclasses, hobject]
    simp only [hmethod, hparent, hlt, if_false]
  | case5 c object hobject hmethod hparent =>
    rw [findMethod?, hclasses, hobject]
    simp only [hmethod, hparent]

end Heap
end Lox

/-! ## Methods that are inherited

A class has the methods that it declares and, besides, those of the class above
it. A method of a name is looked for along the chain of classes upwards. Every
class is younger than its superclass, so the chain ends. -/

namespace Lox.Heap

variable {h : Heap} {name : String} {c : ClassId} {f : FunctionId}

/-- The class above a class. -/
def superclass? (h : Heap) (c : ClassId) : Option ClassId :=
  h.classes[c.index]?.bind ClassObject.superclass

/-- The first definition of a method on the chain of classes from one upwards. -/
inductive Nearest (h : Heap) (name : String) : ClassId → FunctionId → Prop where
  | own {c : ClassId} {f : FunctionId} (found : h.ownMethod? c name = some f) : Nearest h name c f
  | inherited {c parent : ClassId} {f : FunctionId} (absent : h.ownMethod? c name = none)
      (above : h.superclass? c = some parent) (nearest : Nearest h name parent f) :
      Nearest h name c f

/-- Superclasses are older than the classes below them. -/
def Older (h : Heap) : Prop := ∀ c parent, h.superclass? c = some parent → parent.index < c.index

/-- Where superclasses are older, looking a method up finds its nearest definition. -/
theorem findMethod?_iff_nearest (hh : h.Older) :
    h.findMethod? c name = some f ↔ h.Nearest name c f := by
  constructor
  · intro hf
    fun_induction findMethod? h c name with
    | case1 => cases hf
    | case2 c object hobject method hmethod =>
      obtain rfl := Option.some.inj hf
      exact .own (by rw [ownMethod?, hobject]; exact hmethod)
    | case3 c object hobject hmethod parent hparent _ ih =>
      refine .inherited ?_ ?_ (ih hf)
      · rw [ownMethod?, hobject]
        exact hmethod
      · rw [superclass?, hobject]
        exact hparent
    | case4 => cases hf
    | case5 => cases hf
  · intro hf
    induction hf with
    | own found =>
      obtain ⟨object, hobject, hmethod⟩ := Option.bind_eq_some_iff.mp found
      rw [findMethod?, hobject]
      simp only [hmethod]
    | @inherited c parent f absent above _ ih =>
      obtain ⟨object, hobject, hparent⟩ := Option.bind_eq_some_iff.mp above
      rw [ownMethod?, hobject] at absent
      have hmethod : object.methods.get? name = none := absent
      rw [findMethod?, hobject]
      simp only [hmethod, hparent, hh c parent above, if_true]
      exact ih

theorem superclass?_newClass (h : Heap) (object : ClassObject) (c : ClassId) :
    (h.newClass object).2.superclass? c =
      if c = (h.newClass object).1 then object.superclass else h.superclass? c := by
  obtain ⟨i⟩ := c
  simp only [superclass?, newClass, Array.getElem?_push, ClassId.mk.injEq]
  split <;> rfl

theorem Older.newClass (hh : h.Older) {object : ClassObject}
    (hparent : ∀ parent ∈ object.superclass, parent.index < h.classes.size) :
    (h.newClass object).2.Older := by
  intro c parent habove
  rw [superclass?_newClass] at habove
  split at habove
  · next hc =>
    rw [hc]
    exact hparent parent habove
  · exact hh c parent habove

end Lox.Heap
