import Lox.Proofs.Eval.Stepwise
import Lox.Proofs.Heap.Growth

/-! # The functions that are made

New function objects come from the text that is evaluated, or share the text of
those that are in the heap already. A class statement makes one for each method that it
writes, in order, and under a name the class has the one that was written last. -/

namespace Lox

/-! ## The methods of a class -/

/-- The last method that is written under a name. -/
def Method.lastNamed (name : String) (methods : List Method) : Option Method :=
  (methods.filter fun method => method.name.text = name).getLast?

theorem Method.lastNamed_cons (name : String) (method : Method) (rest : List Method) :
    lastNamed name (method :: rest) =
      (lastNamed name rest).or (if method.name.text = name then some method else none) := by
  unfold lastNamed
  by_cases hname : method.name.text = name
  · rw [List.filter_cons_of_pos (by simpa using hname), if_pos hname, List.getLast?_cons]
    cases (rest.filter fun method => method.name.text = name).getLast? <;> rfl
  · rw [List.filter_cons_of_neg (by simpa using hname), if_neg hname, Option.or_none]

namespace Eval

/-- The function objects of the methods of a class. -/
def methodObjects (frame : FrameId) (ms : List Method) : Array FunctionObject :=
  (ms.map fun m => ⟨some m.name.text, m.fn, frame, m.name.text = initializerName⟩).toArray

theorem size_methodObjects (frame : FrameId) (ms : List Method) :
    (methodObjects frame ms).size = ms.length := by
  simp [methodObjects]

theorem heap_methodTable (frame : FrameId) (ms : List Method) (table : Bindings FunctionId)
    (h : Heap) :
    (methodTable frame ms table h).2 = h.addFunctions (methodObjects frame ms) := by
  induction ms generalizing table h with
  | nil =>
    show h = { h with functions := h.functions ++ #[] }
    rw [Array.append_empty]
  | cons m ms ih =>
    obtain ⟨name, fn⟩ := m
    rw [methodTable, ih]
    show ({ h with functions := _ } : Heap) = { h with functions := _ }
    simp [methodObjects, Heap.newFunction]

/-- A table holds what it held, and the new functions. -/
theorem get?_methodTable {frame : FrameId} {ms : List Method} {table : Bindings FunctionId}
    {h : Heap} {name : String} {f : FunctionId}
    (hf : (methodTable frame ms table h).1.get? name = some f) :
    table.get? name = some f ∨
      (h.functions.size ≤ f.index ∧ f.index < h.functions.size + ms.length) := by
  induction ms generalizing table h with
  | nil => exact .inl hf
  | cons m ms ih =>
    obtain ⟨key, fn⟩ := m
    rw [methodTable] at hf
    rcases ih hf with htable | ⟨hle, hlt⟩
    · rw [Bindings.get?_insert] at htable
      split at htable
      · obtain rfl := Option.some.inj htable
        right
        simp
      · exact .inl htable
    · right
      simp only [Array.size_push] at hle hlt
      rw [List.length_cons]
      omega

/-- The method that is written last under a name is the one that the table names, and without one
the table stays as it is there. -/
theorem methodTable_lastNamed (frame : FrameId) (name : String) (ms : List Method)
    (table : Bindings FunctionId) (h : Heap) :
    (∀ method, Method.lastNamed name ms = some method →
      ∃ f, (methodTable frame ms table h).1.get? name = some f ∧
        (methodTable frame ms table h).2.function? f =
          some ⟨some name, method.fn, frame, name = initializerName⟩) ∧
      (Method.lastNamed name ms = none →
        (methodTable frame ms table h).1.get? name = table.get? name) := by
  induction ms generalizing table h with
  | nil => exact ⟨nofun, fun _ => rfl⟩
  | cons m ms ih =>
    obtain ⟨key, fn⟩ := m
    rw [Method.lastNamed_cons, methodTable]
    let object : FunctionObject := ⟨some key.text, fn, frame, key.text = initializerName⟩
    obtain ⟨hlater, hno⟩ := ih (table.insert key.text ⟨h.functions.size⟩) (h.newFunction object).2
    cases hlast : Method.lastNamed name ms with
    | some method => exact ⟨fun _ hmethod => hlater _ (hlast.trans hmethod), nofun⟩
    | none =>
      have hget := hno hlast
      rw [Bindings.get?_insert] at hget
      rw [Option.none_or]
      split at hget
      · next hkey =>
        -- No later method has the name, and the functions of later methods change nothing.
        rw [if_pos hkey]
        refine ⟨fun method hmethod => ?_, nofun⟩
        obtain rfl := Option.some.inj hmethod
        refine ⟨_, hget, ?_⟩
        rw [heap_methodTable, ← hkey]
        exact (Heap.grows_addFunctions _ _).functions _ _ Array.getElem?_push_size
      · next hkey =>
        rw [if_neg hkey]
        exact ⟨nofun, fun _ => hget⟩

/-- A new function in the table is an initializer if it is named so. -/
theorem function?_methodTable {frame : FrameId} {ms : List Method} {table : Bindings FunctionId}
    {h : Heap} {name : String} {f : FunctionId}
    (hf : (methodTable frame ms table h).1.get? name = some f) :
    table.get? name = some f ∨ ∃ object,
      (methodTable frame ms table h).2.function? f = some object ∧
        object.isInitializer = decide (name = initializerName) := by
  obtain ⟨hmethod, hno⟩ := methodTable_lastNamed frame name ms table h
  cases hlast : Method.lastNamed name ms with
  | none => exact .inl ((hno hlast).symm.trans hf)
  | some method =>
    obtain ⟨f', hf', hobject⟩ := hmethod method hlast
    obtain rfl := Option.some.inj (hf.symm.trans hf')
    exact .inr ⟨_, hobject, rfl⟩

end Eval
/-! ## Texts of functions -/

/-- All functions of a heap have such texts. -/
def Heap.Made (P : Lambda → Prop) (h : Heap) : Prop := ∀ f ∈ h.functions, P f.fn

namespace Heap

variable {P : Lambda → Prop} {h : Heap}

theorem Made.function {f : FunctionId} {object : FunctionObject} (hmade : h.Made P)
    (hf : h.function? f = some object) : P object.fn :=
  hmade object (Array.mem_of_getElem? hf)

theorem Made.newFunction {object : FunctionObject} (hmade : h.Made P) (hobject : P object.fn) :
    (h.newFunction object).2.Made P := by
  intro f hf
  simp only [Heap.newFunction, Array.mem_push] at hf
  cases hf with
  | inl hold => exact hmade f hold
  | inr hnew => exact hnew ▸ hobject

/-- The functions that the methods of a class become have the texts of the methods. -/
theorem Made.methodTable (frame : FrameId) {methods : List Method} (table : Bindings FunctionId)
    (hmade : h.Made P) (hmethods : ∀ m ∈ methods, P m.fn) :
    (Eval.methodTable frame methods table h).2.Made P := by
  induction methods generalizing table h with
  | nil => exact hmade
  | cons m rest ih =>
    obtain ⟨name, fn⟩ := m
    simp only [List.forall_mem_cons] at hmethods
    exact ih _ (hmade.newFunction hmethods.1) hmethods.2

end Heap

namespace Run

variable {P : Lambda → Prop} {α β : Type}

/-- A computation that only makes functions with such texts. -/
structure Makes (P : Lambda → Prop) (r : Run α) : Prop where
  ends : ∀ m, m.heap.Made P →
    Ends r m (fun _ m' => m'.heap.Made P) fun _ m' => m'.heap.Made P

theorem makes_exhaust : Makes P (exhaust : Run α) := ⟨fun _ hm => hm⟩

theorem makes_onHeap {f : Heap → α × Heap} (hf : ∀ h, h.Made P → (f h).2.Made P) :
    Makes P (onHeap f) := ⟨fun m hm => hf m.heap hm⟩

theorem makes_writeLine (text : String) : Makes P (writeLine text) := by
  constructor
  intro m hm
  unfold Ends writeLine
  cases m.sink.writeLine text with
  | mk step sink => cases step <;> exact hm

theorem makes_callNative (id : NativeId) (args : List Value) (paren : Span) :
    Makes P (callNative id args paren) := by
  constructor
  intro m hm
  unfold Ends callNative
  cases m.host[id.index]? with
  | none => exact hm
  | some code =>
    dsimp only
    cases code ⟨m.heap, m.clock.reading m.clock.reads⟩ args <;> exact hm

theorem Makes.bind {r : Run α} {k : α → Run β} (h : Makes P r) (hk : ∀ a, Makes P (k a)) :
    Makes P (r >>= k) := by
  constructor
  intro m hm
  rw [ends_bind]
  exact (h.ends m hm).imp (fun a m' hm' => (hk a).ends m' hm') fun _ _ hm' => hm'

theorem makes_stepwise (P : Lambda → Prop) : Stepwise fun _ r => Makes P r where
  pure _ := ⟨fun _ hm => hm⟩
  fail _ _ := ⟨fun _ hm => hm⟩
  ask _ := ⟨fun _ hm => hm⟩
  onHeap hf := makes_onHeap fun h hm => by
    unfold Heap.Made
    rw [hf h]
    exact hm
  define _ _ := ⟨fun _ hm => hm⟩
  bind := .bind

end Run

namespace Eval
open Run

variable {P : Lambda → Prop}

theorem makes_writeVariable (target : Reference) (value : Value) :
    Makes P (writeVariable target value) := by
  constructor
  intro m hm
  unfold Ends writeVariable
  cases m.bindingFrame? target.id target.name.text <;> exact hm

theorem makes_closure (name : Option String) {fn : Lambda} (hfn : P fn) :
    Makes P (closure name fn) :=
  have steps := makes_stepwise P
  steps.bind (steps.ask fun _ _ => rfl) fun _ =>
    steps.bind (makes_onHeap fun _ hh => hh.newFunction hfn) fun _ => steps.pure _

/-- A bound method has the text of the method. -/
theorem makes_boundMethod (found : Option FunctionId) (i : InstanceId) (name : Ident) :
    Makes P (boundMethod found i name) := by
  constructor
  intro m hm
  show Ends (orElseFail (found.bind m.heap.function?) (.undefinedProperty name.text) name.span >>=
    fun method => onHeap (·.bind method i) >>= fun bound => onHeap (·.newFunction bound) >>=
      fun id => pure (Value.function id)) m _ _
  cases hmethod : found.bind m.heap.function? with
  | none => exact hm
  | some method =>
    obtain ⟨f, -, hf⟩ := Option.bind_eq_some_iff.mp hmethod
    have hfn : P method.fn := hm.function hf
    exact Heap.Made.newFunction (h := (m.heap.bind method i).2) hm hfn

theorem makes_declareClass (name : Ident) (superclass : Option Reference) {methods : List Method}
    (hmethods : ∀ m ∈ methods, P m.fn) : Makes P (declareClass name superclass methods) :=
  (makes_stepwise P).declareClass name superclass fun frame =>
    makes_onHeap fun _ hh => hh.methodTable frame .empty hmethods

end Eval
end Lox
