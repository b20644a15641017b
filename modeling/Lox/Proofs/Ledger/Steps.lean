import Lox.Eval.Basic
import Lox.Proofs.Eval.Bodies
import Lox.Proofs.Eval.Data
import Lox.Proofs.Ledger.Heaps
import Lox.Proofs.Outcome

/-! # Steps that set no field

Of all that evaluation does only a Set expression changes the fields of an instance
that exists. Every other rule lets instances, classes and functions stay what they
are, and refers to classes that exist if it was given such. -/

namespace Lox

/-- The class that a statement hands on when it finishes, if there is one. -/
def Flow.classes : Flow → List ClassId
  | .return_ value => value.classes
  | .normal | .break_ => []

theorem Value.IsData.classes {v : Value} (h : v.IsData) : v.classes = [] := by
  cases v with
  | class_ => cases h
  | _ => rfl

namespace Ledger

open Run

variable {α β : Type}

/-- A step on an orderly machine that sets no field. Given classes that exist, it ends with others
that do. -/
structure Extending (r : Run α) (given : List ClassId) (out : α → List ClassId) : Prop where
  ends : ∀ m, m.Orderly → m.heap.Holds given →
    Ends r m (fun a m' => m'.Orderly ∧ m.heap.Extends m'.heap ∧ m'.heap.Holds (out a))
      fun _ m' => m'.Orderly ∧ m.heap.Extends m'.heap

variable {r : Run α} {given : List ClassId} {out : α → List ClassId}

theorem extending_pure {a : α} (ha : out a ⊆ given) : Extending (pure a) given out :=
  ⟨fun _ hm hgiven => ⟨hm, .refl _, hgiven.sub ha⟩⟩

theorem extending_stop {stop : Stop} : Extending (throw stop) given out :=
  ⟨fun _ hm _ => ⟨hm, .refl _⟩⟩

theorem Extending.bind {k : α → Run β} {out' : β → List ClassId} (hr : Extending r given out)
    (hk : ∀ a, Extending (k a) (out a ++ given) out') : Extending (r >>= k) given out' := by
  constructor
  intro m hm hgiven
  rw [ends_bind]
  refine (hr.ends m hm hgiven).imp (fun a m' hend => ?_) fun _ _ hend => hend
  obtain ⟨hm', hextends, hout⟩ := hend
  refine ((hk a).ends m' hm' (hout.append (hgiven.mono hextends.classes))).imp ?_ ?_
  · exact fun b m'' hend => ⟨hend.1, hextends.trans hend.2.1, hend.2.2⟩
  · exact fun _ m'' hend => ⟨hend.1, hextends.trans hend.2⟩

theorem extending_ask {f : Machine → α}
    (hf : ∀ m : Machine, m.Orderly → m.heap.Holds given → m.heap.Holds (out (f m))) :
    Extending (ask f) given out :=
  ⟨fun m hm hgiven => ⟨hm, .refl _, hf m hm hgiven⟩⟩

/-- To look at something that refers to no class. -/
theorem extending_look (f : Machine → α) : Extending (ask f) given fun _ => [] :=
  extending_ask fun _ _ _ => Heap.holds_nil _

/-- The class that a value is, if there is a value and it is one. -/
def optionalClasses (v? : Option Value) : List ClassId := v?.toList.flatMap Value.classes

/-- What stands in the heap refers to classes that exist. -/
theorem extending_askValue {f : Machine → Option Value}
    (hf : ∀ m v, m.heap.Tidy → f m = some v → m.heap.Holds v.classes) :
    Extending (ask f) given optionalClasses := by
  refine extending_ask fun m hm _ => ?_
  cases hv : f m with
  | none => exact Heap.holds_nil _
  | some v => simpa [optionalClasses] using hf m v hm.heap hv

theorem extending_onHeap {f : Heap → α × Heap}
    (hf : ∀ h, h.Tidy → h.Holds given →
      (f h).2.Tidy ∧ h.Extends (f h).2 ∧ (f h).2.Holds (out (f h).1)) :
    Extending (onHeap f) given out := by
  constructor
  intro m hm hgiven
  obtain ⟨htidy, hextends, hout⟩ := hf m.heap hm.heap hgiven
  exact ⟨⟨htidy, hm.host⟩, hextends, hout⟩

theorem extending_orFail {result : Except RuntimeError α} {span : Span}
    (h : ∀ a, result = .ok a → out a ⊆ given) : Extending (orFail result span) given out := by
  cases result with
  | ok a => exact extending_pure (h a rfl)
  | error error => exact extending_stop

theorem extending_orElseFail {result : Option α} {error : RuntimeError} {span : Span}
    (h : ∀ a, result = some a → out a ⊆ given) :
    Extending (orElseFail result error span) given out := by
  cases result with
  | some a => exact extending_pure (h a rfl)
  | none => exact extending_stop

/-- To need something that refers to no class. -/
theorem extending_need (result : Option α) (error : RuntimeError) (span : Span) :
    Extending (orElseFail result error span) given fun _ => [] :=
  extending_orElseFail fun _ _ => List.nil_subset _

theorem extending_needValue (v? : Option Value) (error : RuntimeError) (span : Span) :
    Extending (orElseFail v? error span) (optionalClasses v? ++ given) Value.classes := by
  refine extending_orElseFail ?_
  rintro v rfl
  simp [optionalClasses]

theorem extending_define (name : String) {v : Value} (hv : v.classes ⊆ given) :
    Extending (define name v) given fun _ => [] :=
  ⟨fun m hm hgiven => ⟨⟨hm.heap.define m.current name (hgiven.sub hv), hm.host⟩,
    m.heap.extends_define m.current name v, Heap.holds_nil _⟩⟩

theorem extending_newFrame {enclosing : Option FrameId} {names : Bindings Value}
    (hnames : ∀ name v, names.get? name = some v → v.classes ⊆ given) :
    Extending (onHeap (·.newFrame enclosing names)) given fun _ => [] :=
  extending_onHeap fun h ht hgiven =>
    ⟨ht.newFrame enclosing fun name v hv => hgiven.sub (hnames name v hv),
      h.extends_newFrame enclosing names, Heap.holds_nil _⟩

theorem extending_newFunction (f : FunctionObject) :
    Extending (onHeap (·.newFunction f)) given fun _ => [] :=
  extending_onHeap fun h ht _ =>
    ⟨ht.addFunctions #[f], h.extends_addFunctions #[f], Heap.holds_nil _⟩

theorem extending_newInstance {c : ClassId} (hc : c ∈ given) :
    Extending (onHeap (·.newInstance c)) given fun _ => [] :=
  extending_onHeap fun h ht hgiven =>
    ⟨ht.newInstance (hgiven c hc), h.extends_newInstance c, Heap.holds_nil _⟩

theorem extending_writeLine (text : String) : Extending (writeLine text) given fun _ => [] := by
  constructor
  intro m hm _
  unfold Ends writeLine
  cases m.sink.writeLine text with
  | mk step sink =>
    cases step with
    | none => exact ⟨⟨hm.heap, hm.host⟩, .refl _, Heap.holds_nil _⟩
    | some step => exact ⟨⟨hm.heap, hm.host⟩, .refl _⟩

/-- To write the text of a value. -/
theorem extending_print (v : Value) :
    Extending (do writeLine (← ask fun m => m.heap.describe v)) given fun _ => [] :=
  (extending_look _).bind fun text => extending_writeLine text

/-- An honest host hands out no class but those that exist. -/
theorem extending_callNative (n : NativeId) {args : List Value} (paren : Span)
    (hargs : args.flatMap Value.classes ⊆ given) :
    Extending (callNative n args paren) given Value.classes := by
  constructor
  intro m hm hgiven
  unfold Ends callNative
  cases hcode : m.host[n.index]? with
  | none => exact ⟨hm, .refl _⟩
  | some code =>
    dsimp only
    cases hv : code ⟨m.heap, m.clock.reading m.clock.reads⟩ args with
    | error words => exact ⟨⟨hm.heap, hm.host⟩, .refl _⟩
    | ok v =>
      have hhonest := hm.host code (Array.mem_of_getElem? hcode)
      exact ⟨⟨hm.heap, hm.host⟩, .refl _, hhonest _ args v hm.heap (hgiven.sub hargs) hv⟩

/-! ## Variables and functions -/

theorem extending_readVariable (id : Nat) (name : String) (span : Span) :
    Extending (Eval.readVariable id name span) given Value.classes := by
  refine (extending_askValue fun m v ht hv => ?_).bind fun v? => extending_needValue ..
  obtain ⟨frame, -, hget⟩ := Option.bind_eq_some_iff.mp hv
  exact ht.values frame name v hget

theorem extending_writeVariable (target : Reference) {v : Value} (hv : v.classes ⊆ given) :
    Extending (Eval.writeVariable target v) given fun _ => [] := by
  constructor
  intro m hm hgiven
  unfold Ends Eval.writeVariable
  cases m.bindingFrame? target.id target.name.text with
  | none => exact ⟨hm, .refl _⟩
  | some frame =>
    exact ⟨⟨hm.heap.define frame _ (hgiven.sub hv), hm.host⟩, m.heap.extends_define ..,
      Heap.holds_nil _⟩

theorem extending_closure (name : Option String) (fn : Lambda) :
    Extending (Eval.closure name fn) given Value.classes :=
  (extending_look _).bind fun _ => (extending_newFunction _).bind fun _ =>
    extending_pure (List.nil_subset _)

theorem extending_bind (method : FunctionObject) (i : InstanceId) :
    Extending (onHeap (·.bind method i)) given fun _ => [] := by
  refine extending_onHeap fun h ht _ =>
    ⟨ht.newFrame (some method.closure) ?_, h.extends_newFrame .., Heap.holds_nil _⟩
  intro name v hv
  rw [Bindings.get?_insert] at hv
  split at hv
  · obtain rfl := Option.some.inj hv
    exact Heap.holds_nil _
  · cases hv

/-! ## Properties -/

theorem extending_boundMethod (found : Option FunctionId) (i : InstanceId) (name : Ident) :
    Extending (Eval.boundMethod found i name) given Value.classes :=
  (extending_look _).bind fun _ => (extending_need ..).bind fun method =>
    (extending_bind method i).bind fun _ => (extending_newFunction _).bind fun _ =>
      extending_pure (List.nil_subset _)

theorem extending_property (object : Value) (name : Ident) :
    Extending (Eval.property object name) given Value.classes := by
  cases object with
  | instance_ i =>
    refine (extending_askValue fun m v ht hv => ht.fields i name.text v hv).bind fun v? => ?_
    cases v? with
    | some v => exact extending_pure (by simp [optionalClasses])
    | none => exact (extending_look _).bind fun found => extending_boundMethod found i name
  | _ => exact extending_stop

theorem extending_superClass (hops : Nat) (keyword : Span) :
    Extending (Eval.superClass hops keyword) given fun _ => [] := by
  refine (extending_look _).bind fun found => ?_
  split
  · exact extending_pure (List.nil_subset _)
  · exact extending_stop

theorem extending_superInstance (hops : Nat) (keyword : Span) :
    Extending (Eval.superInstance hops keyword) given fun _ => [] := by
  refine (extending_look _).bind fun found => ?_
  split
  · exact extending_pure (List.nil_subset _)
  · exact extending_stop

theorem extending_superMethod (id : Nat) (keyword : Span) (method : Ident) :
    Extending (Eval.superMethod id keyword method) given Value.classes :=
  (extending_look _).bind fun _ => (extending_need ..).bind fun hops =>
    (extending_superClass hops keyword).bind fun _ =>
      (extending_superInstance hops keyword).bind fun i =>
        (extending_look _).bind fun found => extending_boundMethod found i method

/-! ## Calls -/

theorem extending_checkCall (callee : Value) (count : Nat) (paren : Span) :
    Extending (Eval.checkCall callee count paren) given fun _ => [] := by
  refine (extending_look _).bind fun _ => (extending_need ..).bind fun arity => ?_
  split
  · exact extending_stop
  · refine (extending_look _).bind fun depth => ?_
    split
    · exact extending_stop
    · exact extending_pure (List.nil_subset _)

theorem extending_callResult (f : FunctionObject) {flow : Flow} (hflow : flow.classes ⊆ given) :
    Extending (Eval.callResult f flow) given Value.classes := by
  unfold Eval.callResult
  split
  · refine (extending_askValue fun m v ht hv => ?_).bind fun v? => extending_needValue ..
    obtain ⟨frame, -, hget⟩ := Option.bind_eq_some_iff.mp hv
    exact ht.values frame "this" v hget
  · cases flow with
    | return_ v => exact extending_pure hflow
    | normal | break_ => exact extending_pure (List.nil_subset _)

/-! ## Classes -/

theorem extending_superclassOf (superclass : Option Reference) :
    Extending (Eval.superclassOf superclass) given Option.toList := by
  cases superclass with
  | none => exact extending_pure (List.nil_subset _)
  | some target =>
    refine (extending_readVariable ..).bind fun v => ?_
    cases v with
    | class_ c => exact extending_pure (by simp [Value.classes])
    | _ => exact extending_stop

theorem extending_methodFrame {parent : Option ClassId} (hparent : parent.toList ⊆ given) :
    Extending (Eval.methodFrame parent) given fun _ => [] := by
  refine (extending_look _).bind fun frame => ?_
  cases parent with
  | none => exact extending_pure (List.nil_subset _)
  | some c =>
    refine extending_newFrame fun name v hv => ?_
    rw [Bindings.get?_insert] at hv
    split at hv
    · obtain rfl := Option.some.inj hv
      simpa [Value.classes] using hparent
    · cases hv

/-- The table of the methods of a class names functions that have been made for it. -/
theorem index_lt_of_methodTable {frame : FrameId} {methods : List Method} {h : Heap} {name : String}
    {f : FunctionId} (hf : (Eval.methodTable frame methods .empty h).1.get? name = some f) :
    f.index < (h.addFunctions (Eval.methodObjects frame methods)).functions.size := by
  rcases Eval.get?_methodTable hf with hempty | ⟨-, hlt⟩
  · rw [Bindings.get?_empty] at hempty
    cases hempty
  · rw [← Eval.size_methodObjects frame methods, ← Array.size_append] at hlt
    exact hlt

/-- A class that is made is below one that exists, and its methods are functions that exist. -/
theorem extending_newClass (name : String) {parent : Option ClassId} (frame : FrameId)
    (methods : List Method) (hparent : parent.toList ⊆ given) :
    Extending (do
      let table ← onHeap (Eval.methodTable frame methods .empty)
      let id ← onHeap (·.newClass ⟨name, parent, table⟩)
      define name (.class_ id)) given fun _ => [] := by
  constructor
  intro m hm hgiven
  let objects := Eval.methodObjects frame methods
  have hobjects : (Eval.methodTable frame methods .empty m.heap).2 = m.heap.addFunctions objects :=
    Eval.heap_methodTable ..
  let object : ClassObject := ⟨name, parent, (Eval.methodTable frame methods .empty m.heap).1⟩
  have hmade := m.heap.extends_addFunctions objects
  have hextends := hmade.trans ((m.heap.addFunctions objects).extends_newClass object)
  have htidy : ((m.heap.addFunctions objects).newClass object).2.Tidy :=
    (hm.heap.addFunctions objects).newClass ((hgiven.sub hparent).mono hmade.classes)
      fun _ _ => index_lt_of_methodTable
  have hclass : ((m.heap.addFunctions objects).newClass object).2.Holds
      (Value.class_ ⟨(m.heap.addFunctions objects).classes.size⟩).classes := by
    simp [Heap.Holds, Value.classes, Heap.newClass]
  rw [← hobjects] at hextends htidy hclass
  exact ⟨⟨htidy.define m.current name hclass, hm.host⟩,
    ⟨hextends.instances, hextends.classes, hextends.functions⟩, Heap.holds_nil _⟩

theorem extending_declareClass (name : Ident) (superclass : Option Reference)
    (methods : List Method) :
    Extending (Eval.declareClass name superclass methods) given fun _ => [] := by
  refine (extending_superclassOf superclass).bind fun parent => ?_
  refine (extending_define _ (List.nil_subset _)).bind fun _ => ?_
  refine (extending_methodFrame (by simp)).bind fun frame => ?_
  exact extending_newClass name.text frame methods (by simp)

end Ledger
end Lox
