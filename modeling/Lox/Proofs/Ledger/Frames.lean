import Lox.Eval.Basic
import Lox.Proofs.Eval.Bodies
import Lox.Proofs.Heap.Chains
import Lox.Proofs.Outcome

/-! # Frames that lie in the global one

A frame is made for a frame that exists: the present one, or the one that a function
closes over. So from every frame, and from that of every function, the way outwards ends
in the frame of the global names, whatever is made. -/

namespace Lox

namespace Heap

/-- Frames that exist. -/
def HasFrames (h : Heap) (fs : List FrameId) : Prop := ∀ f ∈ fs, f.index < h.frames.size

/-- A heap in which one frame is the outermost one, and functions close over frames that exist. -/
structure Anchored (h : Heap) (globals : FrameId) : Prop where
  root : globals.index < h.frames.size
  outermost : ∀ f, f.index < h.frames.size → (h.enclosing? f = none ↔ f = globals)
  nested : h.Nested
  closures : ∀ f object, h.function? f = some object → object.closure.index < h.frames.size

variable {h h' : Heap} {fs fs' : List FrameId} {globals f : FrameId}

theorem hasFrames_nil (h : Heap) : h.HasFrames [] := fun _ hf => absurd hf List.not_mem_nil

theorem hasFrames_singleton (hf : f.index < h.frames.size) : h.HasFrames [f] :=
  fun _ hmem => List.mem_singleton.mp hmem ▸ hf

theorem HasFrames.sub (hh : h.HasFrames fs) (hsub : fs' ⊆ fs) : h.HasFrames fs' :=
  fun f hf => hh f (hsub hf)

theorem HasFrames.append (hh : h.HasFrames fs) (hh' : h.HasFrames fs') : h.HasFrames (fs ++ fs') :=
  List.forall_mem_append.mpr ⟨hh, hh'⟩

theorem HasFrames.mono (hh : h.HasFrames fs) (hg : h.Grows h') : h'.HasFrames fs :=
  fun f hf => Nat.lt_of_lt_of_le (hh f hf) hg.frames

namespace Anchored

/-- Frames and functions are all that matters. -/
theorem of_eq (ha : h.Anchored globals) (hframes : h'.frames = h.frames)
    (hfunctions : h'.functions = h.functions) : h'.Anchored globals where
  root := hframes ▸ ha.root
  outermost f hf := by
    rw [enclosing?_of_frames hframes]
    exact ha.outermost f (hframes ▸ hf)
  nested f outer houter := ha.nested f outer (enclosing?_of_frames hframes f ▸ houter)
  closures f object hf := by
    rw [hframes]
    exact ha.closures f object (by rwa [function?, ← hfunctions])

theorem define (ha : h.Anchored globals) (f : FrameId) (name : String) (v : Value) :
    (h.define f name v).Anchored globals where
  root := by
    rw [size_define]
    exact ha.root
  outermost g hg := by
    rw [size_define] at hg
    rw [enclosing?_define]
    exact ha.outermost g hg
  nested := ha.nested.define f v
  closures g object hg := by
    rw [size_define]
    exact ha.closures g object hg

theorem newFrame (ha : h.Anchored globals) {outer : FrameId} (houter : outer.index < h.frames.size)
    (names : Bindings Value) : (h.newFrame (some outer) names).2.Anchored globals where
  root := by
    rw [size_newFrame]
    exact Nat.lt_succ_of_lt ha.root
  outermost f hf := by
    rw [enclosing?_newFrame]
    split
    · next hnew =>
      -- The new frame lies in another one, and it is not the global one, which was there.
      have hne := h.newFrame_ne (some outer) names ha.root
      exact ⟨nofun, fun heq => absurd (heq.symm.trans hnew) hne⟩
    · next hold =>
      refine ha.outermost f (Nat.lt_of_le_of_ne (Nat.le_of_lt_succ ?_) fun heq => hold ?_)
      · rwa [size_newFrame] at hf
      · exact congrArg FrameId.mk heq
  nested := ha.nested.newFrame (fun g hg => Option.some.inj hg ▸ houter) names
  closures f object hf := by
    rw [size_newFrame]
    exact Nat.lt_succ_of_lt (ha.closures f object hf)

theorem addFunctions (ha : h.Anchored globals) {objects : Array FunctionObject}
    (hobjects : ∀ object ∈ objects, object.closure.index < h.frames.size) :
    (h.addFunctions objects).Anchored globals where
  root := ha.root
  outermost := ha.outermost
  nested := ha.nested
  closures f object hf := by
    rw [function?_addFunctions] at hf
    split at hf
    · exact ha.closures f object hf
    · exact hobjects object (Array.mem_of_getElem? hf)

/-- From every frame that exists the way outwards ends in the global one. -/
theorem climb (ha : h.Anchored globals) (hf : f.index < h.frames.size) :
    ∃ chain, Climb h.enclosing? f chain ∧ chain.getLast? = some globals := by
  obtain ⟨chain, hchain⟩ := exists_climb ha.nested f
  refine ⟨chain, hchain, hchain.getLast?_eq (P := fun f => f.index < h.frames.size) hf ?_ ?_⟩
  · exact fun g outer hg houter => Nat.lt_trans (ha.nested g outer houter) hg
  · exact fun g hg hnone => (ha.outermost g hg).mp hnone

end Anchored
end Heap

namespace Machine

/-- A machine the frames of which all lie in that of its global names. -/
structure Anchored (m : Machine) : Prop where
  heap : m.heap.Anchored m.globals
  current : m.current.index < m.heap.frames.size

/-- From one machine to a later one, without a class having been made. -/
structure Onward (m m' : Machine) : Prop where
  anchored : m'.Anchored
  grows : m.heap.Grows m'.heap
  globals : m'.globals = m.globals
  classes : m'.heap.classes = m.heap.classes

theorem Onward.refl {m : Machine} (hm : m.Anchored) : m.Onward m := ⟨hm, .refl _, rfl, rfl⟩

theorem Onward.trans {m m' m'' : Machine} (h : m.Onward m') (h' : m'.Onward m'') : m.Onward m'' :=
  ⟨h'.anchored, h.grows.trans h'.grows, h'.globals.trans h.globals, h'.classes.trans h.classes⟩

end Machine

namespace Ledger

open Run

variable {α β : Type}

/-- A step that makes no class. Given frames that exist, it ends with others that do. -/
structure Founded (r : Run α) (given : List FrameId) (out : α → List FrameId) : Prop where
  ends : ∀ m, m.Anchored → m.heap.HasFrames given →
    Ends r m (fun a m' => m.Onward m' ∧ m'.heap.HasFrames (out a)) fun _ m' => m.Onward m'

variable {r : Run α} {given : List FrameId} {out : α → List FrameId}

theorem founded_pure {a : α} (ha : out a ⊆ given) : Founded (pure a) given out :=
  ⟨fun _ hm hgiven => ⟨.refl hm, hgiven.sub ha⟩⟩

theorem founded_stop {stop : Stop} : Founded (throw stop) given out :=
  ⟨fun _ hm _ => .refl hm⟩

theorem Founded.bind {k : α → Run β} {out' : β → List FrameId} (hr : Founded r given out)
    (hk : ∀ a, Founded (k a) (out a ++ given) out') : Founded (r >>= k) given out' := by
  constructor
  intro m hm hgiven
  rw [ends_bind]
  refine (hr.ends m hm hgiven).imp (fun a m' hend => ?_) fun _ _ hend => hend
  obtain ⟨honward, hout⟩ := hend
  refine ((hk a).ends m' honward.anchored (hout.append (hgiven.mono honward.grows))).imp ?_ ?_
  · exact fun b m'' hend => ⟨honward.trans hend.1, hend.2⟩
  · exact fun _ m'' hend => honward.trans hend

theorem founded_ask {f : Machine → α}
    (hf : ∀ m : Machine, m.Anchored → m.heap.HasFrames (out (f m))) : Founded (ask f) given out :=
  ⟨fun m hm _ => ⟨.refl hm, hf m hm⟩⟩

/-- To look at something that refers to no frame. -/
theorem founded_look (f : Machine → α) : Founded (ask f) given fun _ => [] :=
  founded_ask fun _ _ => Heap.hasFrames_nil _

/-- To look at the present frame. -/
theorem founded_current : Founded (ask (·.current)) given fun f => [f] :=
  founded_ask fun _ hm => Heap.hasFrames_singleton hm.current

/-- The frame that a function closes over, if there is a function. -/
def closures (object? : Option FunctionObject) : List FrameId :=
  object?.toList.map FunctionObject.closure

/-- To look for a function. -/
theorem founded_askFunction {f : Machine → Option FunctionId} :
    Founded (ask fun m => (f m).bind m.heap.function?) given closures := by
  refine founded_ask fun m hm => ?_
  cases hobject : (f m).bind m.heap.function? with
  | none => exact Heap.hasFrames_nil _
  | some object =>
    obtain ⟨id, -, hid⟩ := Option.bind_eq_some_iff.mp hobject
    exact Heap.hasFrames_singleton (hm.heap.closures id object hid)

theorem founded_onHeap {f : Heap → α × Heap}
    (hf : ∀ h globals, h.Anchored globals → h.HasFrames given →
      (f h).2.Anchored globals ∧ h.Grows (f h).2 ∧ (f h).2.classes = h.classes ∧
        (f h).2.HasFrames (out (f h).1)) : Founded (onHeap f) given out := by
  constructor
  intro m hm hgiven
  obtain ⟨hanchored, hgrows, hclasses, hout⟩ := hf m.heap m.globals hm.heap hgiven
  exact ⟨⟨⟨hanchored, Nat.lt_of_lt_of_le hm.current hgrows.frames⟩, hgrows, rfl, hclasses⟩, hout⟩

theorem founded_orFail {result : Except RuntimeError α} {span : Span} :
    Founded (orFail result span) given fun _ => [] := by
  cases result with
  | ok a => exact founded_pure (List.nil_subset _)
  | error error => exact founded_stop

theorem founded_orElseFail {result : Option α} {error : RuntimeError} {span : Span}
    (h : ∀ a, result = some a → out a ⊆ given) :
    Founded (orElseFail result error span) given out := by
  cases result with
  | some a => exact founded_pure (h a rfl)
  | none => exact founded_stop

/-- To need something that refers to no frame. -/
theorem founded_need (result : Option α) (error : RuntimeError) (span : Span) :
    Founded (orElseFail result error span) given fun _ => [] :=
  founded_orElseFail fun _ _ => List.nil_subset _

theorem founded_needFunction (object? : Option FunctionObject) (error : RuntimeError)
    (span : Span) : Founded (orElseFail object? error span) (closures object? ++ given)
      fun object => [object.closure] := by
  refine founded_orElseFail ?_
  rintro object rfl
  simp [closures]

theorem founded_define (name : String) (v : Value) : Founded (define name v) given fun _ => [] := by
  constructor
  intro m hm _
  have hgrows := m.heap.grows_define m.current name v
  exact ⟨⟨⟨hm.heap.define m.current name v, Nat.lt_of_lt_of_le hm.current hgrows.frames⟩, hgrows,
    rfl, rfl⟩, Heap.hasFrames_nil _⟩

/-- A new frame is made for one that exists. -/
theorem founded_newFrame {outer : FrameId} (houter : outer ∈ given) (names : Bindings Value) :
    Founded (onHeap (·.newFrame (some outer) names)) given fun f => [f] := by
  refine founded_onHeap fun h globals ha hgiven => ?_
  refine ⟨ha.newFrame (hgiven outer houter) names, h.grows_newFrame _ _, rfl, ?_⟩
  refine Heap.hasFrames_singleton ?_
  rw [Heap.size_newFrame]
  exact Nat.lt_succ_self _

/-- A new function closes over a frame that exists. -/
theorem founded_newFunction {object : FunctionObject} (hobject : object.closure ∈ given) :
    Founded (onHeap (·.newFunction object)) given fun _ => [] := by
  refine founded_onHeap fun h globals ha hgiven => ?_
  have hadded : (h.addFunctions #[object]).Anchored globals :=
    ha.addFunctions (by simpa using hgiven _ hobject)
  exact ⟨hadded, h.grows_addFunctions #[object], rfl, Heap.hasFrames_nil _⟩

theorem founded_newInstance (c : ClassId) :
    Founded (onHeap (·.newInstance c)) given fun _ => [] :=
  founded_onHeap fun h _ ha _ =>
    ⟨ha.of_eq rfl rfl, h.grows_newInstance c, rfl, Heap.hasFrames_nil _⟩

theorem founded_setField (i : InstanceId) (name : String) (v : Value) :
    Founded (onHeap fun h => ((), h.setField i name v)) given fun _ => [] :=
  founded_onHeap fun h _ ha _ =>
    ⟨ha.of_eq rfl rfl, h.grows_setField i name v, rfl, Heap.hasFrames_nil _⟩

theorem founded_bind {method : FunctionObject} (hmethod : method.closure ∈ given) (i : InstanceId) :
    Founded (onHeap (·.bind method i)) given fun bound => [bound.closure] :=
  ⟨(founded_newFrame hmethod (Bindings.empty.insert "this" (.instance_ i))).ends⟩

theorem founded_writeLine (text : String) : Founded (writeLine text) given fun _ => [] := by
  constructor
  intro m hm _
  unfold Ends writeLine
  cases m.sink.writeLine text with
  | mk step sink =>
    cases step with
    | none => exact ⟨⟨⟨hm.heap, hm.current⟩, .refl _, rfl, rfl⟩, Heap.hasFrames_nil _⟩
    | some step => exact ⟨⟨hm.heap, hm.current⟩, .refl _, rfl, rfl⟩

/-- To write the text of a value. -/
theorem founded_print (v : Value) :
    Founded (do writeLine (← ask fun m => m.heap.describe v)) given fun _ => [] :=
  (founded_look _).bind fun text => founded_writeLine text

theorem founded_callNative (n : NativeId) (args : List Value) (paren : Span) :
    Founded (callNative n args paren) given fun _ => [] := by
  constructor
  intro m hm _
  unfold Ends callNative
  cases m.host[n.index]? with
  | none => exact .refl hm
  | some code =>
    dsimp only
    cases code ⟨m.heap, m.clock.reading m.clock.reads⟩ args with
    | error words => exact ⟨⟨hm.heap, hm.current⟩, .refl _, rfl, rfl⟩
    | ok v => exact ⟨⟨⟨hm.heap, hm.current⟩, .refl _, rfl, rfl⟩, Heap.hasFrames_nil _⟩

/-! ## Variables and functions -/

theorem founded_readVariable (id : Nat) (name : String) (span : Span) :
    Founded (Eval.readVariable id name span) given fun _ => [] :=
  (founded_look _).bind fun _ => founded_need ..

theorem founded_writeVariable (target : Reference) (v : Value) :
    Founded (Eval.writeVariable target v) given fun _ => [] := by
  constructor
  intro m hm _
  unfold Ends Eval.writeVariable
  cases m.bindingFrame? target.id target.name.text with
  | none => exact .refl hm
  | some frame =>
    have hgrows := m.heap.grows_define frame target.name.text v
    exact ⟨⟨⟨hm.heap.define frame _ v, Nat.lt_of_lt_of_le hm.current hgrows.frames⟩, hgrows, rfl,
      rfl⟩, Heap.hasFrames_nil _⟩

theorem founded_closure (name : Option String) (fn : Lambda) :
    Founded (Eval.closure name fn) given fun _ => [] :=
  founded_current.bind fun _ => (founded_newFunction List.mem_cons_self).bind fun _ =>
    founded_pure (List.nil_subset _)

/-! ## Properties -/

theorem founded_boundMethod (found : Option FunctionId) (i : InstanceId) (name : Ident) :
    Founded (Eval.boundMethod found i name) given fun _ => [] :=
  founded_askFunction.bind fun _ => (founded_needFunction ..).bind fun _ =>
    (founded_bind List.mem_cons_self i).bind fun _ =>
      (founded_newFunction List.mem_cons_self).bind fun _ => founded_pure (List.nil_subset _)

theorem founded_property (object : Value) (name : Ident) :
    Founded (Eval.property object name) given fun _ => [] := by
  cases object with
  | instance_ i =>
    refine (founded_look _).bind fun v? => ?_
    cases v? with
    | some v => exact founded_pure (List.nil_subset _)
    | none => exact (founded_look _).bind fun found => founded_boundMethod found i name
  | _ => exact founded_stop

theorem founded_fieldOwner (object : Value) (name : Ident) :
    Founded (Eval.fieldOwner object name) given fun _ => [] := by
  cases object with
  | instance_ i => exact founded_pure (List.nil_subset _)
  | _ => exact founded_stop

theorem founded_superClass (hops : Nat) (keyword : Span) :
    Founded (Eval.superClass hops keyword) given fun _ => [] := by
  refine (founded_look _).bind fun found => ?_
  split
  · exact founded_pure (List.nil_subset _)
  · exact founded_stop

theorem founded_superInstance (hops : Nat) (keyword : Span) :
    Founded (Eval.superInstance hops keyword) given fun _ => [] := by
  refine (founded_look _).bind fun found => ?_
  split
  · exact founded_pure (List.nil_subset _)
  · exact founded_stop

theorem founded_superMethod (id : Nat) (keyword : Span) (method : Ident) :
    Founded (Eval.superMethod id keyword method) given fun _ => [] :=
  (founded_look _).bind fun _ => (founded_need ..).bind fun hops =>
    (founded_superClass hops keyword).bind fun _ =>
      (founded_superInstance hops keyword).bind fun i =>
        (founded_look _).bind fun found => founded_boundMethod found i method

/-! ## Calls -/

theorem founded_checkCall (callee : Value) (count : Nat) (paren : Span) :
    Founded (Eval.checkCall callee count paren) given fun _ => [] := by
  refine (founded_look _).bind fun _ => (founded_need ..).bind fun arity => ?_
  split
  · exact founded_stop
  · refine (founded_look _).bind fun depth => ?_
    split
    · exact founded_stop
    · exact founded_pure (List.nil_subset _)

theorem founded_callResult (f : FunctionObject) (flow : Flow) :
    Founded (Eval.callResult f flow) given fun _ => [] := by
  unfold Eval.callResult
  split
  · exact (founded_look _).bind fun _ => founded_need ..
  · cases flow <;> exact founded_pure (List.nil_subset _)

/-- The frame that methods close over exists. -/
theorem founded_methodFrame (parent : Option ClassId) :
    Founded (Eval.methodFrame parent) given fun f => [f] := by
  refine founded_current.bind fun frame => ?_
  cases parent with
  | none => exact founded_pure (by simp)
  | some c => exact founded_newFrame List.mem_cons_self _

end Ledger
end Lox
