import Lox.Proofs.Eval.Bodies
import Lox.Proofs.Ledger.Eval
import Lox.Proofs.Ledger.Frames
import Lox.Proofs.Ledger.Heaps

/-! # Where classes come from

A class statement looks its superclass up before it binds a name, so the new class is
below one that was there. It is the only step that makes a class, and nothing changes
one: every class is still what its statement has made it. -/

namespace Lox

namespace Machine

/-- What a class statement names as its superclass: the class that the variable holds. -/
structure Names (m : Machine) (superclass : Option Reference) (parent : Option ClassId) : Prop where
  root : superclass = none → parent = none
  below : ∀ target, superclass = some target → ∃ c,
    m.readVariable target.id target.name.text = some (.class_ c) ∧ parent = some c

/-- A class that a statement makes on a machine, as it stands in a later heap. -/
structure Brings (m : Machine) (superclass : Option Reference) (methods : List Method)
    (c : ClassId) (h : Heap) : Prop where
  /-- It comes next to all that are there. -/
  newest : c.index = m.heap.classes.size
  made : c.index < h.classes.size
  /-- Its superclass is what the variable holds as the statement begins. -/
  above : m.Names superclass (h.superclass? c)
  /-- Its methods are those that are written last. -/
  written : ∀ name method, Method.lastNamed name methods = some method → ∃ f frame,
    h.ownMethod? c name = some f ∧
      h.function? f = some ⟨some name, method.fn, frame, name = initializerName⟩
  unwritten : ∀ name, Method.lastNamed name methods = none → h.ownMethod? c name = none

/-- A class statement that finishes on a machine has made a class, which stands so in a later heap. -/
def Makes (m : Machine) (c : ClassId) (h : Heap) : Prop :=
  ∃ name superclass methods m', Eval.declareClass name superclass methods m = .ok () m' ∧
    m.Brings superclass methods c h

/-- From one machine to a later one. -/
structure Later (m m' : Machine) : Prop where
  anchored : m'.Anchored
  grows : m.heap.Grows m'.heap
  globals : m'.globals = m.globals
  classes : m.heap.classes.toList <+: m'.heap.classes.toList

/-- A class statement has made a class and bound its name. -/
structure Declared (m : Machine) (name : Ident) (superclass : Option Reference)
    (methods : List Method) (m' : Machine) : Prop where
  later : m.Later m'
  one : m'.heap.classes.size = m.heap.classes.size + 1
  brings : m.Brings superclass methods ⟨m.heap.classes.size⟩ m'.heap
  bound : m'.heap.get? m'.current name.text = some (.class_ ⟨m.heap.classes.size⟩)

variable {m m' m'' : Machine} {superclass : Option Reference} {methods : List Method} {c : ClassId}
  {h h' : Heap}

theorem Later.refl (hm : m.Anchored) : m.Later m := ⟨hm, .refl _, rfl, List.prefix_rfl⟩

theorem Later.trans (h : m.Later m') (h' : m'.Later m'') : m.Later m'' :=
  ⟨h'.anchored, h.grows.trans h'.grows, h'.globals.trans h.globals, h.classes.trans h'.classes⟩

theorem Onward.later (h : m.Onward m') : m.Later m' :=
  ⟨h.anchored, h.grows, h.globals, h.classes ▸ List.prefix_rfl⟩

/-- Nothing changes a class. -/
theorem Brings.mono (hb : m.Brings superclass methods c h) (hg : h.Grows h')
    (hclasses : h.classes.toList <+: h'.classes.toList) : m.Brings superclass methods c h' where
  newest := hb.newest
  made := Nat.lt_of_lt_of_le hb.made hclasses.length_le
  above := Heap.superclass?_of_more hclasses hb.made ▸ hb.above
  written name method hlast := by
    obtain ⟨f, frame, hown, hobject⟩ := hb.written name method hlast
    exact ⟨f, frame, (Heap.ownMethod?_of_more hclasses hb.made).trans hown,
      hg.functions f _ hobject⟩
  unwritten name hnone := (Heap.ownMethod?_of_more hclasses hb.made).trans (hb.unwritten name hnone)

end Machine

/-! ## The heap with a new class -/

namespace Heap

variable {h : Heap} {parent : Option ClassId} {frame : FrameId} {methods : List Method}

/-- The heap in which the methods of a class have been made, and then the class. -/
def withClass (h : Heap) (name : String) (parent : Option ClassId) (frame : FrameId)
    (methods : List Method) : Heap :=
  ((h.addFunctions (Eval.methodObjects frame methods)).newClass
    ⟨name, parent, (Eval.methodTable frame methods .empty h).1⟩).2

theorem grows_withClass (h : Heap) (name : String) :
    h.Grows (h.withClass name parent frame methods) :=
  (h.grows_addFunctions _).trans (grows_newClass ..)

theorem prefix_withClass (h : Heap) (name : String) :
    h.classes.toList <+: (h.withClass name parent frame methods).classes.toList :=
  ((h.extends_addFunctions _).trans (extends_newClass ..)).classes

theorem size_withClass (h : Heap) (name : String) :
    (h.withClass name parent frame methods).classes.size = h.classes.size + 1 := Array.size_push _

theorem Anchored.withClass {globals : FrameId} (ha : h.Anchored globals)
    (hframe : frame.index < h.frames.size) (name : String) :
    (h.withClass name parent frame methods).Anchored globals := by
  refine (ha.addFunctions fun object hobject => ?_).of_eq rfl rfl
  obtain ⟨method, -, rfl⟩ := List.mem_map.mp (List.mem_toArray.mp hobject)
  exact hframe

theorem brings_withClass {m : Machine} (hclasses : h.classes = m.heap.classes) (name : String)
    {superclass : Option Reference} (hparent : m.Names superclass parent) :
    m.Brings superclass methods ⟨m.heap.classes.size⟩ (h.withClass name parent frame methods) := by
  rw [← hclasses]
  have habove : (h.withClass name parent frame methods).superclass? ⟨h.classes.size⟩ = parent :=
    (superclass?_newClass ..).trans (if_pos rfl)
  have hown (other : String) :
      (h.withClass name parent frame methods).ownMethod? ⟨h.classes.size⟩ other =
        (Eval.methodTable frame methods .empty h).1.get? other :=
    (ownMethod?_newClass ..).trans (if_pos rfl)
  refine ⟨congrArg Array.size hclasses, size_withClass h name ▸ Nat.lt_succ_self _,
    habove.symm ▸ hparent, fun other method hlast => ?_, fun other hnone => ?_⟩
  · obtain ⟨f, hf, hobject⟩ :=
      (Eval.methodTable_lastNamed frame other methods .empty h).1 method hlast
    rw [Eval.heap_methodTable] at hobject
    exact ⟨f, frame, (hown other).trans hf, hobject⟩
  · exact (hown other).trans ((Eval.methodTable_lastNamed frame other methods .empty h).2 hnone)

end Heap

/-! ## Class statements -/

namespace Ledger

open Run

variable {m : Machine}

/-- The superclass is looked up first. -/
theorem ends_superclassOf (superclass : Option Reference) (m : Machine) :
    Ends (Eval.superclassOf superclass) m (fun parent m' => m' = m ∧ m.Names superclass parent)
      fun _ m' => m' = m := by
  cases superclass with
  | none => exact ⟨rfl, fun _ => rfl, fun target htarget => by cases htarget⟩
  | some target =>
    unfold Eval.superclassOf Eval.readVariable
    simp only [ends_bind]
    show Ends (orElseFail (m.readVariable target.id target.name.text) _ _) m _ _
    cases hread : m.readVariable target.id target.name.text with
    | none => rfl
    | some v =>
      cases v with
      | class_ c =>
        refine ⟨rfl, ⟨fun hnone => (by cases hnone), fun other hother => ?_⟩⟩
        obtain rfl := Option.some.inj hother
        exact ⟨c, hread, rfl⟩
      | _ => rfl

/-- Then a frame for the methods may be made, and the methods, the class and its name follow. -/
theorem ends_declareClass (hm : m.Anchored) (name : Ident) (superclass : Option Reference)
    (methods : List Method) :
    Ends (Eval.declareClass name superclass methods) m
      (fun _ m' => m.Declared name superclass methods m') fun _ m' => m.Onward m' := by
  unfold Eval.declareClass
  rw [ends_bind]
  refine (ends_superclassOf superclass m).imp ?_ fun _ m' hsame => hsame.symm ▸ .refl hm
  rintro parent m' ⟨rfl, hparent⟩
  -- What comes before the class may make a frame, but no class.
  have hframe : Founded (define name.text .nil >>= fun _ => Eval.methodFrame parent) []
      fun f => [f] :=
    (founded_define ..).bind fun _ => founded_methodFrame parent
  show Ends ((define name.text .nil >>= fun _ => Eval.methodFrame parent) >>= fun frame => _) m' _ _
  rw [ends_bind]
  refine (hframe.ends m' hm (Heap.hasFrames_nil _)).imp ?_ fun _ _ hend => hend
  rintro frame m₁ ⟨honward, hthere⟩
  let made := m₁.heap.withClass name.text parent frame methods
  let value : Value := .class_ ⟨m₁.heap.classes.size⟩
  have hresult : (do
      let table ← onHeap (Eval.methodTable frame methods .empty)
      let id ← onHeap (·.newClass ⟨name.text, parent, table⟩)
      define name.text (.class_ id)) m₁ =
        .ok () { m₁ with heap := made.define m₁.current name.text value } := by
    show EStateM.Result.ok () ({ m₁ with heap := _ } : Machine) = _
    rw [Eval.heap_methodTable]
    rfl
  have hmade : m₁.heap.Grows made := m₁.heap.grows_withClass name.text
  have hdefined := made.grows_define m₁.current name.text value
  have hcurrent : m₁.current.index < made.frames.size :=
    Nat.lt_of_lt_of_le honward.anchored.current hmade.frames
  unfold Ends
  rw [hresult]
  refine ⟨⟨⟨?_, Nat.lt_of_lt_of_le hcurrent hdefined.frames⟩,
    honward.grows.trans (hmade.trans hdefined), honward.globals, ?_⟩, ?_, ?_, ?_⟩
  · have hheap : made.Anchored m₁.globals :=
      honward.anchored.heap.withClass (hthere frame List.mem_cons_self) name.text
    exact hheap.define m₁.current name.text value
  · rw [← honward.classes]
    exact m₁.heap.prefix_withClass name.text
  · rw [← honward.classes]
    exact m₁.heap.size_withClass name.text
  · exact (Heap.brings_withClass honward.classes name.text hparent).mono hdefined List.prefix_rfl
  · rw [← honward.classes]
    exact (Heap.get?_define ..).trans (if_pos ⟨rfl, rfl, hcurrent⟩)

/-! ## Descent -/

/-- How one machine has come from another one, by what is booked: a class is made at a moment only,
and by a class statement. -/
inductive Descent : Machine → List Entry → Machine → Prop where
  | rest (m : Machine) : Descent m [] m
  | onward {m m₁ m' : Machine} {entries : List Entry} (onward : m.Onward m₁)
      (rest : Descent m₁ entries m') : Descent m entries m'
  | moment {m m' : Machine} {entries : List Entry} (rest : Descent m entries m') :
      Descent m (.moment m :: entries) m'
  | set {m m' : Machine} {entries : List Entry} (i : InstanceId) (name : String) (v : Value)
      (rest : Descent m entries m') : Descent m (.set i name v :: entries) m'
  | declared {m m₁ m' : Machine} {entries : List Entry} {name : Ident}
      {superclass : Option Reference} {methods : List Method}
      (declares : Eval.declareClass name superclass methods m = .ok () m₁)
      (rest : Descent m₁ entries m') : Descent m (.moment m :: entries) m'

namespace Descent

variable {m₁ m' m'' : Machine} {entries entries' : List Entry} {c : ClassId}

theorem append (hfirst : Descent m entries m') (hrest : Descent m' entries' m'') :
    Descent m (entries ++ entries') m'' := by
  induction hfirst with
  | rest => exact hrest
  | onward honward _ ih => exact .onward honward (ih hrest)
  | moment _ ih => exact .moment (ih hrest)
  | set i name v _ ih => exact .set i name v (ih hrest)
  | declared hdeclares _ ih => exact .declared hdeclares (ih hrest)

/-- What comes before a moment, and what comes from it on. -/
theorem split (hall : Descent m (entries ++ .moment m₁ :: entries') m') :
    Descent m entries m₁ ∧ Descent m₁ (.moment m₁ :: entries') m' := by
  generalize hbooked : entries ++ .moment m₁ :: entries' = booked at hall
  induction hall generalizing entries with
  | rest => cases List.append_ne_nil_of_right_ne_nil entries (List.cons_ne_nil _ _) hbooked
  | onward honward _ ih =>
    obtain ⟨hbefore, hat⟩ := ih hbooked
    exact ⟨.onward honward hbefore, hat⟩
  | moment hrest ih =>
    cases entries with
    | nil =>
      obtain ⟨hm, rfl⟩ := List.cons.inj hbooked
      obtain rfl := Entry.moment.inj hm
      exact ⟨.rest _, .moment hrest⟩
    | cons entry entries =>
      obtain ⟨rfl, hlater⟩ := List.cons.inj hbooked
      obtain ⟨hbefore, hat⟩ := ih hlater
      exact ⟨.moment hbefore, hat⟩
  | set i name v _ ih =>
    cases entries with
    | nil => cases (List.cons.inj hbooked).1
    | cons entry entries =>
      obtain ⟨rfl, hlater⟩ := List.cons.inj hbooked
      obtain ⟨hbefore, hat⟩ := ih hlater
      exact ⟨.set i name v hbefore, hat⟩
  | declared hdeclares hrest ih =>
    cases entries with
    | nil =>
      obtain ⟨hm, rfl⟩ := List.cons.inj hbooked
      obtain rfl := Entry.moment.inj hm
      exact ⟨.rest _, .declared hdeclares hrest⟩
    | cons entry entries =>
      obtain ⟨rfl, hlater⟩ := List.cons.inj hbooked
      obtain ⟨hbefore, hat⟩ := ih hlater
      exact ⟨.declared hdeclares hbefore, hat⟩

theorem later (hdescent : Descent m entries m') (hm : m.Anchored) : m.Later m' := by
  induction hdescent with
  | rest => exact .refl hm
  | onward honward _ ih => exact honward.later.trans (ih honward.anchored)
  | moment _ ih => exact ih hm
  | set _ _ _ _ ih => exact ih hm
  | declared hdeclares _ ih =>
    have hdeclared := (ends_declareClass hm _ _ _).of_ok hdeclares
    exact hdeclared.later.trans (ih hdeclared.later.anchored)

/-- A class that has come to be was made by a class statement at a moment, and is what that
statement has made it. -/
theorem origin (hdescent : Descent m entries m') (hm : m.Anchored)
    (hnew : m.heap.classes.size ≤ c.index) (hc : c.index < m'.heap.classes.size) :
    ∃ before m₀ after, entries = before ++ .moment m₀ :: after ∧ m₀.Makes c m'.heap := by
  induction hdescent with
  | rest => exact absurd hc (Nat.not_lt_of_le hnew)
  | onward honward _ ih => exact ih honward.anchored (honward.classes ▸ hnew) hc
  | moment _ ih | set _ _ _ _ ih =>
    obtain ⟨before, m₀, after, rfl, hmakes⟩ := ih hm hnew hc
    exact ⟨_ :: before, m₀, after, rfl, hmakes⟩
  | @declared m m₁ _ _ name superclass methods hdeclares hrest ih =>
    have hdeclared := (ends_declareClass hm _ _ _).of_ok hdeclares
    have hlater := hrest.later hdeclared.later.anchored
    -- It is the class that this statement has made, or one that has come to be after it.
    rcases Nat.eq_or_lt_of_le hnew with heq | hlt
    · obtain rfl : c = ⟨m.heap.classes.size⟩ := congrArg ClassId.mk heq.symm
      exact ⟨[], m, _, rfl, name, superclass, methods, m₁, hdeclares,
        hdeclared.brings.mono hlater.grows hlater.classes⟩
    · obtain ⟨before, m₀, after, rfl, hmakes⟩ :=
        ih hdeclared.later.anchored (hdeclared.one ▸ hlt) hc
      exact ⟨_ :: before, m₀, after, rfl, hmakes⟩

end Descent
end Ledger
end Lox
