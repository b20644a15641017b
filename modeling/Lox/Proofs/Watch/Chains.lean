import Lox.Proofs.Heap.Growth
import Lox.Proofs.Scope.Addressed

/-! # Scopes and chains of frames

The scopes around a place of the program and the frames around the present one
lie in the same order. A name that a scope declares is bound in the frame of the
scope, unless it is that of a variable whose initializer is being evaluated. -/

namespace Lox.Watch

/-- The frames from one outwards are those of the scopes, and then that of the global names. -/
def Linked (h : Heap) (globals : FrameId) : FrameId → List Rib → Prop
  | f, [] => f = globals
  | f, rib :: ribs =>
    f = rib.frame ∧ ∃ outer, h.enclosing? f = some outer ∧ Linked h globals outer ribs

/-- Where scopes declare a name, its frame binds it or its declaration is being executed. -/
def ReadyFor (h : Heap) (ribs : List Rib) (name : String) : Prop :=
  ∀ rib ∈ ribs, name ∈ rib.names → h.binds rib.frame name = true ∨ rib.pending = some name

/-- The chain of frames from one outwards mirrors the scopes. -/
structure Chain (h : Heap) (globals f : FrameId) (ribs : List Rib) : Prop where
  linked : Linked h globals f ribs
  ready : ∀ name, ReadyFor h ribs name

/-- The names that the scopes declare. -/
def namesOf (ribs : List Rib) : List (List String) := ribs.map Rib.names

/-- No declaration of the innermost scope is being executed. -/
def Scene.Calm (here : Scene) : Prop := ∀ rib ∈ here.ribs.head?, rib.pending = none

variable {h h' : Heap} {globals f : FrameId} {ribs : List Rib} {name : String}

/-! ## Chains -/

theorem Linked.mono (hg : h.Grows h') (hl : Linked h globals f ribs) :
    Linked h' globals f ribs := by
  induction ribs generalizing f with
  | nil => exact hl
  | cons rib ribs ih =>
    obtain ⟨hframe, outer, houter, hl⟩ := hl
    exact ⟨hframe, outer, hg.enclosing f outer houter, ih hl⟩

/-- As many frames further out as a scope is away lies the frame of the scope. -/
theorem Linked.ancestor {hops : Nat} {rib : Rib} (hl : Linked h globals f ribs)
    (hrib : ribs[hops]? = some rib) : h.ancestor? f hops = some rib.frame := by
  induction ribs generalizing f hops with
  | nil => cases hrib
  | cons first ribs ih =>
    obtain ⟨hframe, outer, houter, hl⟩ := hl
    cases hops with
    | zero =>
      obtain rfl := Option.some.inj hrib
      rw [hframe]
      rfl
    | succ hops =>
      rw [List.getElem?_cons_succ] at hrib
      show (h.enclosing? f).bind (fun outer => h.ancestor? outer hops) = some rib.frame
      rw [houter]
      exact ih hl hrib

theorem Linked.exists (hglobals : globals.index < h.frames.size) (hl : Linked h globals f ribs) :
    f.index < h.frames.size := by
  cases ribs with
  | nil =>
    obtain rfl : f = globals := hl
    exact hglobals
  | cons rib ribs =>
    obtain ⟨-, outer, houter, -⟩ := hl
    exact Heap.index_lt_of_enclosing houter

theorem ReadyFor.mono (hg : h.Grows h') (hr : ReadyFor h ribs name) : ReadyFor h' ribs name := by
  intro rib hrib hname
  rcases hr rib hrib hname with hbound | hpending
  · exact .inl (hg.binds _ _ hbound)
  · exact .inr hpending

theorem Chain.mono (hg : h.Grows h') (hc : Chain h globals f ribs) : Chain h' globals f ribs :=
  ⟨hc.linked.mono hg, fun name => (hc.ready name).mono hg⟩

theorem chain_globals (h : Heap) (globals : FrameId) : Chain h globals globals [] where
  linked := rfl
  ready _ rib hrib := by cases hrib

/-- A scope is entered in a frame of its own, which binds its names. -/
theorem Chain.enter {outer : FrameId} (hc : Chain h globals outer ribs) (rib : Rib)
    (hf : h.enclosing? rib.frame = some outer)
    (hnames : ∀ name ∈ rib.names, h.binds rib.frame name = true) :
    Chain h globals rib.frame (rib :: ribs) where
  linked := ⟨rfl, outer, hf, hc.linked⟩
  ready name other hother hname := by
    rcases List.mem_cons.mp hother with rfl | hmem
    · exact .inl (hnames name hname)
    · exact hc.ready name other hmem hname

/-! ## Declarations -/

variable {here : Scene}

theorem linked_declare (hl : Linked h globals f here.ribs) (name : String) :
    Linked h globals f (here.declare name).ribs := by
  unfold Scene.declare
  split
  · exact hl
  · next rib outer hribs =>
    rw [hribs] at hl
    exact hl

theorem linked_initializing (hl : Linked h globals f here.ribs) (name : String) :
    Linked h globals f (here.initializing name).ribs := by
  unfold Scene.initializing
  split
  · exact hl
  · next rib outer hribs =>
    rw [hribs] at hl
    exact hl

/-- A declaration does not concern other names. -/
theorem readyFor_declare {other : String} (hr : ReadyFor h here.ribs other) (hne : other ≠ name) :
    ReadyFor h (here.declare name).ribs other := by
  unfold Scene.declare
  split
  · exact hr
  · next rib outer hribs =>
    rw [hribs] at hr
    intro r hmem hother
    rcases List.mem_cons.mp hmem with rfl | hmem
    · have hold : other ∈ rib.names := by
        rcases List.mem_cons.mp hother with heq | hold
        · exact absurd heq hne
        · exact hold
      exact hr rib List.mem_cons_self hold
    · exact hr r (List.mem_cons_of_mem _ hmem) hother

/-- A name may be declared that the present frame binds. -/
theorem Chain.declare (hc : Chain h globals f here.ribs) (hbound : h.binds f name = true) :
    Chain h globals f (here.declare name).ribs := by
  refine ⟨linked_declare hc.linked name, fun other => ?_⟩
  by_cases hne : other = name
  · subst hne
    have hl := hc.linked
    have hr := hc.ready other
    unfold Scene.declare
    split
    · exact hr
    · next rib outer hribs =>
      rw [hribs] at hl hr
      intro r hmem hother
      rcases List.mem_cons.mp hmem with rfl | hmem
      · left
        show h.binds rib.frame other = true
        rw [← hl.1]
        exact hbound
      · exact hr r (List.mem_cons_of_mem _ hmem) hother
  · exact readyFor_declare (hc.ready other) hne

/-- In its initializer a variable is declared, though nothing binds it yet. -/
theorem Chain.initializing (hc : Chain h globals f here.ribs) (hcalm : here.Calm)
    (name : String) : Chain h globals f (here.initializing name).ribs := by
  refine ⟨linked_initializing hc.linked name, fun other => ?_⟩
  have hr := hc.ready other
  unfold Scene.Calm at hcalm
  unfold Scene.initializing
  split
  · exact hr
  · next rib outer hribs =>
    rw [hribs] at hr hcalm
    intro r hmem hother
    rcases List.mem_cons.mp hmem with rfl | hmem
    · rcases List.mem_cons.mp hother with rfl | hold
      · exact .inr rfl
      · rcases hr rib List.mem_cons_self hold with hbound | hpending
        · exact .inl hbound
        · rw [hcalm rib rfl] at hpending
          cases hpending
    · exact hr r (List.mem_cons_of_mem _ hmem) hother

theorem Scene.Calm.declare (hcalm : here.Calm) (name : String) : (here.declare name).Calm := by
  unfold Scene.declare
  split
  · exact hcalm
  · next rib outer hribs =>
    intro r hr
    obtain rfl := Option.some.inj hr
    exact hcalm rib (by rw [hribs]; rfl)

theorem Scene.Calm.after (hcalm : here.Calm) (s : Stmt) : (here.after s).Calm := by
  unfold Scene.after
  split
  · exact hcalm.declare _
  · exact hcalm

theorem Scene.calm_enter {rib : Rib} (hrib : rib.pending = none) : (here.enter rib).Calm := by
  intro r hr
  obtain rfl := Option.some.inj hr
  exact hrib

theorem namesOf_declare (here : Scene) (name : String) :
    namesOf (here.declare name).ribs = Scope.declareIn name (namesOf here.ribs) := by
  unfold Scene.declare
  split
  · next hribs =>
    rw [hribs]
    rfl
  · next hribs =>
    rw [hribs]
    rfl

theorem namesOf_initializing (here : Scene) (name : String) :
    namesOf (here.initializing name).ribs = Scope.declareIn name (namesOf here.ribs) := by
  unfold Scene.initializing
  split
  · next hribs =>
    rw [hribs]
    rfl
  · next hribs =>
    rw [hribs]
    rfl

theorem namesOf_after (here : Scene) (s : Stmt) :
    namesOf (here.after s).ribs = Scope.after (namesOf here.ribs) s := by
  unfold Scene.after Scope.after
  cases declared? s with
  | none => rfl
  | some name => exact namesOf_declare here name

/-! ## Uses of names -/

/-- From a point, the recorded distance leads to the frame of the innermost scope that
declares a name. Nothing is bound there only as long as the initializer of the declaration has not
been completed. -/
structure Point.LeadsTo (p : Point) (id : Nat) (name : String) (hops : Nat) (rib : Rib) :
    Prop where
  place : p.scene.ribs[hops]? = some rib
  declares : name ∈ rib.names
  nearest : ∀ nearer ∈ p.scene.ribs.take hops, name ∉ nearer.names
  frame : p.machine.heap.ancestor? p.machine.current hops = some rib.frame
  undefined : p.machine.bindingFrame? id name = none →
    rib.pending = some name ∧ (rib.frame, name) ∉ p.completed

/-- What is recorded for the node of a use is what its scopes say. -/
def Point.Right (p : Point) : Prop :=
  ∀ id name, p.event = .use id name →
    match p.machine.resolutions.find? id with
    | some hops => ∃ rib, p.LeadsTo id name hops rib
    | none => ∀ rib ∈ p.scene.ribs, name ∉ rib.names

theorem level_some {hops : Nat} (hlevel : Scope.level (namesOf ribs) name = some hops) :
    ∃ rib, ribs[hops]? = some rib ∧ name ∈ rib.names ∧
      ∀ nearer ∈ ribs.take hops, name ∉ nearer.names := by
  unfold Scope.level namesOf at hlevel
  obtain ⟨hlt, hfound, hnearer⟩ := List.findIdx?_eq_some_iff_getElem.mp hlevel
  rw [List.length_map] at hlt
  refine ⟨ribs[hops], List.getElem?_eq_getElem hlt, ?_, ?_⟩
  · rw [List.getElem_map] at hfound
    simpa using hfound
  · intro nearer hmem
    obtain ⟨i, hi, rfl⟩ := List.mem_take_iff_getElem.mp hmem
    have hi' := hnearer i (by omega)
    rw [List.getElem_map] at hi'
    simpa using hi'

theorem level_none (hlevel : Scope.level (namesOf ribs) name = none) :
    ∀ rib ∈ ribs, name ∉ rib.names := by
  intro rib hrib
  unfold Scope.level namesOf at hlevel
  have hall := List.findIdx?_eq_none_iff.mp hlevel rib.names (List.mem_map_of_mem hrib)
  simpa using hall

/-- Where the scopes are mirrored by frames, a use whose record is right leads to its
declaration. -/
theorem right_use {p : Point} {id : Nat} (hevent : p.event = .use id name)
    (hlinked : Linked p.machine.heap p.machine.globals p.machine.current p.scene.ribs)
    (hready : ReadyFor p.machine.heap p.scene.ribs name)
    (hcompleted : ∀ b ∈ p.completed, p.machine.heap.binds b.1 b.2 = true)
    (hfound : p.machine.resolutions.find? id = Scope.level (namesOf p.scene.ribs) name) :
    p.Right := by
  intro id' name' hevent'
  obtain ⟨rfl, rfl⟩ := Event.use.inj (hevent.symm.trans hevent')
  cases hlevel : Scope.level (namesOf p.scene.ribs) name with
  | none =>
    rw [hfound, hlevel]
    exact level_none hlevel
  | some hops =>
    rw [hlevel] at hfound
    rw [hfound]
    obtain ⟨rib, hplace, hdeclares, hnearest⟩ := level_some hlevel
    have hframe := hlinked.ancestor hplace
    refine ⟨rib, hplace, hdeclares, hnearest, hframe, fun hundefined => ?_⟩
    have hunbound : p.machine.heap.binds rib.frame name = false := by
      unfold Machine.bindingFrame? Machine.frameOf? at hundefined
      rw [hfound] at hundefined
      dsimp only at hundefined
      rw [hframe] at hundefined
      simpa [Option.filter] using hundefined
    constructor
    · rcases hready rib (List.mem_of_getElem? hplace) hdeclares with hbound | hpending
      · rw [hunbound] at hbound
        cases hbound
      · exact hpending
    · intro hdone
      have hbound := hcompleted _ hdone
      rw [hunbound] at hbound
      cases hbound

end Lox.Watch
