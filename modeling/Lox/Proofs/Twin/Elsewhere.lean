import Lox.Proofs.Scope.Elsewhere
import Lox.Proofs.Twin.Mirror
import Lox.Proofs.Twin.Respanned

/-! # Texts that stand elsewhere

A machine holds functions of several texts. When the texts stand elsewhere, each
moved in a way of its own, everything happens as before: programs see of a text
neither its spans nor its numbers, and spans come back in errors only. -/

namespace Lox

/-- Texts, each with the numbers that its nodes can have, and with the way in which its spans
are moved. -/
structure Texts (Text : Type) where
  holds : Text → Nat → Prop
  shift : Text → Span → Span

namespace Texts

open Twin

variable {Text : Type} (T : Texts Text)

/-- A function of one of the texts, before and after they are moved. -/
def Moved (fn fn' : Lambda) : Prop :=
  ∃ p, fn' = Respan.lambda (T.shift p) fn ∧ AllKnown (T.holds p) (Nodes.lambda [] fn)

/-- A function object, before and after the texts are moved. -/
structure MovedObject (o o' : FunctionObject) : Prop where
  name : o'.name = o.name
  fn : T.Moved o.fn o'.fn
  closure : o'.closure = o.closure
  isInitializer : o'.isInitializer = o.isInitializer

/-- A heap, before and after the texts are moved. -/
structure MovedHeap (h h' : Heap) : Prop where
  frames : h'.frames = h.frames
  functions : ∀ f, Option.Rel T.MovedObject (h.function? f) (h'.function? f)
  classes : h'.classes = h.classes
  instances : h'.instances = h.instances
  natives : h'.natives = h.natives

/-- A machine, before and after the texts are moved. -/
structure MovedMachine (m m' : Machine) : Prop where
  heap : T.MovedHeap m.heap m'.heap
  globals : m'.globals = m.globals
  current : m'.current = m.current
  callDepth : m'.callDepth = m.callDepth
  sink : m'.sink = m.sink
  clock : m'.clock = m.clock
  host : m'.host = m.host

/-- An error in one of the texts, before and after they are moved. -/
def MovedError (d d' : Diagnostic) : Prop := ∃ p, d' = d.respan (T.shift p)

/-! ## The setting -/

/-- A text is kindred to itself where it stands elsewhere. -/
def kinship : Kinship where
  Place := Text
  inside p q := q = p
  span p span span' := span' = T.shift p span
  use p id id' name name' := id' = id ∧ name' = name ∧ T.holds p id
  declare _ name name' := name' = name

variable {T}

theorem kinship_mirrors (p : Text) :
    T.kinship.Mirrors (fun q : Text => q = p) (T.holds p) (T.shift p) where
  inside q hq := ⟨q, rfl, hq⟩
  span q span hq := by
    obtain rfl := hq
    rfl
  use q id name hq hid := by
    obtain rfl := hq
    exact ⟨rfl, rfl, hid⟩
  declare _ _ _ := rfl

theorem kinship_settles (p : Text) :
    T.kinship.Settles (fun q : Text => q = p) (T.holds p) (T.shift p) where
  inside q r hq hinside := hinside.trans hq
  span q span span' hq hspan := by
    obtain rfl := hq
    exact hspan
  use q id id' name name' hq huse := by
    obtain rfl := hq
    exact huse
  declare _ _ _ _ hname := hname

/-- Functions of the texts are those that are kindred. -/
theorem moved_iff {fn fn' : Lambda} : T.Moved fn fn' ↔ ∃ p, KinLambda T.kinship p fn fn' := by
  constructor
  · rintro ⟨p, rfl, hk⟩
    exact ⟨p, kin_lambda_respan (kinship_mirrors p) fn rfl hk⟩
  · rintro ⟨p, hkin⟩
    exact ⟨p, respan_of_kin_lambda (kinship_settles p) fn rfl hkin⟩

/-- Where a name stands does not depend on the texts. -/
theorem matched_of_frames {h h' : Heap} (hf : h'.frames = h.frames) (hops? : Option Nat)
    (f globals : FrameId) (name : String) : Matched (fun k k' : Heap => k'.frames = k.frames) h h'
      name name (h.frameFor? hops? f globals) (h'.frameFor? hops? f globals) := by
  have hsame : h'.frameFor? hops? f globals = h.frameFor? hops? f globals := by
    cases hops? with
    | none => rfl
    | some hops => exact Heap.ancestor?_of_frames hf f hops
  rw [hsame]
  cases h.frameFor? hops? f globals with
  | none => exact .none
  | some g => exact .some (Heap.get?_of_frames hf g name) fun v => Heap.frames_define hf g name v

variable (T)

/-- The setting of two machines with the same frames, when the same is recorded for the nodes of
the texts. -/
def setting (globals : FrameId) (R R' : Resolutions)
    (hR : ∀ p id, T.holds p id → R'.find? id = R.find? id) : Setting where
  toKinship := T.kinship
  globals := globals
  globals' := globals
  known := R
  known' := R'
  Frames s h h' := h'.frames = h.frames ∧ ∀ f f' p, s f f' p → f' = f
  distinct _ := fun h h' => by rw [show _ = _ from h, show _ = _ from h']
  keyword _ _ := rfl
  congr hf hk hk' := ⟨hk'.trans (hf.1.trans hk.symm), hf.2⟩
  get {_ _ _ f f' p _ _} hf hs hname := by
    obtain rfl := hf.2 f f' p hs
    obtain rfl := show _ = _ from hname
    exact Heap.get?_of_frames hf.1 _ _
  define {_ _ _ f f' p _ _} v hf hs hname := by
    obtain rfl := hf.2 f f' p hs
    obtain rfl := show _ = _ from hname
    exact ⟨Heap.frames_define hf.1 _ _ v, hf.2⟩
  enter {_ h h' f f' p _ _ _} hf hs _ hnames := by
    obtain rfl := hf.2 f f' p hs
    rw [hnames.eq fun _ _ h => h]
    refine ⟨Heap.frames_newFrame hf.1 _ _, fun g g' q hg => ?_⟩
    rcases hg with hg | ⟨rfl, rfl, -⟩
    · exact hf.2 g g' q hg
    · rw [hf.1]
  locate {_ _ _ f f' p _ id _ _} hf hs huse := by
    obtain rfl := hf.2 f f' p hs
    obtain ⟨rfl, rfl, hid⟩ := huse
    rw [hR p id hid]
    exact (matched_of_frames hf.1 _ _ globals _).imp fun _ _ h => ⟨h, hf.2⟩
  super {_ _ _ f f' p _ id} hf hs huse := by
    obtain rfl := hf.2 f f' p hs
    obtain ⟨rfl, -, hid⟩ := huse
    rw [hR p id hid]
    exact seesSuper_of_frames hf.1 _ _

/-- All frames stand in all texts, and all functions are values and methods. -/
def everywhere : World Text := ⟨fun f f' _ => f' = f, fun _ => True, fun _ => True⟩

variable {T} {globals : FrameId} {R R' : Resolutions}
  {hR : ∀ p id, T.holds p id → R'.find? id = R.find? id}

theorem open_everywhere : (T.setting globals R R' hR).Open everywhere where
  inside _ _ := Iff.rfl
  free _ := trivial
  methods _ := trivial

theorem MovedObject.face {o o' : FunctionObject} (h : T.MovedObject o o') : o'.face = o.face := by
  obtain ⟨p, hkin⟩ := moved_iff.mp h.fn
  unfold FunctionObject.face
  rw [h.name, h.isInitializer, hkin.arity]

theorem MovedObject.closed {o o' : FunctionObject} (h : T.MovedObject o o') :
    (T.setting globals R R' hR).Closed everywhere.sites o o' := by
  obtain ⟨p, hkin⟩ := moved_iff.mp h.fn
  exact ⟨h.face, p, h.closure, hkin, fun _ => rfl⟩

theorem movedObject_of_closed {s : Sites Text} (hs : ∀ f f' p, s f f' p → f' = f)
    {o o' : FunctionObject} (h : (T.setting globals R R' hR).Closed s o o') :
    T.MovedObject o o' := by
  obtain ⟨p, hclosure, hkin, -⟩ := h.text
  exact ⟨congrArg (·.1) h.face, moved_iff.mpr ⟨p, hkin⟩, hs _ _ p hclosure,
    congrArg (·.2.2) h.face⟩

theorem MovedHeap.alike {h h' : Heap} (hh : T.MovedHeap h h') : h.Alike h' where
  functions := by
    refine Array.ext_getElem? fun i => ?_
    rw [Array.getElem?_map, Array.getElem?_map]
    have hobject : Option.Rel T.MovedObject h.functions[i]? h'.functions[i]? := hh.functions ⟨i⟩
    generalize h.functions[i]? = o at hobject ⊢
    generalize h'.functions[i]? = o' at hobject ⊢
    cases hobject with
    | none => rfl
    | some hmoved => exact congrArg some hmoved.face
  classes := hh.classes
  instances := hh.instances
  natives := hh.natives

theorem MovedHeap.function {h h' : Heap} (hh : T.MovedHeap h h') {f : FunctionId}
    {o o' : FunctionObject} (ho : h.function? f = some o) (ho' : h'.function? f = some o') :
    T.MovedObject o o' := by
  have hobject := hh.functions f
  rw [ho, ho'] at hobject
  cases hobject with
  | some hmoved => exact hmoved

/-- What is the same but for the texts goes together. -/
theorem MovedHeap.heaps {h h' : Heap} (hh : T.MovedHeap h h') :
    Heaps (T.setting globals R R' hR) everywhere h h' where
  alike := hh.alike
  frames := ⟨hh.frames, fun _ _ _ hf => hf⟩
  free _ _ _ _ ho ho' := (hh.function ho ho').closed
  methods _ _ _ _ ho ho' := open_everywhere.unbound_of_closed (hh.function ho ho').closed
  bounds := .inl open_everywhere
  known _ _ _ := .inl trivial
  tables _ _ _ _ := trivial
  values _ _ _ _ _ _ := trivial
  fields _ _ _ _ _ _ := trivial

theorem movedHeap_of_heaps {w : World Text} (hw : everywhere.Grows w) {h h' : Heap}
    (hh : Heaps (T.setting globals R R' hR) w h h') : T.MovedHeap h h' where
  frames := hh.frames.1
  functions f := by
    cases ho : h.function? f with
    | none =>
      rw [hh.alike.function_none ho]
      exact .none
    | some o =>
      obtain ⟨o', ho', hclosed⟩ := hh.function (hw.free f trivial) ho
      rw [ho']
      exact .some (movedObject_of_closed hh.frames.2 hclosed)
  classes := hh.alike.classes
  instances := hh.alike.instances
  natives := hh.alike.natives

/-! ## Running -/

variable (T)

/-- Two machines, before and after the texts are moved, with these records. -/
structure Fit (R R' : Resolutions) (m m' : Machine) : Prop extends T.MovedMachine m m' where
  resolutions : m.resolutions = R
  resolutions' : m'.resolutions = R'
  respectful : ∀ code ∈ m.host, code.Respectful

variable {T} {m m' : Machine}

theorem Fit.withRecords (h : T.Fit R R' m m') (Q Q' : Resolutions) :
    T.Fit Q Q' { m with resolutions := Q } { m' with resolutions := Q' } :=
  { h.toMovedMachine with
    heap := h.heap
    resolutions := rfl
    resolutions' := rfl
    respectful := h.respectful }

/-- Texts can be taken for texts that are moved in the same way and have more numbers. -/
theorem Fit.embed {Text' : Type} {T' : Texts Text'} (h : T.Fit R R' m m') (f : Text → Text')
    (hshift : ∀ p, T'.shift (f p) = T.shift p)
    (hholds : ∀ p id, T.holds p id → T'.holds (f p) id) : T'.Fit R R' m m' := by
  have hobject (o o' : FunctionObject) (ho : T.MovedObject o o') : T'.MovedObject o o' := by
    obtain ⟨p, hfn, hk⟩ := ho.fn
    refine { ho with fn := ⟨f p, ?_, fun id hid => hholds p id (hk id hid)⟩ }
    rw [hshift]
    exact hfn
  have hheap : T'.MovedHeap m.heap m'.heap :=
    { h.heap with
      functions := fun g => by
        have hg := h.heap.functions g
        generalize m.heap.function? g = o at hg ⊢
        generalize m'.heap.function? g = o' at hg ⊢
        cases hg with
        | none => exact .none
        | some ho => exact .some (hobject _ _ ho) }
  exact { h.toMovedMachine with
    heap := hheap
    resolutions := h.resolutions
    resolutions' := h.resolutions'
    respectful := h.respectful }

theorem MovedObject.eq {o o' : FunctionObject} (h : T.MovedObject o o')
    (hshift : ∀ p, T.shift p = id) : o' = o := by
  obtain ⟨p, hfn, -⟩ := h.fn
  rw [hshift, Respan.lambda_id] at hfn
  cases o
  cases o'
  exact FunctionObject.mk.injEq .. ▸ ⟨h.name, hfn, h.closure, h.isInitializer⟩

theorem MovedHeap.eq {h h' : Heap} (hh : T.MovedHeap h h') (hshift : ∀ p, T.shift p = id) :
    h' = h := by
  have hfunctions : h'.functions = h.functions := by
    refine Array.ext_getElem? fun i => ?_
    have hobject : Option.Rel T.MovedObject h.functions[i]? h'.functions[i]? := hh.functions ⟨i⟩
    generalize h.functions[i]? = o at hobject ⊢
    generalize h'.functions[i]? = o' at hobject ⊢
    cases hobject with
    | none => rfl
    | some hmoved => exact congrArg some (hmoved.eq hshift)
  obtain ⟨hframes, -, hclasses, hinstances, hnatives⟩ := hh
  cases h
  cases h'
  subst hframes hfunctions hclasses hinstances hnatives
  rfl

/-- Where no text is moved the machines are the same but for their records. -/
theorem Fit.eq (h : T.Fit R R' m m') (hshift : ∀ p, T.shift p = id) :
    m' = { m with resolutions := R' } := by
  have hheap := h.heap.eq hshift
  obtain ⟨⟨-, hglobals, hcurrent, hcallDepth, hsink, hclock, hhost⟩, -, hresolutions, -⟩ := h
  cases m
  cases m'
  subst hheap hglobals hcurrent hcallDepth hsink hclock hhost hresolutions
  rfl

/-- A machine without trees. -/
theorem fit_of_empty (hempty : m.heap.functions = #[]) (hhost : ∀ code ∈ m.host, code.Respectful) :
    T.Fit m.resolutions m.resolutions m m := by
  have hfunctions (f : FunctionId) : m.heap.function? f = none := by
    unfold Heap.function?
    rw [hempty]
    rfl
  refine ⟨⟨⟨rfl, fun f => ?_, rfl, rfl, rfl⟩, rfl, rfl, rfl, rfl, rfl, rfl⟩, rfl, rfl, hhost⟩
  rw [hfunctions]
  exact .none

theorem Fit.side (h : T.Fit R R' m m') (hR : ∀ p id, T.holds p id → R'.find? id = R.find? id) :
    Side (T.setting m.globals R R' hR) everywhere m.current m.current m m' where
  heaps := h.heap.heaps
  globals := rfl
  globals' := h.globals
  resolutions := h.resolutions
  resolutions' := h.resolutions'
  callDepth := h.callDepth
  sink := h.sink
  clock := h.clock
  host := h.host
  respectful := h.respectful
  discreet := .inl open_everywhere
  current := rfl
  current' := h.current

theorem fit_of_side {w : World Text} (hw : everywhere.Grows w) {f : FrameId}
    (h : Side (T.setting globals R R' hR) w f f m m') : T.Fit R R' m m' where
  heap := movedHeap_of_heaps hw h.heaps
  globals := h.globals'.trans h.globals.symm
  current := h.current'.trans h.current.symm
  callDepth := h.callDepth
  sink := h.sink
  clock := h.clock
  host := h.host
  resolutions := h.resolutions
  resolutions' := h.resolutions'
  respectful := h.respectful

theorem movedError_of_blames (p : Text) {d d' : Diagnostic}
    (h : (T.setting globals R R' hR).Blames d d') : T.MovedError d d' := by
  cases h with
  | @located p _ _ cause hspan =>
    obtain rfl := show _ = _ from hspan
    exact ⟨p, rfl⟩
  | @undefined p _ _ _ _ _ _ huse hspan =>
    obtain ⟨-, rfl, -⟩ := huse
    obtain rfl := show _ = _ from hspan
    exact ⟨p, rfl⟩
  | output words => exact ⟨p, rfl⟩

theorem movedErrors_of_blames (p : Text) {e e' : Option Diagnostic}
    (h : Option.Rel (T.setting globals R R' hR).Blames e e') : Option.Rel T.MovedError e e' := by
  cases h with
  | none => exact .none
  | some hblames => exact .some (movedError_of_blames p hblames)

/-- What runs side by side leaves machines that are the same but for the texts. -/
theorem Fit.ends {α α' : Type} {r : Run α} {r' : Run α'} {Q : World Text → α → α' → Prop}
    (h : T.Fit R R' m m') (hR : ∀ p id, T.holds p id → R'.find? id = R.find? id)
    (hsim : Sim (T.setting m.globals R R' hR) everywhere m.current m.current r r' Q) :
    Ends r m (fun a t => ∃ w a' t', r' m' = .ok a' t' ∧ T.Fit R R' t t' ∧ Q w a a')
      fun _ _ => ∃ stop t', r' m' = .error stop t' := by
  refine (hsim.ends m m' (h.side hR)).imp ?_ ?_
  · intro a t hresult
    obtain ⟨w, a', t', hgrows, hside, hr', hq⟩ := hresult
    exact ⟨w, a', t', hr', fit_of_side hgrows hside, hq⟩
  · intro stop t hstop
    obtain ⟨w, stop', t', -, -, hr', -⟩ := hstop
    exact ⟨stop', t', hr'⟩

/-- One of the texts is executed as before. -/
theorem Fit.execute (h : T.Fit R R' m m') (hR : ∀ p id, T.holds p id → R'.find? id = R.find? id)
    (p : Text) {ss : List Stmt} (hk : AllKnown (T.holds p) (Nodes.stmts [] ss)) (fuel : Nat) :
    Ends (Session.execute fuel ss) m
      (fun e t => ∃ e' t', Session.execute fuel (Respan.stmts (T.shift p) ss) m' = .ok e' t' ∧
        T.Fit R R' t t' ∧ Option.Rel T.MovedError e e')
      fun _ _ => ∃ stop t', Session.execute fuel (Respan.stmts (T.shift p) ss) m' =
        .error stop t' := by
  have hkin := kin_stmts_respan (kinship_mirrors p) ss rfl hk
  refine (h.ends hR (sim_execute fuel rfl hkin)).imp ?_ fun _ _ hstop => hstop
  intro e t hresult
  obtain ⟨w, e', t', hr', hfit, herror⟩ := hresult
  exact ⟨e', t', hr', hfit, movedErrors_of_blames p herror⟩

end Texts

end Lox
