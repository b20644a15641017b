import Lox.Eval.Basic
import Lox.Proofs.Twin.Setting

/-! # Two heaps side by side

The heaps of two machines that run kindred trees hold the same classes,
instances and values; their functions are kindred, and their frames have in
common what the setting says. All of this stays so when both heaps are changed
in the same way. -/

namespace Lox.Twin

variable (S : Setting)

/-- In this setting a scope is no new place, and any function may be a value or a method. -/
structure Setting.Open (w : World S.Place) : Prop where
  inside : ∀ p q, S.inside p q ↔ q = p
  free : ∀ f, w.free f
  methods : ∀ f, w.methods f

/-- Only functions that are there are values or methods. -/
structure World.Bounded {Place : Type} (w : World Place) (h : Heap) : Prop where
  free : ∀ f, w.free f → f.index < h.functions.size
  methods : ∀ f, w.methods f → f.index < h.functions.size

/-- Two heaps that go together in a world. -/
structure Heaps (w : World S.Place) (h h' : Heap) : Prop where
  alike : h.Alike h'
  frames : S.Frames w.sites h h'
  free : ∀ f o o', w.free f → h.function? f = some o → h'.function? f = some o' →
    S.Closed w.sites o o'
  methods : ∀ f o o', w.methods f → h.function? f = some o → h'.function? f = some o' →
    S.Unbound w.sites o o'
  bounds : S.Open w ∨ w.Bounded h
  known : ∀ f o, h.function? f = some o → w.free f ∨ w.methods f
  tables : ∀ c name f, h.ownMethod? c name = some f → w.methods f
  values : ∀ f name v, h.get? f name = some v → w.Fine v
  fields : ∀ i name v, h.field? i name = some v → w.Fine v

variable {S} {w w' : World S.Place} {h h' : Heap}

theorem Setting.Open.mono (ho : S.Open w) (hw : w.Grows w') : S.Open w' :=
  ⟨ho.inside, fun f => hw.free f (ho.free f), fun f => hw.methods f (ho.methods f)⟩

theorem Setting.Open.closed_of_unbound (ho : S.Open w) {s : Sites S.Place} {o o' : FunctionObject}
    (hu : S.Unbound s o o') : S.Closed s o o' := by
  obtain ⟨p, q, hp, hinside, hkin⟩ := hu.text
  obtain rfl := (ho.inside p q).mp hinside
  exact ⟨hu.face, q, hp, hkin, fun _ => S.keyword hinside (.inl rfl)⟩

theorem Setting.Open.unbound_of_closed (ho : S.Open w) {s : Sites S.Place} {o o' : FunctionObject}
    (hc : S.Closed s o o') : S.Unbound s o o' := by
  obtain ⟨p, hp, hkin, -⟩ := hc.text
  exact ⟨hc.face, p, p, hp, (ho.inside p p).mpr rfl, hkin⟩

namespace Heaps

/-! ### Looking things up -/

theorem function (hh : Heaps S w h h') {f : FunctionId} {o : FunctionObject} (hf : w.free f)
    (ho : h.function? f = some o) : ∃ o', h'.function? f = some o' ∧ S.Closed w.sites o o' := by
  obtain ⟨o', ho', -⟩ := hh.alike.function ho
  exact ⟨o', ho', hh.free f o o' hf ho ho'⟩

theorem method (hh : Heaps S w h h') {f : FunctionId} {o : FunctionObject} (hf : w.methods f)
    (ho : h.function? f = some o) : ∃ o', h'.function? f = some o' ∧ S.Unbound w.sites o o' := by
  obtain ⟨o', ho', -⟩ := hh.alike.function ho
  exact ⟨o', ho', hh.methods f o o' hf ho ho'⟩

theorem methods_of_findMethod (hh : Heaps S w h h') {c : ClassId} {name : String} {f : FunctionId}
    (hf : h.findMethod? c name = some f) : w.methods f := by
  obtain ⟨c', hown⟩ := h.ownMethod_of_findMethod hf
  exact hh.tables c' name f hown

/-! ### Changing variables -/

/-- A variable gets a value in both heaps. -/
theorem write (hh : Heaps S w h h') {f f' : FrameId} {name name' : String} {v : Value}
    (hframes : S.Frames w.sites (h.define f name v) (h'.define f' name' v)) (hv : w.Fine v) :
    Heaps S w (h.define f name v) (h'.define f' name' v) where
  alike := ⟨hh.alike.functions, hh.alike.classes, hh.alike.instances, hh.alike.natives⟩
  frames := hframes
  free := hh.free
  methods := hh.methods
  bounds := hh.bounds.imp_right fun hb => ⟨hb.free, hb.methods⟩
  known := hh.known
  tables := hh.tables
  values g other u hu := by
    rw [Heap.get?_define] at hu
    split at hu
    · obtain rfl := Option.some.inj hu
      exact hv
    · exact hh.values g other u hu
  fields := hh.fields

/-- Two more frames go together. -/
theorem put (hh : Heaps S w h h') {frames frames' : Array Frame} {f f' : FrameId} {p : S.Place}
    (hframes : S.Frames (w.sites.put f f' p) { h with frames } { h' with frames := frames' })
    (hvalues : ∀ g name v, ({ h with frames } : Heap).get? g name = some v → w.Fine v) :
    Heaps S (w.withFrame f f' p) { h with frames } { h' with frames := frames' } where
  alike := ⟨hh.alike.functions, hh.alike.classes, hh.alike.instances, hh.alike.natives⟩
  frames := hframes
  free g o o' hg ho ho' := (hh.free g o o' hg ho ho').mono fun _ _ _ h => .inl h
  methods g o o' hg ho ho' := (hh.methods g o o' hg ho ho').mono fun _ _ _ h => .inl h
  bounds := hh.bounds.imp (·.mono (w.grows_withFrame ..)) fun hb => ⟨hb.free, hb.methods⟩
  known := hh.known
  tables := hh.tables
  values := hvalues
  fields := hh.fields

/-- What the names of a new frame are bound to is known, as everything else is. -/
theorem fine_newFrame (hh : Heaps S w h h') {outer : Option FrameId} {names : Bindings Value}
    (hvalues : ∀ name v, names.get? name = some v → w.Fine v) (g : FrameId) (name : String)
    (v : Value) (hv : (h.newFrame outer names).2.get? g name = some v) : w.Fine v := by
  rw [Heap.get?_newFrame] at hv
  split at hv
  · exact hvalues name v hv
  · exact hh.values g name v hv

/-- New frames go together. -/
theorem newFrame (hh : Heaps S w h h') {f f' : FrameId} {p q : S.Place}
    {names names' : Bindings Value} (hf : w.sites f f' p) (hinside : S.inside p q)
    (hnames : S.Paired q names names')
    (hvalues : ∀ name v, names.get? name = some v → w.Fine v) :
    Heaps S (w.withFrame ⟨h.frames.size⟩ ⟨h'.frames.size⟩ q) (h.newFrame (some f) names).2
      (h'.newFrame (some f') names').2 :=
  hh.put (S.enter hh.frames hf hinside hnames) (hh.fine_newFrame hvalues)

/-! ### New functions -/

variable {o o' : FunctionObject}

theorem alike_newFunction (ha : h.Alike h') (hface : o'.face = o.face) :
    (h.newFunction o).2.Alike (h'.newFunction o').2 where
  functions := by
    show (h'.functions.push o').map _ = (h.functions.push o).map _
    rw [Array.map_push, Array.map_push, ha.functions, hface]
  classes := ha.classes
  instances := ha.instances
  natives := ha.natives

theorem function?_newFunction (f : FunctionId) : (h.newFunction o).2.function? f =
    if f = ⟨h.functions.size⟩ then some o else h.function? f := by
  obtain ⟨i⟩ := f
  simp only [Heap.function?, Heap.newFunction, Array.getElem?_push, FunctionId.mk.injEq]

/-- What holds of the functions that there are holds of them and a new one. -/
theorem functions_newFunction {known : FunctionId → Prop}
    {good : FunctionObject → FunctionObject → Prop}
    (ha : h.Alike h')
    (hold : ∀ f a a', known f → h.function? f = some a → h'.function? f = some a' → good a a')
    (hnew : known ⟨h.functions.size⟩ → good o o') :
    ∀ f a a', known f → (h.newFunction o).2.function? f = some a →
      (h'.newFunction o').2.function? f = some a' → good a a' := by
  intro f a a' hf hfa hfa'
  rw [function?_newFunction] at hfa hfa'
  rw [ha.size] at hfa'
  split at hfa
  · next heq =>
    subst heq
    rw [if_pos rfl] at hfa'
    obtain rfl := Option.some.inj hfa
    obtain rfl := Option.some.inj hfa'
    exact hnew hf
  · next hne =>
    rw [if_neg hne] at hfa'
    exact hold f a a' hf hfa hfa'

theorem not_function_size (h : Heap) (a : FunctionObject) :
    h.function? ⟨h.functions.size⟩ ≠ some a := fun ha =>
  Nat.lt_irrefl _ (Heap.index_lt_of_function ha)

theorem lt_newFunction {f : FunctionId} (hf : f.index < h.functions.size) :
    f.index < (h.newFunction o).2.functions.size :=
  Nat.lt_of_lt_of_eq (Nat.lt_succ_of_lt hf) (Array.size_push o).symm

theorem size_lt_newFunction : h.functions.size < (h.newFunction o).2.functions.size :=
  Nat.lt_of_lt_of_eq (Nat.lt_succ_self _) (Array.size_push o).symm

/-- A new function is a value. -/
theorem newFunction (hh : Heaps S w h h') (hclosed : S.Closed w.sites o o') :
    Heaps S (w.withFunction ⟨h.functions.size⟩) (h.newFunction o).2 (h'.newFunction o').2 where
  alike := alike_newFunction hh.alike hclosed.face
  frames := S.congr hh.frames rfl rfl
  free := by
    refine functions_newFunction hh.alike (fun f a a' hf ha ha' => ?_) fun _ => hclosed
    rcases hf with hf | rfl
    · exact hh.free f a a' hf ha ha'
    · exact absurd ha (not_function_size h a)
  methods := by
    refine functions_newFunction hh.alike hh.methods fun hnew => ?_
    rcases hh.bounds with hopen | hbounded
    · exact hopen.unbound_of_closed hclosed
    · exact absurd (hbounded.methods _ hnew) (Nat.lt_irrefl _)
  bounds := by
    refine hh.bounds.imp (·.mono (w.grows_withFunction _)) fun hb =>
      ⟨fun f hf => ?_, fun f hf => ?_⟩
    · rcases hf with hf | rfl
      · exact lt_newFunction (hb.free f hf)
      · exact size_lt_newFunction
    · exact lt_newFunction (hb.methods f hf)
  known f a ha := by
    rw [function?_newFunction] at ha
    split at ha
    · next heq => exact .inl (.inr heq)
    · exact (hh.known f a ha).imp_left .inl
  tables := hh.tables
  values g name v hv := (hh.values g name v hv).mono (w.grows_withFunction _)
  fields i name v hv := (hh.fields i name v hv).mono (w.grows_withFunction _)

/-- A new function is a method of a class. -/
theorem newMethod (hh : Heaps S w h h') (hunbound : S.Unbound w.sites o o') :
    Heaps S (w.withMethod ⟨h.functions.size⟩) (h.newFunction o).2 (h'.newFunction o').2 where
  alike := alike_newFunction hh.alike hunbound.face
  frames := S.congr hh.frames rfl rfl
  free := by
    refine functions_newFunction hh.alike hh.free fun hnew => ?_
    rcases hh.bounds with hopen | hbounded
    · exact hopen.closed_of_unbound hunbound
    · exact absurd (hbounded.free _ hnew) (Nat.lt_irrefl _)
  methods := by
    refine functions_newFunction hh.alike (fun f a a' hf ha ha' => ?_) fun _ => hunbound
    rcases hf with hf | rfl
    · exact hh.methods f a a' hf ha ha'
    · exact absurd ha (not_function_size h a)
  bounds := by
    refine hh.bounds.imp (·.mono (w.grows_withMethod _)) fun hb => ⟨fun f hf => ?_, fun f hf => ?_⟩
    · exact lt_newFunction (hb.free f hf)
    · rcases hf with hf | rfl
      · exact lt_newFunction (hb.methods f hf)
      · exact size_lt_newFunction
  known f a ha := by
    rw [function?_newFunction] at ha
    split at ha
    · next heq => exact .inr (.inr heq)
    · exact (hh.known f a ha).imp_right .inl
  tables c name f hf := .inl (hh.tables c name f hf)
  values g name v hv := (hh.values g name v hv).mono (w.grows_withMethod _)
  fields i name v hv := (hh.fields i name v hv).mono (w.grows_withMethod _)

/-- The scope of `this` or of `super` holds the same on both sides. -/
theorem paired_keyword {p q : S.Place} {keyword : String} (hinside : S.inside p q)
    (hkeyword : keyword = "this" ∨ keyword = "super") (v : Value) :
    S.Paired q (Bindings.empty.insert keyword v) (Bindings.empty.insert keyword v) :=
  paired_empty.insert (S.distinct q) (S.keyword hinside hkeyword) v

/-- A method is bound to an instance: its frame is a new one around its text. -/
theorem bind (hh : Heaps S w h h') (hunbound : S.Unbound w.sites o o') (i : InstanceId) :
    ∃ w', w.Grows w' ∧ Heaps S w' (h.bind o i).2 (h'.bind o' i).2 ∧
      S.Closed w'.sites (h.bind o i).1 (h'.bind o' i).1 := by
  obtain ⟨p, q, hp, hinside, hkin⟩ := hunbound.text
  refine ⟨w.withFrame ⟨h.frames.size⟩ ⟨h'.frames.size⟩ q, w.grows_withFrame .., ?_,
    hunbound.face, q, ?_⟩
  · exact hh.newFrame hp hinside (paired_keyword hinside (.inl rfl) (.instance_ i))
      fun name v hv => by
        rw [Bindings.get?_insert] at hv
        split at hv
        · obtain rfl := Option.some.inj hv
          exact World.fine_of_ne fun _ hf => by cases hf
        · cases hv
  · exact ⟨.inr ⟨rfl, rfl, rfl⟩, hkin, fun _ => S.keyword hinside (.inl rfl)⟩

/-! ### New classes and instances -/

theorem newClass (hh : Heaps S w h h') (object : ClassObject)
    (hmethods : ∀ name f, object.methods.get? name = some f → w.methods f) :
    Heaps S w (h.newClass object).2 (h'.newClass object).2 where
  alike := by
    refine ⟨hh.alike.functions, ?_, hh.alike.instances, hh.alike.natives⟩
    show h'.classes.push object = h.classes.push object
    rw [hh.alike.classes]
  frames := S.congr hh.frames rfl rfl
  free := hh.free
  methods := hh.methods
  bounds := hh.bounds.imp_right fun hb => ⟨hb.free, hb.methods⟩
  known := hh.known
  tables c name f hf := by
    rw [Heap.ownMethod?_newClass] at hf
    split at hf
    · exact hmethods name f hf
    · exact hh.tables c name f hf
  values := hh.values
  fields := hh.fields

theorem newInstance (hh : Heaps S w h h') (c : ClassId) :
    Heaps S w (h.newInstance c).2 (h'.newInstance c).2 where
  alike := by
    refine ⟨hh.alike.functions, hh.alike.classes, ?_, hh.alike.natives⟩
    show h'.instances.push _ = h.instances.push _
    rw [hh.alike.instances]
  frames := S.congr hh.frames rfl rfl
  free := hh.free
  methods := hh.methods
  bounds := hh.bounds.imp_right fun hb => ⟨hb.free, hb.methods⟩
  known := hh.known
  tables := hh.tables
  values := hh.values
  fields i name v hv := by
    rw [Heap.field?_newInstance] at hv
    exact hh.fields i name v hv

theorem setField (hh : Heaps S w h h') (i : InstanceId) (name : String) {v : Value}
    (hv : w.Fine v) : Heaps S w (h.setField i name v) (h'.setField i name v) where
  alike := by
    refine ⟨hh.alike.functions, hh.alike.classes, ?_, hh.alike.natives⟩
    unfold Heap.setField
    rw [hh.alike.instances]
  frames := S.congr hh.frames rfl rfl
  free := hh.free
  methods := hh.methods
  bounds := hh.bounds.imp_right fun hb => ⟨hb.free, hb.methods⟩
  known := hh.known
  tables := hh.tables
  values := hh.values
  fields j other u hu := by
    rw [Heap.field?_setField] at hu
    split at hu
    · obtain rfl := Option.some.inj hu
      exact hv
    · exact hh.fields j other u hu

/-! ### The tables of the methods of a class -/

/-- The methods of a class are made in order. -/
theorem methodTable {f f' : FrameId} {p : S.Place} {ms ms' : List Method}
    (hkin : KinMethods S.toKinship p ms ms') (table : Bindings FunctionId)
    (hh : Heaps S w h h') (hf : w.sites f f' p)
    (htable : ∀ name g, table.get? name = some g → w.methods g) :
    ∃ w', w.Grows w' ∧
      (Eval.methodTable f' ms' table h').1 = (Eval.methodTable f ms table h).1 ∧
      Heaps S w' (Eval.methodTable f ms table h).2 (Eval.methodTable f' ms' table h').2 ∧
      ∀ name g, (Eval.methodTable f ms table h).1.get? name = some g → w'.methods g := by
  induction ms generalizing ms' table h h' w with
  | nil =>
    cases hkin
    exact ⟨w, .refl w, rfl, hh, htable⟩
  | cons m ms ih =>
    obtain ⟨name, fn⟩ := m
    cases hkin with
    | @cons _ q _ name' _ fn' _ ms' hname hinside hlambda htail =>
      have htext : name'.text = name.text := hname.text
      simp only [Eval.methodTable, htext]
      have hunbound : S.Unbound w.sites
          ⟨some name.text, fn, f, decide (name.text = initializerName)⟩
          ⟨some name.text, fn', f', decide (name.text = initializerName)⟩ := by
        refine ⟨?_, p, q, hf, hinside, hlambda⟩
        unfold FunctionObject.face
        rw [hlambda.arity]
      have hnew := hh.newMethod hunbound
      have hids : (h'.newFunction ⟨some name.text, fn', f',
          decide (name.text = initializerName)⟩).1 =
            (h.newFunction ⟨some name.text, fn, f, decide (name.text = initializerName)⟩).1 :=
        congrArg FunctionId.mk hh.alike.size
      rw [hids]
      obtain ⟨w', hgrows, hsame, hheaps, hmethods⟩ := ih htail _ hnew hf fun other g hg => by
        rw [Bindings.get?_insert] at hg
        split at hg
        · obtain rfl := Option.some.inj hg
          exact .inr rfl
        · exact .inl (htable other g hg)
      exact ⟨w', (w.grows_withMethod _).trans hgrows, hsame, hheaps, hmethods⟩

end Heaps
end Lox.Twin
