import Lox.Proofs.Twin.Sim

/-! # The parts of evaluation side by side

Variables, functions, properties, `super`, calls and class declarations, on two
machines that go together. -/

namespace Lox.Twin

open Eval Run

variable {S : Setting} {w : World S.Place} {f f' : FrameId} {p : S.Place}

/-! ## Variables -/

/-- The frames in which two variables are looked for. -/
theorem Side.matched {m m' : Machine} {id id' : Nat} {name name' : String}
    (hm : Side S w f f' m m') (hf : w.sites f f' p) (huse : S.use p id id' name name') :
    Matched (S.Frames w.sites) m.heap m'.heap name name' (m.frameOf? id) (m'.frameOf? id') := by
  rw [Machine.frameOf?_eq, Machine.frameOf?_eq, hm.current, hm.current', hm.globals, hm.globals',
    hm.resolutions, hm.resolutions']
  exact S.locate hm.heaps.frames hf huse

theorem Side.readVariable {m m' : Machine} {id id' : Nat} {name name' : String}
    (hm : Side S w f f' m m') (hf : w.sites f f' p) (huse : S.use p id id' name name') :
    m'.readVariable id' name' = m.readVariable id name := by
  have hmatched := hm.matched hf huse
  unfold Machine.readVariable
  generalize m.frameOf? id = g at hmatched ⊢
  generalize m'.frameOf? id' = g' at hmatched ⊢
  cases hmatched with
  | none => rfl
  | some hget => exact hget

theorem Side.fine_of_readVariable {m m' : Machine} {id : Nat} {name : String}
    (hm : Side S w f f' m m') {v : Value} (hv : m.readVariable id name = some v) : w.Fine v := by
  obtain ⟨frame, -, hget⟩ := Option.bind_eq_some_iff.mp hv
  exact hm.heaps.values frame name v hget

theorem sim_readVariable {id id' : Nat} {name name' : String} {span span' : Span}
    (hf : w.sites f f' p) (huse : S.use p id id' name name') (hspan : S.span p span span') :
    Sim S w f f' (readVariable id name span) (readVariable id' name' span') (Same World.Fine) := by
  refine (sim_ask (Q := Same fun w found => ∀ v, found = some v → w.Fine v) fun m m' hm =>
    ⟨hm.readVariable hf huse, fun v hv => hm.fine_of_readVariable hv⟩).bindSame
      fun w' found _ hfine => ?_
  cases found with
  | none => exact sim_undefined huse hspan
  | some v => exact sim_pure ⟨rfl, hfine v rfl⟩

theorem Side.binds {m m' : Machine} {g g' : FrameId} {name name' : String}
    (hget : m'.heap.get? g' name' = m.heap.get? g name) :
    m'.heap.binds g' name' = m.heap.binds g name := congrArg Option.isSome hget

theorem sim_writeVariable {target target' : Reference} {v : Value} (hf : w.sites f f' p)
    (huse : S.Uses p target target') (hv : w.Fine v) :
    Sim S w f f' (writeVariable target v) (writeVariable target' v) fun _ _ _ => True := by
  constructor
  intro m m' hm
  have hfailed : ∃ w' stop' t', w.Grows w' ∧ Side S w' f f' m t' ∧
      (fail (.undefinedVariable target'.name.text) target'.name.span : Run Unit) m' =
        .error stop' t' ∧ S.Halts (.failed (.located (.execution
          (.undefinedVariable target.name.text)) target.name.span)) stop' :=
    ⟨w, _, m', .refl w, hm, rfl, .failed (.undefined huse.text huse.span)⟩
  have hmatched := hm.matched hf huse.text
  unfold Ends writeVariable Machine.bindingFrame?
  generalize m.frameOf? target.id = g at hmatched ⊢
  generalize m'.frameOf? target'.id = g' at hmatched ⊢
  cases hmatched with
  | none => exact hfailed
  | @some g g' hget hdefine =>
    have hbinds := Side.binds hget
    rw [Option.filter_some, Option.filter_some, hbinds]
    cases m.heap.binds g target.name.text with
    | true =>
      exact ⟨w, (), _, .refl w, hm.withHeap (.refl w) (hm.heaps.write (hdefine v) hv), rfl, trivial⟩
    | false => exact hfailed

/-! ## Functions -/

theorem sim_current : Sim S w f f' (ask (·.current)) (ask (·.current))
    fun _ g g' => g = f ∧ g' = f' :=
  sim_ask fun _ _ hm => ⟨hm.current, hm.current'⟩

/-- Both machines run in a new scope inside the present one. -/
theorem sim_inside {α α' : Type} {q : S.Place} {r : Run α} {r' : Run α'}
    {Q : World S.Place → α → α' → Prop} (hf : w.sites f f' p) (hinside : S.inside p q)
    (h : ∀ w' g g', w.Grows w' → w'.sites g g' q → Sim S w' g g' r r' Q) :
    Sim S w f f'
      (do let outer ← ask (·.current); let g ← onHeap (·.newFrame (some outer) .empty); within g r)
      (do let outer ← ask (·.current); let g ← onHeap (·.newFrame (some outer) .empty); within g r')
      Q := by
  refine sim_current.bind fun w₁ g g' hgrows₁ hg => ?_
  obtain ⟨rfl, rfl⟩ := hg
  refine (sim_onHeap (Q := fun w b b' => w.sites b b' q) fun m m' hm =>
    ⟨w₁.withFrame ⟨m.heap.frames.size⟩ ⟨m'.heap.frames.size⟩ q, w₁.grows_withFrame .., ?_,
      .inr ⟨rfl, rfl, rfl⟩⟩).bind fun w₂ b b' hgrows₂ hb => ?_
  · exact hm.heaps.newFrame (hgrows₁.sites g g' p hf) hinside paired_empty fun _ _ hv => by cases hv
  · exact (h w₂ b b' (hgrows₁.trans hgrows₂) hb).within

/-- A new function is a value. -/
theorem sim_newFunction {o o' : FunctionObject} (h : S.Closed w.sites o o') :
    Sim S w f f' (onHeap (·.newFunction o)) (onHeap (·.newFunction o'))
      (Same fun w g => w.free g) :=
  sim_onHeap fun m _ hm => ⟨w.withFunction ⟨m.heap.functions.size⟩, w.grows_withFunction _,
    hm.heaps.newFunction h, congrArg FunctionId.mk hm.heaps.alike.size, .inr rfl⟩

theorem sim_function (g : FunctionId) (h : w.free g) :
    Sim S w f f' (pure (Value.function g)) (pure (Value.function g)) (Same World.Fine) := by
  refine sim_pure ⟨rfl, fun g' hg => ?_⟩
  cases hg
  exact h

theorem sim_closure (name : Option String) {fn fn' : Lambda} (hf : w.sites f f' p)
    (hkin : KinLambda S.toKinship p fn fn') :
    Sim S w f f' (closure name fn) (closure name fn') (Same World.Fine) := by
  refine sim_current.bind fun w' g g' hgrows hg => ?_
  obtain ⟨rfl, rfl⟩ := hg
  have hclosed : S.Closed w'.sites ⟨name, fn, g, false⟩ ⟨name, fn', g', false⟩ := by
    refine ⟨?_, p, hgrows.sites g g' p hf, hkin, fun hinit => by cases hinit⟩
    unfold FunctionObject.face
    rw [hkin.arity]
  exact (sim_newFunction hclosed).bindSame fun _ id _ hfree => sim_function id hfree

/-- A method is looked up. -/
theorem sim_method {found : Option FunctionId} (hfound : ∀ g ∈ found, w.methods g) :
    Sim S w f f' (ask fun m => found.bind m.heap.function?)
      (ask fun m => found.bind m.heap.function?)
      fun w a a' => (a = none → a' = none) ∧
        ∀ o, a = some o → ∃ o', a' = some o' ∧ S.Unbound w.sites o o' := by
  refine sim_ask fun m m' hm => ?_
  cases found with
  | none => exact ⟨fun _ => rfl, fun _ ho => by cases ho⟩
  | some g =>
    exact ⟨fun hnone => hm.heaps.alike.function_none hnone,
      fun o ho => hm.heaps.method (hfound g rfl) ho⟩

/-- A method is bound to an instance. -/
theorem sim_bind {o o' : FunctionObject} (h : S.Unbound w.sites o o') (i : InstanceId) :
    Sim S w f f' (onHeap (·.bind o i)) (onHeap (·.bind o' i)) fun w a a' => S.Closed w.sites a a' :=
  sim_onHeap fun _ _ hm => hm.heaps.bind h i

theorem sim_boundMethod {found : Option FunctionId} (i : InstanceId) {name name' : Ident}
    (hfound : ∀ g ∈ found, w.methods g) (hname : S.Named p name name') :
    Sim S w f f' (boundMethod found i name) (boundMethod found i name') (Same World.Fine) := by
  unfold boundMethod
  rw [hname.text]
  refine (sim_method hfound).bind fun w₁ _ _ _ hmethod => ?_
  refine (sim_orElseFail (Q := fun w o o' => S.Unbound w.sites o o') _ hname.span hmethod.1
    hmethod.2).bind fun w₂ o o' _ hunbound => ?_
  refine (sim_bind hunbound i).bind fun w₃ b b' _ hclosed => ?_
  exact (sim_newFunction hclosed).bindSame fun _ id _ hfree => sim_function id hfree

/-! ## Properties -/

theorem sim_property {o : Value} {name name' : Ident} (hname : S.Named p name name') :
    Sim S w f f' (property o name) (property o name') (Same World.Fine) := by
  cases o with
  | instance_ i =>
    unfold property
    dsimp only
    rw [hname.text]
    refine (sim_ask (Q := Same fun w found => ∀ v, found = some v → w.Fine v) fun m m' hm =>
      ⟨hm.heaps.alike.field i name.text, fun v hv => hm.heaps.fields i name.text v hv⟩).bindSame
        fun w₁ found _ hfine => ?_
    cases found with
    | some v => exact sim_pure ⟨rfl, hfine v rfl⟩
    | none =>
      refine (sim_ask (Q := Same fun w found => ∀ g ∈ found, w.methods g) fun m m' hm =>
        ⟨hm.heaps.alike.methodOf i name.text, fun g hg => ?_⟩).bindSame
          fun w₂ found _ hmethods => sim_boundMethod i hmethods hname
      obtain ⟨c, -, hfind⟩ := Option.bind_eq_some_iff.mp hg
      exact hm.heaps.methods_of_findMethod hfind
  | _ => exact sim_fail .propertyOfNonInstance hname.span

theorem sim_fieldOwner {o : Value} {name name' : Ident} (hname : S.Named p name name') :
    Sim S w f f' (fieldOwner o name) (fieldOwner o name') (Same fun _ _ => True) := by
  cases o with
  | instance_ i => exact sim_pure ⟨rfl, trivial⟩
  | _ => exact sim_fail .fieldOfNonInstance hname.span

theorem sim_setField (i : InstanceId) (name : String) {v : Value} (hv : w.Fine v) :
    Sim S w f f' (onHeap fun h => ((), h.setField i name v))
      (onHeap fun h => ((), h.setField i name v)) fun _ _ _ => True :=
  sim_onHeap fun _ _ hm => ⟨w, .refl w, hm.heaps.setField i name hv, trivial⟩

/-! ## `super` -/

/-- The frames that are known for two uses of `super` see the same. -/
def Knows (S : Setting) (p : S.Place) (id id' hops hops' : Nat) : Prop :=
  S.use p id id' "super" "super" ∧ S.known.find? id = some hops ∧ S.known'.find? id' = some hops'

theorem Side.super {m m' : Machine} {id id' hops hops' : Nat} (hm : Side S w f f' m m')
    (hf : w.sites f f' p) (hknows : Knows S p id id' hops hops') :
    SeesSuper m.heap m'.heap m.current m'.current hops hops' := by
  obtain ⟨huse, hhops, hhops'⟩ := hknows
  have hsees := S.super hm.heaps.frames hf huse
  rw [hhops, hhops'] at hsees
  rw [hm.current, hm.current']
  cases hsees with
  | some hsees => exact hsees

theorem sim_superClass {id id' hops hops' : Nat} {keyword keyword' : Span} (hf : w.sites f f' p)
    (hknows : Knows S p id id' hops hops') (hspan : S.span p keyword keyword') :
    Sim S w f f' (superClass hops keyword) (superClass hops' keyword') (Same fun _ _ => True) := by
  refine (sim_ask (Q := Same fun _ _ => True) fun m m' hm =>
    ⟨(hm.super hf hknows).super, trivial⟩).bindSame fun w' found _ _ => ?_
  split
  · exact sim_pure ⟨rfl, trivial⟩
  · exact sim_fail .superNotClass hspan

theorem sim_superInstance {id id' hops hops' : Nat} {keyword keyword' : Span}
    (hf : w.sites f f' p) (hknows : Knows S p id id' hops hops')
    (hspan : S.span p keyword keyword') :
    Sim S w f f' (superInstance hops keyword) (superInstance hops' keyword')
      (Same fun _ _ => True) := by
  refine (sim_ask (Q := Same fun _ _ => True) fun m m' hm => ⟨?_, trivial⟩).bindSame
    fun w' found _ _ => ?_
  · have hthis := (hm.super hf hknows).this
    cases hops <;> cases hops' <;> exact hthis
  · split
    · exact sim_pure ⟨rfl, trivial⟩
    · exact sim_fail .thisNotInstance hspan

theorem sim_superMethod {id id' : Nat} {keyword keyword' : Span} {method method' : Ident}
    (hf : w.sites f f' p) (huse : S.use p id id' "super" "super")
    (hspan : S.span p keyword keyword') (hmethod : S.Named p method method') :
    Sim S w f f' (superMethod id keyword method) (superMethod id' keyword' method')
      (Same World.Fine) := by
  unfold superMethod
  rw [hmethod.text]
  refine (sim_ask (Q := fun _ hops? hops?' => hops? = S.known.find? id ∧
    hops?' = S.known'.find? id' ∧ (hops? = none → hops?' = none) ∧
      ∀ hops, hops? = some hops → ∃ hops', hops?' = some hops') fun m m' hm => ?_).bind
      fun w₁ hops? hops?' hgrows₁ hhops => ?_
  · rw [hm.resolutions, hm.resolutions']
    have hsees := S.super hm.heaps.frames hf huse
    refine ⟨rfl, rfl, ?_⟩
    generalize S.known.find? id = k at hsees ⊢
    generalize S.known'.find? id' = k' at hsees ⊢
    cases hsees with
    | none => exact ⟨fun _ => rfl, fun _ h => by cases h⟩
    | some => exact ⟨fun h => absurd h (Option.some_ne_none _), fun _ _ => ⟨_, rfl⟩⟩
  obtain ⟨hknown, hknown', hnone, hsome⟩ := hhops
  refine (sim_orElseFail (Q := fun _ hops hops' => Knows S p id id' hops hops') _ hspan hnone
    fun hops hfound => ?_).bind fun w₂ hops hops' hgrows₂ hknows => ?_
  · obtain ⟨hops', hfound'⟩ := hsome hops hfound
    exact ⟨hops', hfound', huse, hknown.symm.trans hfound, hknown'.symm.trans hfound'⟩
  have hf₂ := (hgrows₁.trans hgrows₂).sites f f' p hf
  refine (sim_superClass hf₂ hknows hspan).bindSame fun w₃ c hgrows₃ _ => ?_
  refine (sim_superInstance (hgrows₃.sites f f' p hf₂) hknows hspan).bindSame fun w₄ i _ _ => ?_
  refine (sim_ask (Q := Same fun w found => ∀ g ∈ found, w.methods g) fun m m' hm =>
    ⟨hm.heaps.alike.findMethod c method.text,
      fun g hg => hm.heaps.methods_of_findMethod hg⟩).bindSame
      fun w₅ found _ hmethods => sim_boundMethod i hmethods hmethod

/-! ## Calls -/

theorem sim_checkCall {paren paren' : Span} (callee : Value) (count : Nat)
    (hspan : S.span p paren paren') :
    Sim S w f f' (checkCall callee count paren) (checkCall callee count paren')
      (Same fun _ _ => True) := by
  refine (sim_ask (Q := Same fun _ _ => True) fun m m' hm =>
    ⟨hm.heaps.alike.arity callee, trivial⟩).bindSame fun w₁ arity? _ _ => ?_
  refine (sim_orElseFail (Q := Same fun _ _ => True) _ hspan id
    fun arity harity => ⟨arity, harity, rfl, trivial⟩).bindSame fun w₂ arity _ _ => ?_
  split
  · exact sim_fail _ hspan
  · refine (sim_ask (Q := Same fun _ _ => True) fun m m' hm => ⟨hm.callDepth, trivial⟩).bindSame
      fun w₃ depth _ _ => ?_
    split
    · exact sim_fail _ hspan
    · exact sim_pure ⟨rfl, trivial⟩

/-- How a statement finished. -/
def Finished {Place : Type} (w : World Place) : Flow → Prop
  | .return_ v => w.Fine v
  | .normal | .break_ => True

theorem sim_callResult {o o' : FunctionObject} {flow : Flow} (ho : S.Closed w.sites o o')
    (hflow : Finished w flow) :
    Sim S w f f' (callResult o flow) (callResult o' flow) (Same World.Fine) := by
  obtain ⟨p, hp, hkin, hinit⟩ := ho.text
  have hinitializer : o'.isInitializer = o.isInitializer := congrArg (·.2.2) ho.face
  unfold callResult
  rw [hinitializer]
  by_cases his : o.isInitializer = true
  · rw [if_pos his, if_pos his]
    refine (sim_ask (Q := Same fun w found => ∀ v, found = some v → w.Fine v)
      fun m m' hm => ⟨?_, fun v hv => hm.heaps.values o.closure "this" v hv⟩).bindSame
        fun w' found _ hfine => ?_
    · exact S.get hm.heaps.frames hp (hinit his)
    · exact sim_orElseFail (Q := Same World.Fine) _ hkin.span id
        fun v hv => ⟨v, hv, rfl, hfine v hv⟩
  · rw [if_neg his, if_neg his]
    cases flow with
    | return_ v => exact sim_pure ⟨rfl, hflow⟩
    | _ => exact sim_pure ⟨rfl, World.fine_of_ne fun _ hf => by cases hf⟩

/-- Parameters that are declared at a place are bound to the same arguments. -/
theorem paired_bindParams {q : S.Place} {params params' : List Ident}
    (hparams : List.Forall₂ (S.Declares q) params params') (args : List Value) :
    S.Paired q (bindParams params args) (bindParams params' args) := by
  suffices h : ∀ b b' : Bindings Value, S.Paired q b b' → S.Paired q
      ((params.zip args).foldl (fun names entry => names.insert entry.1.text entry.2) b)
      ((params'.zip args).foldl (fun names entry => names.insert entry.1.text entry.2) b')
    from h .empty .empty paired_empty
  induction hparams generalizing args with
  | nil => exact fun _ _ h => h
  | @cons x x' xs xs' hx _ ih =>
    intro b b' hb
    cases args with
    | nil => exact hb
    | cons a args => exact ih args _ _ (hb.insert (S.distinct q) hx.text a)

/-! ## Classes -/

theorem sim_superclassOf {target target' : Reference} (hf : w.sites f f' p)
    (huse : S.Uses p target target') :
    Sim S w f f' (superclassOf (some target)) (superclassOf (some target'))
      (Same fun _ parent => parent.isSome = true) := by
  unfold superclassOf
  dsimp only
  refine (sim_readVariable hf huse.text huse.span).bindSame fun w' v _ _ => ?_
  cases v with
  | class_ c => exact sim_pure ⟨rfl, rfl⟩
  | _ => exact sim_fail .superclassNotClass huse.span

/-- The frame that the methods of a class close over. -/
theorem sim_methodFrame {parent : Option ClassId} {q : S.Place} (hf : w.sites f f' p)
    (hq : if parent.isSome then S.inside p q else q = p) :
    Sim S w f f' (methodFrame parent) (methodFrame parent)
      fun w g g' => w.sites g g' q := by
  refine sim_current.bind fun w' g g' hgrows hg => ?_
  obtain ⟨rfl, rfl⟩ := hg
  have hg := hgrows.sites g g' p hf
  cases parent with
  | none =>
    obtain rfl := hq
    exact sim_pure hg
  | some c =>
    refine sim_onHeap fun m m' hm => ⟨w'.withFrame ⟨m.heap.frames.size⟩ ⟨m'.heap.frames.size⟩ q,
      w'.grows_withFrame .., ?_, .inr ⟨rfl, rfl, rfl⟩⟩
    refine hm.heaps.newFrame hg hq (Heaps.paired_keyword hq (.inr rfl) _) fun name v hv => ?_
    rw [Bindings.get?_insert] at hv
    split at hv
    · obtain rfl := Option.some.inj hv
      exact World.fine_of_ne fun _ hf => by cases hf
    · cases hv

/-- A class is declared once its superclass is known. -/
theorem sim_declared (parent : Option ClassId) {q : S.Place} {name name' : Ident}
    {ms ms' : List Method} (hf : w.sites f f' p) (hname : S.Declares p name name')
    (htext : name'.text = name.text) (hq : if parent.isSome then S.inside p q else q = p)
    (hkin : KinMethods S.toKinship q ms ms') :
    Sim S w f f'
      (do
        define name.text .nil
        let frame ← methodFrame parent
        let table ← onHeap (methodTable frame ms .empty)
        let id ← onHeap (·.newClass ⟨name.text, parent, table⟩)
        define name.text (.class_ id))
      (do
        define name'.text .nil
        let frame ← methodFrame parent
        let table ← onHeap (methodTable frame ms' .empty)
        let id ← onHeap (·.newClass ⟨name'.text, parent, table⟩)
        define name'.text (.class_ id))
      fun _ _ _ => True := by
  refine (sim_define hf hname.text (World.fine_of_ne fun _ h => by cases h)).bind
    fun w₁ _ _ hgrows₁ _ => ?_
  refine (sim_methodFrame (hgrows₁.sites f f' p hf) hq).bind fun w₂ g g' hgrows₂ hg => ?_
  refine (sim_onHeap (Q := Same fun w table => ∀ name g, table.get? name = some g → w.methods g)
    fun m m' hm => ?_).bindSame fun w₃ table hgrows₃ htable => ?_
  · obtain ⟨w', hgrows, hsame, hheaps, hmethods⟩ :=
      hm.heaps.methodTable hkin .empty hg fun _ _ h => by cases h
    exact ⟨w', hgrows, hheaps, hsame, hmethods⟩
  rw [htext]
  refine (sim_onHeap (Q := Same fun _ _ => True) fun m m' hm => ⟨w₃, .refl w₃,
    hm.heaps.newClass ⟨name.text, parent, table⟩ htable, ?_, trivial⟩).bindSame
      fun w₄ c hgrows₄ _ => ?_
  · exact congrArg (fun classes => ClassId.mk (Array.size classes)) hm.heaps.alike.classes
  have hgrows := hgrows₁.trans (hgrows₂.trans (hgrows₃.trans hgrows₄))
  have hdeclare := hname.text
  rw [htext] at hdeclare
  exact sim_define (hgrows.sites f f' p hf) hdeclare (World.fine_of_ne fun _ h => by cases h)

end Lox.Twin
