import Lox.Proofs.Session.Scopes
import Lox.Proofs.Watch.Dispatch

/-! # Methods find their instance and their superclass

Wherever a session evaluates `this`, it is the instance of the innermost method
around the place, and `super` looks for methods from the class that was the
superclass when the class around the place was declared. -/

namespace Lox

open Scope (ClassKind Placed.expr Placed.stmts)
open Grammar (Named)

namespace Watch

/-! ## Points -/

/-- What `super` yields for an instance and the class that methods are looked for from: the nearest
definition, bound to the instance, or an error if there is none. -/
structure SuperYields (m : Machine) (i : InstanceId) (c : ClassId) (id : Nat) (keyword : Span)
    (name : Ident) : Prop where
  found : ∀ f, m.heap.Nearest name.text c f → ∃ method, m.heap.function? f = some method ∧
    ∀ fuel, Eval.expr (fuel + 1) (.super id keyword name) m =
      .ok (.function ⟨m.heap.functions.size⟩)
        { m with heap := ((m.heap.bind method i).2.newFunction (m.heap.bind method i).1).2 }
  absent : (∀ f, ¬ m.heap.Nearest name.text c f) →
    ∀ fuel, Eval.expr (fuel + 1) (.super id keyword name) m =
      Run.fail (.undefinedProperty name.text) name.span m

/-- A use of `this` yields the instance of the innermost method around it. A use of `super` looks
for methods from the superclass of the class that this method stands in. -/
structure Point.Dispatches (p : Point) : Prop where
  this : ∀ id, p.event = .use id "this" → ∃ i outer, method? p.scene.ribs = some (i, outer) ∧
    ∀ fuel span, Eval.expr (fuel + 1) (.this id span) p.machine = .ok (.instance_ i) p.machine
  super : ∀ id, p.event = .use id "super" → ∃ i rib c outer,
    method? p.scene.ribs = some (i, rib :: outer) ∧ rib.origin = .superclass c ∧
      ∀ keyword name, SuperYields p.machine i c id keyword name

variable {p : Point} {id : Nat} {name : String}

/-- Where scopes are mirrored by frames, the record for a use leads to the first scope that
declares its name. -/
theorem Point.Right.found (hp : p.Right) (hevent : p.event = .use id name) {inner outer : List Rib}
    {rib : Rib} (hribs : p.scene.ribs = inner ++ rib :: outer)
    (hinner : ∀ r ∈ inner, name ∉ r.names) (hrib : name ∈ rib.names) :
    p.machine.resolutions.find? id = some inner.length := by
  have hright := hp id name hevent
  cases hfound : p.machine.resolutions.find? id with
  | none =>
    rw [hfound] at hright
    refine absurd hrib (hright rib ?_)
    rw [hribs]
    exact List.mem_append_right _ List.mem_cons_self
  | some hops =>
    rw [hfound] at hright
    obtain ⟨r, hleads⟩ := hright
    have hplace := hleads.place
    have hnearest := hleads.nearest
    rw [hribs] at hplace hnearest
    rw [place_of_nearest hinner hrib hplace hleads.declares hnearest]

theorem expr_this {m : Machine} {hops : Nat} {frame : FrameId} {v : Value}
    (hfound : m.resolutions.find? id = some hops)
    (hframe : m.heap.ancestor? m.current hops = some frame)
    (hv : m.heap.get? frame "this" = some v) (fuel : Nat) (span : Span) :
    Eval.expr (fuel + 1) (.this id span) m = .ok v m := by
  have hread : m.readVariable id "this" = some v := by
    unfold Machine.readVariable Machine.frameOf?
    rw [hfound]
    dsimp only
    rw [hframe]
    exact hv
  show Run.orElseFail (m.readVariable id "this") _ span m = _
  rw [hread]
  rfl

/-- Once instance and class are found, `super` is the lookup of a method. -/
theorem expr_super {m : Machine} {hops : Nat} {outer inner : FrameId} {c : ClassId}
    {i : InstanceId} (hfound : m.resolutions.find? id = some (hops + 1))
    (houter : m.heap.ancestor? m.current (hops + 1) = some outer)
    (hc : m.heap.get? outer "super" = some (.class_ c))
    (hinner : m.heap.ancestor? m.current hops = some inner)
    (hi : m.heap.get? inner "this" = some (.instance_ i)) (fuel : Nat) (keyword : Span)
    (name : Ident) : Eval.expr (fuel + 1) (.super id keyword name) m =
      Eval.boundMethod (m.heap.findMethod? c name.text) i name m := by
  have hsuper : m.heap.getAt? m.current (hops + 1) "super" = some (.class_ c) := by
    rw [Heap.getAt?, houter]
    exact hc
  have hthis : m.heap.getAt? m.current hops "this" = some (.instance_ i) := by
    rw [Heap.getAt?, hinner]
    exact hi
  have hclass : Eval.superClass (hops + 1) keyword m = .ok c m := by
    unfold Eval.superClass
    rw [Run.ask_bind, hsuper]
    rfl
  have hinstance : Eval.superInstance (hops + 1) keyword m = .ok i m := by
    unfold Eval.superInstance
    rw [Run.ask_bind]
    dsimp only
    rw [hthis]
    rfl
  show Eval.superMethod id keyword name m = _
  unfold Eval.superMethod
  rw [Run.ask_bind, hfound, Run.orElseFail_some, Run.pure_bind, bind_of_ok hclass,
    bind_of_ok hinstance, Run.ask_bind]

theorem superYields_of {m : Machine} {c : ClassId} {i : InstanceId} {keyword : Span} {name : Ident}
    (holder : m.heap.Older)
    (hmethods : ∀ c name f, m.heap.findMethod? c name = some f →
      ∃ object, m.heap.function? f = some object)
    (hexpr : ∀ fuel, Eval.expr (fuel + 1) (.super id keyword name) m =
      Eval.boundMethod (m.heap.findMethod? c name.text) i name m) :
    SuperYields m i c id keyword name := by
  constructor
  · intro f hf
    have hfind := (Heap.findMethod?_iff_nearest holder).mpr hf
    obtain ⟨method, hmethod⟩ := hmethods c name.text f hfind
    refine ⟨method, hmethod, fun fuel => ?_⟩
    rw [hexpr, boundMethod_eq, hfind, Option.bind_some, hmethod]
    rfl
  · intro hnone fuel
    have hfind : m.heap.findMethod? c name.text = none := by
      rw [Option.eq_none_iff_forall_not_mem]
      exact fun f hf => hnone f ((Heap.findMethod?_iff_nearest holder).mp hf)
    rw [hexpr, boundMethod_eq, hfind]
    rfl

/-- Where scopes are mirrored by frames and uses stand in classes, methods find their instance and
their superclass. -/
theorem Point.Seated.dispatches (hseated : p.Seated) (hright : p.Right) : p.Dispatches := by
  constructor
  · intro id hevent
    obtain ⟨k, hk, hstanding⟩ := hseated.this id hevent
    obtain ⟨inner, rib, i, around, outer, hribs, hmethod, hnamed, hreceives, -⟩ :=
      hstanding.inMethod hk
    have hinner : ∀ r ∈ inner, "this" ∉ r.names := fun r hr hmem =>
      (hnamed r hr "this" hmem).ne .this rfl
    have hplace : p.scene.ribs[inner.length]? = some rib := by
      rw [hribs, List.getElem?_append_right (Nat.le_refl _), Nat.sub_self]
      rfl
    exact ⟨i, outer, hmethod, expr_this (hright.found hevent hribs hinner hreceives.this)
      (hstanding.linked.ancestor hplace) hreceives.bound⟩
  · intro id hevent
    have hstanding := hseated.super id hevent
    obtain ⟨inner, rib, i, around, outer, hribs, hmethod, hnamed, hreceives, houter⟩ :=
      hstanding.inMethod nofun
    cases houter with
    | @subclass _ _ above rest c hinherits _ _ =>
      have hribs' : p.scene.ribs = (inner ++ [rib]) ++ above :: rest := by
        rw [hribs, List.append_assoc]
        rfl
      have hlength : (inner ++ [rib]).length = inner.length + 1 := by simp
      have hinner : ∀ r ∈ inner ++ [rib], "super" ∉ r.names := by
        intro r hr hmem
        rcases List.mem_append.mp hr with hr | hr
        · exact (hnamed r hr "super" hmem).ne .super rfl
        · obtain rfl := List.mem_singleton.mp hr
          exact hreceives.others hmem
      have hfound := hright.found hevent hribs' hinner hinherits.super
      rw [hlength] at hfound
      have hplace : p.scene.ribs[inner.length]? = some rib := by
        rw [hribs, List.getElem?_append_right (Nat.le_refl _), Nat.sub_self]
        rfl
      have habove : p.scene.ribs[inner.length + 1]? = some above := by
        rw [hribs', ← hlength, List.getElem?_append_right (Nat.le_refl _), Nat.sub_self]
        rfl
      refine ⟨i, above, c, rest, hmethod, hinherits.origin, fun keyword name => ?_⟩
      exact superYields_of hseated.older hseated.methods fun fuel =>
        expr_super hfound (hstanding.linked.ancestor habove) hinherits.bound
          (hstanding.linked.ancestor hplace) hreceives.bound fuel keyword name

/-! ## Inputs -/

variable {α : Type}

/-- What an input was read as stands outside of classes. -/
def Placed (first : Nat) : Input → Prop
  | .program source => Placed.stmts .none (readProgram source first).value
  | .expression source => ∀ e, (readExpression source first).value = some e →
    Placed.expr .none e

theorem upholds_attempt {P : Record → Prop} {w : Watched α} {Q : α → Record → Prop}
    (h : Upholds P w Q) :
    Upholds P (attempt w) fun outcome =>
      (Trait.pure (∀ d, outcome = .error d → Expected d)).holds := by
  refine ⟨Advances.attempt h.grows, fun t ht hp => ?_⟩
  rw [ends_attempt]
  refine (h.ends t ht hp).imp (fun _ _ hu hgiven => ?_) fun stop _ hu => ?_
  · exact ⟨(hu hgiven).1, fun _ herror => by cases herror⟩
  · cases stop with
    | failed diagnostic =>
      refine fun hgiven => ⟨(hu hgiven).1, ?_⟩
      rintro _ ⟨⟩
      exact (hu hgiven).2 diagnostic rfl
    | outOfFuel => exact hu

/-- Whatever error ends a program, it is an expected one. -/
theorem upholds_program (fuel : Nat) (ss : List Stmt) (flows : Array Flow) :
    Upholds (Trait.here [] (Placed.stmts · ss)).holds (program fuel flows ss)
      fun completion => (Trait.pure (∀ d ∈ completion.error, Expected d)).holds := by
  induction ss generalizing flows with
  | nil => exact upholds_pure fun _ _ _ h => by cases h
  | cons s rest ih =>
    have hstmt := ((upholdsWithin fuel).stmt .outermost s).weaken
      (O := (Trait.here [] (Placed.stmts · (s :: rest))).holds)
      fun t h => Trait.here_imp h fun _ h => h.1
    refine (upholds_attempt hstmt).bind fun outcome => ?_
    cases outcome with
    | ok flow =>
      exact (ih (flows.push flow)).weaken fun t h => Trait.here_imp h.1 fun _ h => h.2
    | error diagnostic =>
      refine upholds_pure fun _ h => ?_
      rintro _ ⟨⟩
      exact h.2 diagnostic rfl

theorem upholds_echo (fuel : Nat) (e : Expr) :
    Upholds (Trait.here [] (Placed.expr · e)).holds (echo fuel e)
      fun _ => (Trait.pure True).holds := by
  refine ((upholdsWithin fuel).expr .outermost e).bind fun v => ?_
  exact upholds_ask (M := fun _ _ => True) (fun _ _ _ => trivial) fun text =>
    upholds_writeLine text

theorem upholds_execute (fuel : Nat) (ss : List Stmt) :
    Upholds (Trait.here [] (Placed.stmts · ss)).holds (execute fuel ss)
      fun outcome => (Trait.pure (∀ d ∈ outcome, Expected d)).holds := by
  have hstatements := (upholds_program fuel ss #[]).seq fun completion =>
    upholds_pure (a := completion.error)
      (Q := fun outcome => (Trait.pure (∀ d ∈ outcome, Expected d)).holds) fun _ h => h
  rcases ss with _ | ⟨s, _ | ⟨s', rest⟩⟩
  · exact hstatements
  · cases s with
    | expression e =>
      have hecho := (upholds_echo fuel e).weaken
        (O := (Trait.here [] (Placed.stmts · [.expression e])).holds)
        fun t h => Trait.here_imp h fun _ h => h.1
      refine (upholds_attempt hecho).seq fun outcome => ?_
      cases outcome with
      | ok _ => exact upholds_pure fun _ _ _ h => by cases h
      | error diagnostic =>
        refine upholds_pure fun _ h => ?_
        rintro _ ⟨⟩
        exact h diagnostic rfl
    | _ => exact hstatements
  · cases s <;> exact hstatements

theorem Upholds.map {β : Type} {P : Record → Prop} {w : Watched α} {p : α → Prop} {q : β → Prop}
    (h : Upholds P w fun a => (Trait.pure (p a)).holds) {f : α → β} (hf : ∀ a, p a → q (f a)) :
    Upholds P (f <$> w) fun b => (Trait.pure (q b)).holds := by
  rw [map_eq_pure_bind]
  exact h.seq fun a => upholds_pure fun _ ha => hf a ha

/-- An answer tells of expected errors only. -/
def AnswersExpected (a : Answer) : Prop := ∀ d ∈ a.faults.runtime, Expected d

theorem expected_add {told : Report} {d : Diagnostic} (h : told.runtime = #[]) (hd : Expected d) :
    ∀ d' ∈ (told.add d).runtime, Expected d' := by
  unfold Report.add
  split
  · rw [h]
    exact fun _ hmem => absurd hmem (Array.not_mem_empty _)
  · dsimp only
    rw [h]
    intro d' hmem
    obtain rfl : d' = d := by simpa using hmem
    exact hd

theorem expected_report {told : Report} (h : told.runtime = #[]) : AnswersExpected (.report told) := by
  unfold AnswersExpected Answer.faults
  dsimp only
  rw [h]
  exact fun _ hmem => absurd hmem (Array.not_mem_empty _)

/-- What is done with an input leads to expected errors only, if the text had none at all. -/
theorem upholds_task (fuel : Nat) (input : Input) (first : Nat) (hplaced : Placed first input) :
    Upholds (Trait.here [] (· = .none)).holds (task fuel input first)
      fun a => (Trait.pure (AnswersExpected a)).holds := by
  cases input with
  | program source =>
    have hruntime : ((readProgram source first).report.addAll
        (Scope.program (readProgram source first).value).errors).runtime = #[] :=
      (Report.runtime_addAll ((draft_fair fuel first (.program source)).static _ rfl)).trans
        (readProgram_runtime source first)
    refine ((upholds_execute fuel _).map fun outcome houtcome => ?_).weaken
      fun t h => Trait.here_imp h fun k hk => ?_
    · cases outcome with
      | none => exact expected_report hruntime
      | some d => exact expected_add hruntime (houtcome d rfl)
    · rw [hk]
      exact hplaced
  | expression source =>
    unfold task
    dsimp only
    cases hvalue : (readExpression source first).value with
    | none => exact upholds_exhaust
    | some e =>
      have hruntime : ((readExpression source first).report.addAll
          (Scope.wholeExpression e).errors).runtime = #[] := by
        refine (Report.runtime_addAll ?_).trans (readExpression_runtime source first)
        refine (draft_fair fuel first (.expression source)).static _ ?_
        show (readExpression source first).value.map Scope.wholeExpression = _
        rw [hvalue]
        rfl
      refine ((upholds_attempt ((upholdsWithin fuel).expr .outermost e)).map
        fun outcome houtcome => ?_).weaken fun t h => Trait.here_imp h fun k hk => ?_
      · cases outcome with
        | ok v => exact fun _ hmem => absurd hmem (Array.not_mem_empty _)
        | error d => exact expected_add hruntime (houtcome d rfl)
      · rw [hk]
        exact hplaced e hvalue

/-- An input with which nothing is wrong has `this` and `super` in classes only. -/
theorem placed_draft {fuel first : Nat} {input : Input} {walk : Scope.Walk}
    (hwalk : (input.draft fuel first).walk = some walk)
    (hread : (input.draft fuel first).report.hadError = false)
    (hscope : ((input.draft fuel first).report.addAll walk.errors).hadError = false) :
    Placed first input := by
  have hclean := (Report.clean_of_addAll
    ((draft_fair fuel first input).static walk hwalk) hscope).2
  cases input with
  | program source =>
    obtain rfl := Option.some.inj hwalk
    exact Scope.placed_stmts _ (named_readProgram hread) (congrArg Array.size hclean)
  | expression source =>
    intro e he
    obtain ⟨e', he', rfl⟩ := Option.map_eq_some_iff.mp hwalk
    obtain rfl := Option.some.inj (he.symm.trans he')
    exact Scope.placed_expr _ (named_readExpression hread he) (congrArg Array.size hclean)

/-! ## Courses -/

namespace Course

/-- Between two inputs everything stands where it should. -/
structure Upright (c : Course) : Prop where
  record : c.record.Upright
  outermost : c.record.machine.current = c.record.machine.globals

variable {c : Course}

/-- An input leads from an upright course to an upright one, and the answer tells of expected
errors only. -/
theorem Upright.take (hc : c.Upright) (fuel : Nat) (input : Input)
    (hgiven : (c.take fuel input).2.record.Given) :
    (c.take fuel input).2.Upright ∧ ∀ a ∈ (c.take fuel input).1, AnswersExpected a := by
  have hfair := draft_fair fuel c.nextId input
  have hkept : ∀ s : Session, s.machine.heap = c.record.machine.heap →
      s.machine.globals = c.record.machine.globals →
      s.machine.current = c.record.machine.current → (c.become s).Upright := by
    intro s hheap hglobals hcurrent
    refine ⟨⟨?_, hc.record.points, hc.record.housed⟩,
      hcurrent.trans (hc.outermost.trans hglobals.symm)⟩
    show Proper s.machine.globals s.machine.heap c.record.homes
    rw [hheap, hglobals]
    exact hc.record.proper
  have hrefused : ∀ told : Report, told.runtime = #[] →
      ∀ a ∈ some ((input.draft fuel c.nextId).refuse told), AnswersExpected a := by
    rintro told htold _ ⟨⟩ d hd
    rw [hfair.refuse told, htold] at hd
    exact absurd hd (Array.not_mem_empty d)
  unfold Course.take at hgiven ⊢
  dsimp only at hgiven ⊢
  cases hwalk : (input.draft fuel c.nextId).walk with
  | none => exact ⟨hkept _ rfl rfl rfl, hrefused _ hfair.runtime⟩
  | some walk =>
    rw [hwalk] at hgiven
    dsimp only at hgiven ⊢
    by_cases hread : (input.draft fuel c.nextId).report.hadError = true
    · rw [if_pos hread]
      exact ⟨hkept _ rfl rfl rfl, hrefused _ hfair.runtime⟩
    rw [if_neg hread] at hgiven ⊢
    by_cases hscope : ((input.draft fuel c.nextId).report.addAll walk.errors).hadError = true
    · rw [if_pos hscope]
      refine ⟨hkept _ rfl rfl rfl, hrefused _ ?_⟩
      exact (Report.runtime_addAll (hfair.static walk hwalk)).trans hfair.runtime
    rw [if_neg hscope] at hgiven ⊢
    have htask := upholds_task fuel input c.nextId
      (placed_draft hwalk (Bool.not_eq_true _ ▸ hread) (Bool.not_eq_true _ ▸ hscope))
    have hgrows := htask.grows { c.record with machine := Session.recording c.record.machine walk }
    have hends := htask.ends { c.record with machine := Session.recording c.record.machine walk }
      ⟨hc.record.proper, hc.record.points, hc.record.housed⟩ ⟨.none, hc.outermost ▸ .outermost, rfl⟩
    have hdone : ∀ t : Record,
        Record.Before { c.record with machine := Session.recording c.record.machine walk } t →
        t.Upright → Upright ⟨t, (input.draft fuel c.nextId).nextId⟩ := fun t hb ht =>
      ⟨ht, hb.current.trans (hc.outermost.trans hb.globals.symm)⟩
    unfold Ends at hgrows hends
    cases hr : task fuel input c.nextId
        { c.record with machine := Session.recording c.record.machine walk } with
    | ok a t =>
      rw [hr] at hgiven hgrows hends
      refine ⟨hdone t hgrows (hends hgiven).1.2, ?_⟩
      rintro _ ⟨⟩
      exact (hends hgiven).2
    | error stop t =>
      rw [hr] at hgiven hgrows hends
      exact ⟨hdone t hgrows (hends hgiven).1.2, fun _ h => by cases h⟩

theorem Upright.takeAll_expected (hc : c.Upright) (inputs : List (Nat × Input))
    (hgiven : (c.takeAll inputs).2.record.Given) :
    (c.takeAll inputs).2.Upright ∧ ∀ as ∈ (c.takeAll inputs).1, ∀ a ∈ as, AnswersExpected a := by
  induction inputs generalizing c with
  | nil =>
    refine ⟨hc, ?_⟩
    rintro _ ⟨⟩ a ha
    cases ha
  | cons head rest ih =>
    obtain ⟨fuel, input⟩ := head
    have hfirst := hc.take fuel input
    rw [Course.takeAll] at hgiven ⊢
    cases hr : c.take fuel input with
    | mk a? c' =>
      rw [hr] at hgiven hfirst
      cases a? with
      | none => exact ⟨(hfirst hgiven).1, fun _ h => by cases h⟩
      | some a =>
        have hgoesOn := takeAll_goesOn rest c'
        obtain ⟨hc', ha⟩ := hfirst (hgiven.of_kept hgoesOn.homes hgoesOn.points)
        obtain ⟨hend, hrest⟩ := ih hc' hgiven
        refine ⟨hend, fun as has => ?_⟩
        obtain ⟨more, hmore, rfl⟩ := Option.map_eq_some_iff.mp has
        exact List.forall_mem_cons.mpr ⟨ha a rfl, hrest more hmore⟩

theorem Upright.takeAll (hc : c.Upright) (inputs : List (Nat × Input))
    (hgiven : (c.takeAll inputs).2.record.Given) : (c.takeAll inputs).2.Upright :=
  (hc.takeAll_expected inputs hgiven).1

/-- Before there are functions any name may be bound. -/
theorem proper_defineNative {s : Session}
    (hs : Proper s.machine.globals s.machine.heap #[]) (n : Native) :
    Proper (s.defineNative n).machine.globals (s.defineNative n).machine.heap #[] where
  size := hs.size
  functions f object home _ hhome := by cases hhome
  values f name v hv := by
    change ((s.machine.heap.newNative ⟨n.name, n.arity⟩).2.define s.machine.globals n.name
      (.native _)).get? f name = some v at hv
    rw [Heap.get?_define] at hv
    split at hv
    · obtain rfl := Option.some.inj hv
      exact sane_of_data nofun nofun
    · exact hs.values f name v hv
  fields := hs.fields
  methods := hs.methods
  older := hs.older

theorem proper_bare (sink : Sink) (reading : Nat → Float) :
    Proper (Machine.bare sink reading).globals (Machine.bare sink reading).heap #[] where
  size := rfl
  functions f object home _ hhome := by cases hhome
  values f name v hv := by
    change (Heap.empty.newFrame none .empty).2.get? f name = some v at hv
    rw [Heap.get?_newFrame] at hv
    split at hv <;> cases hv
  fields i name v hv := by cases hv
  methods c name f hf := by cases hf
  older c parent habove := by cases habove

theorem upright_start (sink : Sink) (reading : Nat → Float) (natives : List Native) :
    (start ((Session.start sink reading).withNatives natives)).Upright := by
  have hnatives : ∀ s : Session, Proper s.machine.globals s.machine.heap #[] →
      Proper (s.withNatives natives).machine.globals (s.withNatives natives).machine.heap #[] := by
    unfold Session.withNatives
    induction natives with
    | nil => exact fun _ hs => hs
    | cons n rest ih => exact fun s hs => ih (s.defineNative n) (proper_defineNative hs n)
  have hbare : Proper (Session.start sink reading).machine.globals
      (Session.start sink reading).machine.heap #[] :=
    proper_defineNative (s := ⟨Machine.bare sink reading, 0⟩) (proper_bare sink reading) .clock
  have hidle := Session.idle_withNatives natives (Session.idle_start sink reading)
  exact ⟨⟨hnatives _ hbare, fun p hp => absurd hp (Array.not_mem_empty p),
    fun p hp => absurd hp (Array.not_mem_empty p)⟩, hidle.current⟩

end Course
end Watch

/-! ## The main statement -/

open Watch in
/-- **`this` and `super` dispatch.** A session with any functions of the host takes any inputs, and
what these functions hand out are classes that exist, functions that are no methods without an
instance, or other values. Then at every point at which `this` is used, evaluating it yields the
instance that the innermost method around the point was bound to. At every point at which `super`
is used, evaluating it yields the nearest definition of the method, looked for from the class that
was the superclass when the class around the point was declared and bound to that same instance,
and it fails exactly when there is none, because the property is undefined. The session that is
watched is the session itself. -/
theorem this_and_super_dispatch {sink : Sink} {reading : Nat → Float} {natives : List Native}
    {inputs : List (Nat × Input)} {as : Option (List Answer)} {c : Course}
    (hcourse : (Course.start ((Session.start sink reading).withNatives natives)).takeAll inputs =
      (as, c)) (hgiven : c.record.Given) :
    (∀ p ∈ c.record.points, p.Dispatches) ∧
      Session.answers inputs ((Session.start sink reading).withNatives natives) =
        as.map fun as => (as, c.session) := by
  have hgood := (Course.good_start sink reading natives).takeAll inputs
  have hupright := (Course.upright_start sink reading natives).takeAll inputs
  have hanswers := Course.answers_eq_takeAll inputs
    (Course.start ((Session.start sink reading).withNatives natives))
  rw [hcourse] at hgood hupright hanswers
  have hright := (hgood hgiven.lent).record.points
  have hseated := (hupright hgiven).record.points
  exact ⟨fun p hp => (hseated p hp).dispatches (hright p hp), hanswers⟩

open Watch in
/-- The first expression uses `super` in a class whose superclass is the first one, on an instance
of the third. -/
def Watch.Point.usesInherited (p : Point) : Bool :=
  match p.event, method? p.scene.ribs with
  | .use id name, some (i, rib :: _) =>
    match rib.origin with
    | .superclass c => id = 1 && name = "super" && c = ⟨0⟩ &&
      p.machine.heap.classOf? i = some ⟨2⟩
    | _ => false
  | _, _ => false

open Watch in
/-- A function that uses `super` in an inherited method is kept in a field and called from a later
input: its instance is of the third class, and methods are looked for from the first one. -/
theorem this_and_super_dispatch_later :
    let inputs : List (Nat × Input) := [
      (40, .program "class A \x7b m() \x7b print \"A\"; \x7d \x7d
        class B < A \x7b n() \x7b return fun () \x7b super.m(); return this; \x7d; \x7d \x7d"),
      (40, .program "class C < B \x7b m() \x7b print \"C\"; \x7d \x7d
        var c = C(); c.f = c.n();"),
      (40, .program "var last = c.f().m();")]
    ∃ as c, (Course.start ((Session.start .reliable fun _ => 0).withNatives
          Native.extras)).takeAll inputs = (some as, c) ∧ c.record.Given ∧
      (∀ p ∈ c.record.points, p.Dispatches) ∧
      Session.answers inputs ((Session.start .reliable fun _ => 0).withNatives Native.extras) =
        some (as, c.session) ∧
      c.session.machine.sink.lines = #["A", "C"] ∧
      ∃ p ∈ c.record.points, p.event = .use 1 "super" ∧ ∃ i rib outer,
        method? p.scene.ribs = some (i, rib :: outer) ∧ rib.origin = .superclass ⟨0⟩ ∧
          p.machine.heap.classOf? i = some ⟨2⟩ := by
  intro inputs
  have hrun : ((Course.start ((Session.start .reliable fun _ => 0).withNatives
      Native.extras)).takeAll inputs).1.isSome = true ∧
        ((Course.start ((Session.start .reliable fun _ => 0).withNatives
          Native.extras)).takeAll inputs).2.record.Given ∧
        ((Course.start ((Session.start .reliable fun _ => 0).withNatives
          Native.extras)).takeAll inputs).2.session.machine.sink.lines = #["A", "C"] ∧
        ((Course.start ((Session.start .reliable fun _ => 0).withNatives
          Native.extras)).takeAll inputs).2.record.points.toList.any Point.usesInherited = true := by
    decide +kernel
  cases hcourse : (Course.start ((Session.start .reliable fun _ => 0).withNatives
      Native.extras)).takeAll inputs with
  | mk as? c =>
    rw [hcourse] at hrun
    obtain ⟨hsome, hgiven, hlines, hlate⟩ := hrun
    obtain ⟨as, rfl⟩ := Option.isSome_iff_exists.mp hsome
    obtain ⟨hdispatches, hanswers⟩ := this_and_super_dispatch hcourse hgiven
    refine ⟨as, c, rfl, hgiven, hdispatches, hanswers, hlines, ?_⟩
    obtain ⟨p, hp, hat⟩ := List.any_eq_true.mp hlate
    refine ⟨p, Array.mem_toList_iff.mp hp, ?_⟩
    unfold Point.usesInherited at hat
    split at hat
    · next id name i rib outer hevent hmethod =>
      split at hat
      · next c horigin =>
        simp only [Bool.and_eq_true, decide_eq_true_eq] at hat
        obtain ⟨⟨⟨rfl, rfl⟩, rfl⟩, hclass⟩ := hat
        exact ⟨hevent, i, rib, outer, hmethod, horigin, hclass⟩
      · cases hat
    · cases hat

end Lox
