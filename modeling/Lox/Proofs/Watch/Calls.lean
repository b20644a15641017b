import Lox.Proofs.Eval.Data
import Lox.Proofs.Watch.Objects

/-! # What calls tell

A call runs a body in a new frame inside the one that the function closes over.
The parameters are bound there, one to each argument, so that from the first
statement on the scope of the call is mirrored by its frame. -/

namespace Lox.Watch

open Scope (Known)

variable {α : Type} {K : Known} {P : Record → Prop} {F : Fact} {w : Watched α}

/-! ## Running elsewhere -/

/-- What a piece of program with the property `p` may rely on in these scopes. -/
def Fact.stands (p : Prop) (ribs : List Rib) : Fact := (Fact.pure p).and (Fact.here ribs)

/-- A body is run in another frame, which mirrors its scopes. -/
theorem Tells.within {p : Prop} {ribs : List Rib} {values : α → List Value}
    (h : Tells K (Fact.stands p ribs).holds w fun a => (Fact.fine (values a)).holds)
    (frame : FrameId) :
    Tells K ((Fact.pure p).and (Fact.chain frame ribs)).holds (within frame w)
      fun a => (Fact.fine (values a)).holds := by
  constructor
  · exact Advances.within h.grows frame
  · intro t ht hp
    rw [ends_within]
    have hback : ∀ u : Record, u.Good K →
        Record.Good K { u with machine := { u.machine with current := t.machine.current } } :=
      fun u hu => ⟨hu.records, hu.sound, hu.completed, hu.points⟩
    have hinside := h.ends { t with machine := { t.machine with current := frame } }
      ⟨ht.records, ht.sound, ht.completed, ht.points⟩ hp
    refine hinside.imp (fun a u hu hlent => ?_) fun _ u hu hlent => hback u (hu hlent)
    obtain ⟨hgood, hfine⟩ := hu hlent
    exact ⟨hback u hgood, hfine⟩

/-- The depth of calls says nothing about the rest of a record. -/
theorem Record.alike_depth (t : Record) (depth : Nat) :
    t.Alike { t with machine := { t.machine with callDepth := depth } } :=
  ⟨rfl, rfl, rfl, rfl, rfl, rfl, rfl⟩

theorem Advances.called (h : Advances w) (callee : Value) (count : Nat) (paren : Span) :
    Advances (do
      lift (Eval.checkCall callee count paren)
      asCall w) := by
  intro t
  rw [ends_bind, ends_lift]
  refine (Eval.checkCall_ends callee count paren t.machine).imp (fun _ m hm => ?_)
    fun _ m hm => by rw [hm]; exact .refl t
  obtain ⟨rfl, -, -⟩ := hm
  rw [ends_asCall]
  have hin := (t.alike_depth (t.machine.callDepth + 1)).before
  exact (h _).imp (fun _ u hu => (hin.trans hu).trans (u.alike_depth _).before)
    fun _ u hu => (hin.trans hu).trans (u.alike_depth _).before

/-- What is called is run with as many arguments as it takes. -/
theorem Tells.called {G : α → Fact} {callee : Value} {count : Nat}
    (h : Tells K (fun t => F.holds t ∧ t.machine.heap.arity? callee = some count) w
      fun a => (G a).holds) (paren : Span) :
    Tells K F.holds (do
      lift (Eval.checkCall callee count paren)
      asCall w) fun a => (G a).holds := by
  constructor
  · exact Advances.called h.grows callee count paren
  · intro t ht hp
    rw [ends_bind, ends_lift]
    refine (Eval.checkCall_ends callee count paren t.machine).imp (fun _ m hm => ?_)
      fun _ m hm _ => by rw [hm]; exact ht
    obtain ⟨rfl, -, harity⟩ := hm
    rw [ends_asCall]
    have hin := t.alike_depth (t.machine.callDepth + 1)
    refine (h.ends _ (hin.good ht) ⟨F.stays hin.before hp, harity⟩).imp
      (fun a u hu hlent => ?_) fun _ u hu hlent => (u.alike_depth _).good (hu hlent)
    obtain ⟨hgood, hresult⟩ := hu hlent
    exact ⟨(u.alike_depth _).good hgood, (G a).stays (u.alike_depth _).before hresult⟩

/-! ## Functions of the host -/

/-- A function of the host changes nothing but the clock, and what it hands out is known. -/
theorem callNative_ends (here : Scene) (n : NativeId) (args : List Value) (paren : Span)
    (t : Record) :
    Ends (Run.callNative n args paren) t.machine
      (fun v m => t.Alike { t with machine := m } ∧ ∀ f, v = .function f →
        f ∈ (Point.mk (.run (.native n) args) here t.machine t.completed).lends)
      fun _ m => t.Alike { t with machine := m } := by
  unfold Ends Run.callNative Point.lends
  dsimp only
  cases t.machine.host[n.index]? with
  | none => exact ⟨rfl, rfl, rfl, rfl, rfl, rfl, rfl⟩
  | some code =>
    dsimp only
    cases code ⟨t.machine.heap, t.machine.clock.reading t.machine.clock.reads⟩ args with
    | error words => exact ⟨rfl, rfl, rfl, rfl, rfl, rfl, rfl⟩
    | ok v =>
      refine ⟨⟨rfl, rfl, rfl, rfl, rfl, rfl, rfl⟩, fun f hf => ?_⟩
      subst hf
      rfl

/-- When no method without an instance is handed out, a program can hold what is. -/
theorem tells_native (here : Scene) (n : NativeId) (args : List Value) (paren : Span) :
    Tells K P (do
      mark here (.run (.native n) args)
      lift (Run.callNative n args paren)) fun v => (Fact.fine [v]).holds := by
  constructor
  · intro t
    rw [ends_bind]
    show Ends (lift (Run.callNative n args paren)) (t.noted here (.run (.native n) args)) _ _
    rw [ends_lift]
    have hnoted := t.before_noted here (.run (.native n) args)
    exact (callNative_ends here n args paren (t.noted here _)).imp
      (fun _ _ hm => hnoted.trans hm.1.before) fun _ _ hm => hnoted.trans hm.before
  · intro t ht _
    rw [ends_bind]
    show Ends (lift (Run.callNative n args paren)) (t.noted here (.run (.native n) args)) _ _
    rw [ends_lift]
    have hgood : (t.noted here (.run (.native n) args)).Good K :=
      ht.noted (Point.right_of_ne fun _ _ hevent => by cases hevent)
    refine (callNative_ends here n args paren (t.noted here _)).imp (fun v m hm hlent => ?_)
      fun _ m hm _ => hm.good hgood
    obtain ⟨halike, hlends⟩ := hm
    refine ⟨halike.good hgood, fun w hw f hf => ?_⟩
    obtain rfl := List.mem_singleton.mp hw
    obtain ⟨hlt, hhomes⟩ := hlent _ (Array.mem_push_self ..) f (hlends f hf)
    have hin : f.index < t.homes.size := by
      rw [ht.sound.size]
      exact hlt
    have hhome : t.homes[f.index]? = some t.homes[f.index] := Array.getElem?_eq_getElem hin
    exact ⟨_, hhome, hhomes _ hhome⟩

/-! ## Bodies -/

/-- What is called takes so many arguments, and programs can hold it and them. -/
def Callable (callee : Value) (args : List Value) (t : Record) : Prop :=
  t.machine.heap.arity? callee = some args.length ∧ ∀ v ∈ callee :: args, Fine t.homes v

/-- A function can be run in these scopes. -/
def Fact.body (K : Known) (ribs : List Rib) (f : FunctionObject) (args : List Value) : Fact where
  holds t := (Scope.Addressed.function K (namesOf ribs) f.fn ∧
    f.fn.params.length = args.length) ∧
      Chain t.machine.heap t.machine.globals f.closure ribs ∧ ∀ v ∈ args, Fine t.homes v
  stays hb ht := ⟨ht.1, (Fact.chain f.closure ribs).stays hb ht.2.1,
    (Fact.fine args).stays hb ht.2.2⟩

/-- The values that a finished statement hands on. -/
def valuesOf : Flow → List Value
  | .return_ v => [v]
  | .normal | .break_ => []

theorem tells_callResult {f : FunctionObject} {flow : Flow}
    (hflow : ∀ t, P t → (Fact.fine (valuesOf flow)).holds t) :
    Tells K P (lift (Eval.callResult f flow)) fun v => (Fact.fine [v]).holds := by
  unfold Eval.callResult
  by_cases hinit : f.isInitializer = true
  · rw [if_pos hinit]
    refine tells_step (fun t => t.machine.heap.getAt? f.closure 0 "this") (fun t => t)
      (k := fun found => lift (Run.orElseFail found .initializerUnbound f.fn.span))
      (M := fun found t => ∀ v ∈ found, Fine t.homes v)
      (fun _ => rfl) Record.Before.refl (fun t ht _ => ⟨ht, fun v hv => ?_⟩) fun found => ?_
    · obtain ⟨frame, -, hget⟩ := Option.bind_eq_some_iff.mp hv
      exact ht.sound.values frame "this" v hget
    · refine tells_orElseFail fun v hv t h w hw => ?_
      obtain rfl := List.mem_singleton.mp hw
      exact h w hv
  · rw [if_neg hinit]
    have hnil : ∀ t : Record, (Fact.fine [.nil]).holds t := by
      intro t v hv
      obtain rfl := List.mem_singleton.mp hv
      exact fine_of_ne fun _ hf => by cases hf
    cases flow with
    | normal => exact tells_pure fun t _ => hnil t
    | break_ => exact tells_pure fun t _ => hnil t
    | return_ v => exact tells_pure hflow

end Lox.Watch
