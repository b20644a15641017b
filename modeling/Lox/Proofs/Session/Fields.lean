import Lox.Native
import Lox.Proofs.Ledger.Accounts
import Lox.Proofs.Ledger.Erasure

/-! # Fields change by Set only

A field of an instance comes to be and changes only where a Set expression on this
very instance is evaluated, and never goes away. As long as there is no field, the
name stands for the method that the class of the instance had from the beginning. -/

namespace Lox

/-! ## The beginning of a session -/

namespace Heap

theorem tidy_empty : Heap.empty.Tidy where
  values f name v hv := by simp [get?, empty] at hv
  fields i name v hv := by simp [field?, empty] at hv
  instances i c hc := by simp [classOf?, empty] at hc
  methods c name f hf := by simp [ownMethod?, empty] at hf
  older c parent habove := by simp [superclass?, empty] at habove

theorem Tidy.newNative {h : Heap} (ht : h.Tidy) (n : NativeObject) : (h.newNative n).2.Tidy :=
  ⟨ht.values, ht.fields, ht.instances, ht.methods, ht.older⟩

end Heap

theorem orderly_bare (sink : Sink) (reading : Nat → Float) : (Machine.bare sink reading).Orderly :=
  ⟨Heap.tidy_empty.newFrame none fun name v hv => (by rw [Bindings.get?_empty] at hv; cases hv),
    fun code hcode => absurd hcode (Array.not_mem_empty code)⟩

theorem Machine.Orderly.defineNative {m : Machine} (hm : m.Orderly) {n : Native}
    (hn : n.code.Honest) : (m.defineNative n).Orderly where
  heap := (hm.heap.newNative ⟨n.name, n.arity⟩).define m.globals n.name (Heap.holds_nil _)
  host code hcode := by
    rcases Array.mem_push.mp hcode with hcode | rfl
    · exact hm.host code hcode
    · exact hn

theorem Native.clock_honest : Native.clock.code.Honest := by
  rintro view args v - - hv
  cases hv
  exact Heap.holds_nil _

/-- The functions beside the clock hand out what they were given, a number or a method. -/
theorem Native.extras_honest : ∀ n ∈ Native.extras, n.code.Honest := by
  intro n hn view args v _ hargs hv
  simp only [Native.extras, List.mem_cons, List.not_mem_nil, or_false] at hn
  rcases hn with rfl | rfl | rfl | rfl
  · dsimp only [Native.double] at hv
    split at hv <;> cases hv
    exact Heap.holds_nil _
  · dsimp only [Native.first] at hv
    split at hv <;> cases hv
    exact hargs.sub (by simp)
  · cases hv
  · dsimp only [Native.unbound] at hv
    split at hv
    · split at hv <;> cases hv
      exact Heap.holds_nil _
    · cases hv

theorem orderly_start (sink : Sink) (reading : Nat → Float) {natives : List Native}
    (hnatives : ∀ n ∈ natives, n.code.Honest) :
    ((Session.start sink reading).withNatives natives).machine.Orderly := by
  have hstart : (Session.start sink reading).machine.Orderly :=
    (orderly_bare sink reading).defineNative Native.clock_honest
  unfold Session.withNatives
  generalize Session.start sink reading = s at hstart
  induction natives generalizing s with
  | nil => exact hstart
  | cons n rest ih =>
    obtain ⟨hn, hrest⟩ := List.forall_mem_cons.mp hnatives
    exact ih hrest (s.defineNative n) (hstart.defineNative hn)

/-! ## Chronicles -/

namespace Ledger

namespace Chronicle

theorem carries_goesOn : Carries Machine.Orderly Book.GoesOn where
  refl _ ht := .refl ht
  trans _ _ _ h h' := h.trans h'
  kind _ _ h := h.orderly
  records _ _ ht := (Book.GoesOn.refl ht).excursion rfl rfl rfl
  task fuel input first t ht := by
    have haccounts : Accounts (task fuel input first) [] fun _ => [] :=
      accounts_task fuel input first
    have hends := haccounts.ends t ht (Heap.holds_nil _)
    exact hends.imp (fun _ _ hend => hend.1) fun _ _ hend => hend

/-- From one moment to the same or a later one, with what is booked in between. The machine that
the session has come to is the last moment. -/
def Passes (c : Chronicle) (m : Machine) (entries : List Entry) (m' : Machine) : Prop :=
  ∃ before after,
    c.book.entries ++ [.moment c.book.machine] = before ++ entries ++ .moment m' :: after ∧
      (entries ++ [Entry.moment m']).head? = some (.moment m)

/-- Whether an entry is no moment at which an instance exists. -/
def lacks (i : InstanceId) : Entry → Bool
  | .moment m => (m.heap.classOf? i).isNone
  | .set .. => true

/-- What is booked from the first moment on at which an instance exists. -/
def since (c : Chronicle) (i : InstanceId) : List Entry := c.book.entries.dropWhile (lacks i)

theorem passes_since {c : Chronicle} {i : InstanceId} {m : Machine}
    (h : (c.since i).head? = some (.moment m)) : c.Passes m (c.since i) c.book.machine := by
  refine ⟨c.book.entries.takeWhile (lacks i), [], ?_, ?_⟩
  · rw [since, List.takeWhile_append_dropWhile]
  · rw [List.head?_append, h, Option.some_or]

theorem Passes.explained {s : Session} {inputs : List (Nat × Input)} {m m' : Machine}
    {entries : List Entry} (hs : s.machine.Orderly)
    (hpasses : ((start s).takeAll inputs).2.Passes m entries m') :
    m.Orderly ∧ m'.Orderly ∧ Explains m.heap entries m'.heap := by
  obtain ⟨hend, booked, hbooked, hexplains, -⟩ := carries_goesOn.takeAll inputs (c := start s) hs
  obtain ⟨before, after, hsplit, hfirst⟩ := hpasses
  rw [hbooked] at hsplit
  have hall : Explains s.machine.heap (before ++ entries ++ .moment m' :: after) _ :=
    hsplit ▸ hexplains.append (.moment hend (.nothing _))
  obtain ⟨hbefore, hm', -⟩ := hall.split
  cases entries with
  | nil =>
    obtain rfl := Entry.moment.inj (Option.some.inj hfirst)
    exact ⟨hm', hm', .nothing _⟩
  | cons entry rest =>
    obtain rfl : entry = .moment m := Option.some.inj hfirst
    obtain ⟨-, hm, hrest⟩ := hbefore.split
    exact ⟨hm, hm', .moment hm hrest⟩

theorem takeAll_justified {s : Session} (inputs : List (Nat × Input)) (hs : s.machine.Orderly) :
    Justified ((start s).takeAll inputs).2.book.entries := by
  obtain ⟨-, entries, hentries, -, hjustified⟩ := carries_goesOn.takeAll inputs (c := start s) hs
  rw [hentries]
  exact hjustified

end Chronicle
end Ledger

/-! ## What is read and set -/

section

variable {m m' : Machine} {i : InstanceId} {name : Ident} {v : Value} {method : FunctionObject}
  {object value : Expr} {fuel : Nat} {stop : Stop}

/-- A Get of a name of an instance, once its object has been evaluated. -/
def Machine.Gets (m : Machine) (i : InstanceId) (name : Ident)
    (result : EStateM.Result Stop Machine Value) : Prop :=
  ∀ fuel object m₀, Eval.expr fuel object m₀ = .ok (.instance_ i) m →
    Eval.expr (fuel + 1) (.get object name) m₀ = result

/-- A new function is a method bound to an instance: it closes over a frame of its own, in which
`this` is the instance. No field has changed. -/
structure Machine.Binds (m : Machine) (method : FunctionObject) (i : InstanceId) (f : FunctionId)
    (m' : Machine) : Prop where
  fresh : m.heap.function? f = none
  bound : ∃ frame, m'.heap.function? f = some { method with closure := frame } ∧
    m.heap.frames.size ≤ frame.index ∧ m'.heap.get? frame "this" = some (.instance_ i) ∧
      m'.heap.enclosing? frame = some method.closure
  fields : ∀ j other, m'.heap.field? j other = m.heap.field? j other

theorem Machine.gets_of_property {result : EStateM.Result Stop Machine Value}
    (h : Eval.property (.instance_ i) name m = result) : m.Gets i name result := by
  intro fuel object m₀ hobject
  rw [Eval.expr]
  exact (bind_of_ok hobject).trans h

theorem Machine.gets_field (hv : m.heap.field? i name.text = some v) : m.Gets i name (.ok v m) := by
  refine gets_of_property ?_
  show (Run.ask (fun m => m.heap.field? i name.text) >>= _) m = _
  rw [Run.ask_bind, hv]
  rfl

/-- Where there is no field, the name stands for a method. -/
theorem Eval.property_method (hnone : m.heap.field? i name.text = none) :
    Eval.property (.instance_ i) name m =
      Eval.boundMethod (m.heap.methodOf? i name.text) i name m := by
  show (Run.ask (fun m => m.heap.field? i name.text) >>= _) m = _
  rw [Run.ask_bind, hnone]
  rfl

theorem Machine.gets_method (hnone : m.heap.field? i name.text = none)
    (hmethod : (m.heap.methodOf? i name.text).bind m.heap.function? = some method) :
    ∃ f m', m.Binds method i f m' ∧ m.Gets i name (.ok (.function f) m') := by
  let bound := m.heap.bind method i
  refine ⟨⟨m.heap.functions.size⟩, { m with heap := (bound.2.newFunction bound.1).2 },
    ⟨?_, ⟨⟨m.heap.frames.size⟩, ?_, Nat.le_refl _, ?_, ?_⟩, fun _ _ => rfl⟩, gets_of_property ?_⟩
  · exact Array.getElem?_eq_none (Nat.le_refl _)
  · exact Array.getElem?_push_size
  · exact (m.heap.get?_newFrame (some method.closure) _ _ "this").trans (by simp [Heap.newFrame])
  · exact m.heap.enclosing?_newFrame_self (some method.closure) _
  · rw [Eval.property_method hnone]
    show (Run.ask (fun m' => (m.heap.methodOf? i name.text).bind m'.heap.function?) >>= _) m = _
    rw [Run.ask_bind, hmethod]
    rfl

theorem Machine.gets_undefined (hnone : m.heap.field? i name.text = none)
    (hmethod : (m.heap.methodOf? i name.text).bind m.heap.function? = none) :
    m.Gets i name (Run.fail (.undefinedProperty name.text) name.span m) := by
  refine gets_of_property ?_
  rw [Eval.property_method hnone]
  show (Run.ask (fun m' => (m.heap.methodOf? i name.text).bind m'.heap.function?) >>= _) m = _
  rw [Run.ask_bind, hmethod]
  rfl

/-- A Set that stops leaves what its parts leave: its object has stopped it or is no instance, or
its value has stopped it. -/
inductive Eval.SetStops (fuel : Nat) (object : Expr) (name : Ident) (value : Expr) (m : Machine) :
    Stop → Machine → Prop where
  | object {stop : Stop} {m' : Machine} (stops : Eval.expr fuel object m = .error stop m') :
      SetStops fuel object name value m stop m'
  | target {v : Value} {m' : Machine} (evaluates : Eval.expr fuel object m = .ok v m')
      (other : ∀ i, v ≠ .instance_ i) :
      SetStops fuel object name value m
        (.failed (.located (.execution .fieldOfNonInstance) name.span)) m'
  | value {i : InstanceId} {m₁ m' : Machine} {stop : Stop}
      (evaluates : Eval.expr fuel object m = .ok (.instance_ i) m₁)
      (stops : Eval.expr fuel value m₁ = .error stop m') :
      SetStops fuel object name value m stop m'

theorem Eval.setStops (h : Eval.expr (fuel + 1) (.set object name value) m = .error stop m') :
    Eval.SetStops fuel object name value m stop m' := by
  rw [Eval.expr] at h
  cases hobject : Eval.expr fuel object m with
  | error stop₁ m₁ =>
    rw [bind_of_error hobject] at h
    obtain ⟨rfl, rfl⟩ := EStateM.Result.error.inj h
    exact .object hobject
  | ok o m₁ =>
    rw [bind_of_ok hobject] at h
    cases o with
    | instance_ i =>
      cases hvalue : Eval.expr fuel value m₁ with
      | error stop₂ m₂ =>
        have hstops := (bind_of_error hvalue).symm.trans h
        obtain ⟨rfl, rfl⟩ := EStateM.Result.error.inj hstops
        exact .value hobject hvalue
      | ok v m₂ => cases (bind_of_ok hvalue).symm.trans h
    | _ =>
      obtain ⟨rfl, rfl⟩ := EStateM.Result.error.inj h
      exact .target hobject fun _ heq => by cases heq

end

/-! ## The main statement -/

namespace Ledger

/-- What becomes of a name of an instance from one moment to a later one. -/
structure Follows (m : Machine) (entries : List Entry) (m' : Machine) (i : InstanceId)
    (name : Ident) : Prop where
  /-- The field holds what it was set to last, or else what it held before. -/
  content : m'.heap.field? i name.text =
    (lastSet i name.text entries).or (m.heap.field? i name.text)
  /-- If there is a field, a Get yields what it holds. -/
  field : ∀ v, m'.heap.field? i name.text = some v → m'.Gets i name (.ok v m')
  /-- If there is none, it yields the nearest method, bound to the instance. -/
  method : m'.heap.field? i name.text = none → ∀ method, m.heap.Declares i name.text method →
    ∃ f m'', m'.Binds method i f m'' ∧ m'.Gets i name (.ok (.function f) m'')
  /-- If there is no method either, the property is undefined. -/
  undefined : m'.heap.field? i name.text = none →
    (∀ method, ¬ m.heap.Declares i name.text method) →
      m'.Gets i name (Run.fail (.undefinedProperty name.text) name.span m')

theorem Explains.follows {m m' : Machine} {entries : List Entry} {i : InstanceId} {c : ClassId}
    (hexplains : Explains m.heap entries m'.heap) (hm : m.Orderly) (hm' : m'.Orderly)
    (hi : m.heap.classOf? i = some c) (name : Ident) : Follows m entries m' i name := by
  have hkeeps := hexplains.keeps
  have hdeclares (method : FunctionObject) : m.heap.Declares i name.text method ↔
      (m'.heap.methodOf? i name.text).bind m'.heap.function? = some method := by
    rw [← hkeeps.declares_iff hm.heap hi, hm'.heap.declares_iff (hkeeps.classOf i c hi)]
  refine ⟨hexplains.field hi name.text, fun v hv => Machine.gets_field hv, ?_, ?_⟩
  · intro hnone method hmethod
    exact Machine.gets_method hnone ((hdeclares method).mp hmethod)
  · intro hnone habsent
    refine Machine.gets_undefined hnone (Option.eq_none_iff_forall_not_mem.mpr ?_)
    exact fun method hmethod => habsent method ((hdeclares method).mpr hmethod)

end Ledger

namespace Session

open Ledger in
/-- **Fields change by Set only.** A session with honest functions of the host takes any inputs.
From any moment on, for an instance that exists then and any name, at any later moment the field of
this name holds what it was last set to on this instance in between, or what it held before if it
was not set. So it does not go away, and a Get yields what it holds. As long as there is no field, a
Get yields the nearest method that the classes of the instance declared at the first moment, in a
new function bound to the instance, or fails because the property is undefined. Whatever was set was
set by a Set expression of this name that succeeded on this instance, and a Set that fails leaves
the machine as its parts leave it. The session along with which the ledger is kept is the session
itself. -/
theorem fields_change_by_set {sink : Sink} {reading : Nat → Float} {natives : List Native}
    (hnatives : ∀ n ∈ natives, n.code.Honest) {inputs : List (Nat × Input)}
    {as : Option (List Answer)} {c : Chronicle}
    (hcourse : (Chronicle.start ((start sink reading).withNatives natives)).takeAll inputs = (as, c)) :
    (∀ m entries m', c.Passes m entries m' → ∀ i, (m.heap.classOf? i).isSome = true → ∀ name,
        Follows m entries m' i name) ∧
      Justified c.book.entries ∧
      (∀ fuel object name value m stop m',
        Eval.expr (fuel + 1) (.set object name value) m = .error stop m' →
          Eval.SetStops fuel object name value m stop m') ∧
      answers inputs ((start sink reading).withNatives natives) =
        as.map fun as => (as, c.session) := by
  have hanswers := Chronicle.answers_eq_takeAll inputs
    (Chronicle.start ((start sink reading).withNatives natives))
  rw [hcourse] at hanswers
  have horderly := orderly_start sink reading hnatives
  have hjustified := Chronicle.takeAll_justified inputs horderly
  rw [hcourse] at hjustified
  refine ⟨fun m entries m' hpasses i hi name => ?_, hjustified,
    fun _ _ _ _ _ _ _ h => Eval.setStops h, hanswers⟩
  obtain ⟨cls, hcls⟩ := Option.isSome_iff_exists.mp hi
  have hpassed : ((Chronicle.start ((start sink reading).withNatives natives)).takeAll
      inputs).2.Passes m entries m' := hcourse ▸ hpasses
  obtain ⟨hm, hm', hexplains⟩ := hpassed.explained horderly
  exact hexplains.follows hm hm' hcls name

/-- Whether an entry is a moment at which the first instance is of the second class and has no field
of a name. -/
def fieldless (name : String) : Ledger.Entry → Bool
  | .moment m => m.heap.classOf? ⟨0⟩ = some ⟨1⟩ && m.heap.field? ⟨0⟩ name = none
  | .set .. => false

open Ledger in
/-- An instance has a method of a class above its own, then a field that is set through another
variable after one Set has failed, while another instance gets a field of that name too. -/
theorem fields_change_by_set_alias :
    let inputs : List (Nat × Input) := [
      (40, .program "class A \x7b p() \x7b return \"method\"; \x7d \x7d class B < A \x7b \x7d
        var a = B(); var b = a; print a.p();"),
      (40, .program "nil.p = \"lost\";"),
      (40, .program "b.p = \"field\"; var c = B(); c.p = \"other\"; print a.p;")]
    ∃ as c m entries, (Chronicle.start ((start .reliable fun _ => 0).withNatives
          Native.extras)).takeAll inputs = (some as, c) ∧
      c.session.machine.sink.lines = #["method", "field"] ∧
      c.Passes m entries c.book.machine ∧ m.heap.classOf? ⟨0⟩ = some ⟨1⟩ ∧
      m.heap.field? ⟨0⟩ "p" = none ∧ lastSet ⟨0⟩ "p" entries = some (.string "field") ∧
      ∀ name, Follows m entries c.book.machine ⟨0⟩ name := by
  intro inputs
  have hrun : ((Chronicle.start ((start .reliable fun _ => 0).withNatives
      Native.extras)).takeAll inputs).1.isSome = true ∧
        ((Chronicle.start ((start .reliable fun _ => 0).withNatives
          Native.extras)).takeAll inputs).2.session.machine.sink.lines = #["method", "field"] ∧
        ((Chronicle.start ((start .reliable fun _ => 0).withNatives
          Native.extras)).takeAll inputs).2.book.machine.heap.field? ⟨0⟩ "p" =
            some (.string "field") ∧
        (((Chronicle.start ((start .reliable fun _ => 0).withNatives
          Native.extras)).takeAll inputs).2.since ⟨0⟩).head?.any (fieldless "p") = true := by
    decide +kernel
  cases hcourse : (Chronicle.start ((start .reliable fun _ => 0).withNatives
      Native.extras)).takeAll inputs with
  | mk as? c =>
    rw [hcourse] at hrun
    obtain ⟨hsome, hlines, hfield, hfirst⟩ := hrun
    obtain ⟨as, rfl⟩ := Option.isSome_iff_exists.mp hsome
    obtain ⟨entry, hhead, hentry⟩ := (Option.any_eq_true ..).mp hfirst
    cases entry with
    | set => cases hentry
    | moment m =>
      obtain ⟨hclass, hnone⟩ : m.heap.classOf? ⟨0⟩ = some ⟨1⟩ ∧ m.heap.field? ⟨0⟩ "p" = none := by
        simpa [fieldless] using hentry
      have hpasses := Chronicle.passes_since hhead
      have hfollows := (fields_change_by_set Native.extras_honest hcourse).1 m _ _ hpasses ⟨0⟩
        (Option.isSome_iff_exists.mpr ⟨_, hclass⟩)
      have hcontent := (hfollows ⟨"p", ⟨0, 0⟩⟩).content
      rw [hnone, hfield, Option.or_none] at hcontent
      exact ⟨as, c, m, _, rfl, hlines, hpasses, hclass, hnone, hcontent.symm, hfollows⟩

end Session
end Lox
