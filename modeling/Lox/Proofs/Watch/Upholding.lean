import Lox.Proofs.Watch.Scopes
import Lox.Proofs.Watch.Upright

/-! # What a watched computation upholds

Wherever `this` and `super` are used, the use stands in a class, and every
computation upholds that: what keywords are bound to is firm, and functions are
made and called where their texts stand. What is called is a value that a program
can hold, with as many arguments as it takes, and no initializer ends without an
instance. -/

namespace Lox.Watch

open Scope (ClassKind Placed.function Known)

variable {α β : Type}

/-! ## What is handed out from outside -/

/-- The class that a function of the host hands out when it is run at a point. -/
def Point.lendsClass (p : Point) : Option ClassId :=
  match p.event with
  | .run (.native n) args =>
    match p.machine.host[n.index]? with
    | some code =>
      match code ⟨p.machine.heap, p.machine.clock.reading p.machine.clock.reads⟩ args with
      | .ok (.class_ c) => some c
      | _ => none
    | none => none
  | _ => none

/-- What functions of the host handed out was there, and no method without an instance. -/
structure Record.Given (t : Record) : Prop where
  lent : t.Lent
  classes : ∀ p ∈ t.points, ∀ c ∈ p.lendsClass, c.index < p.machine.heap.classes.size

instance (t : Record) : Decidable t.Given :=
  decidable_of_iff (t.Lent ∧ ∀ p ∈ t.points, ∀ c ∈ p.lendsClass,
    c.index < p.machine.heap.classes.size) ⟨fun h => ⟨h.1, h.2⟩, fun h => ⟨h.1, h.2⟩⟩

theorem Record.Given.of_kept {t u : Record} (h : u.Given) (hhomes : Kept t.homes u.homes)
    (hpoints : ∀ p ∈ t.points, p ∈ u.points) : t.Given :=
  ⟨h.lent.of_kept hhomes hpoints, fun p hp => h.classes p (hpoints p hp)⟩

theorem Record.Given.of_before {t u : Record} (h : u.Given) (hb : t.Before u) : t.Given :=
  h.of_kept hb.homes hb.points

/-! ## Records -/

/-- A use of `this` stands in a class, and one of `super` in a class with a superclass. -/
structure Point.Seated (p : Point) : Prop where
  this : ∀ id, p.event = .use id "this" → ∃ k, k ≠ .none ∧
    Standing p.machine.heap p.machine.globals false k p.machine.current p.scene.ribs
  super : ∀ id, p.event = .use id "super" →
    Standing p.machine.heap p.machine.globals false .subclass p.machine.current p.scene.ribs
  older : p.machine.heap.Older
  methods : ∀ c name f, p.machine.heap.findMethod? c name = some f →
    ∃ object, p.machine.heap.function? f = some object

/-- What is called can be held by a program, and takes so many arguments. -/
def Called (h : Heap) (homes : Array Home) (event : Event) : Prop :=
  ∀ callee args, event = .run callee args →
    Sane h.classes.size homes callee ∧ h.arity? callee = some args.length

/-- At a point functions stand where they should, and so does what is called. -/
def Point.Housed (p : Point) : Prop :=
  ∃ homes, Proper p.machine.globals p.machine.heap homes ∧ Called p.machine.heap homes p.event

/-- Everything stands where it should. -/
structure Record.Upright (t : Record) : Prop where
  proper : Proper t.machine.globals t.machine.heap t.homes
  points : ∀ p ∈ t.points, p.Seated
  housed : ∀ p ∈ t.points, p.Housed

/-- A record may become another one, and keywords keep what they are bound to. -/
structure Record.Onward (t u : Record) : Prop where
  before : t.Before u
  firm : Firm t.machine.heap u.machine.heap

theorem Record.Onward.refl (t : Record) : t.Onward t := ⟨.refl t, .refl _⟩

theorem Record.Onward.trans {t u v : Record} (h : t.Onward u) (h' : u.Onward v) : t.Onward v :=
  ⟨h.before.trans h'.before, h.firm.trans h'.firm⟩

theorem Record.Alike.onward {t u : Record} (h : t.Alike u) : t.Onward u :=
  ⟨h.before, firm_of_frames (by rw [h.heap]) (Nat.le_of_eq (by rw [h.heap]))⟩

theorem Record.Alike.upright {t u : Record} (h : t.Alike u) (ht : t.Upright) : u.Upright where
  proper := by
    rw [h.globals, h.heap, h.homes]
    exact ht.proper
  points := by
    rw [h.points]
    exact ht.points
  housed := by
    rw [h.points]
    exact ht.housed

/-! ## Traits -/

/-- Something about a record that goes on to hold as long as keywords are firm. -/
structure Trait where
  holds : Record → Prop
  stays : ∀ {t u}, t.Onward u → holds t → holds u

namespace Trait

def and (F G : Trait) : Trait where
  holds t := F.holds t ∧ G.holds t
  stays ho ht := ⟨F.stays ho ht.1, G.stays ho ht.2⟩

/-- Something that has nothing to do with the record. -/
def pure (p : Prop) : Trait where
  holds _ := p
  stays _ hp := hp

/-- The frames from one outwards are those of scopes in a class of a suitable kind. -/
def stands (unbound : Bool) (f : FrameId) (ribs : List Rib) (p : ClassKind → Prop) : Trait where
  holds t := ∃ k, Standing t.machine.heap t.machine.globals unbound k f ribs ∧ p k
  stays ho ht := by
    obtain ⟨k, hstanding, hp⟩ := ht
    rw [ho.before.globals]
    exact ⟨k, hstanding.mono ho.before.heap ho.firm, hp⟩

/-- The present scopes are those of a class of a suitable kind. -/
def here (ribs : List Rib) (p : ClassKind → Prop) : Trait where
  holds t := (stands false t.machine.current ribs p).holds t
  stays ho ht := by
    rw [ho.before.current]
    exact (stands false _ ribs p).stays ho ht

/-- Values that a program can hold. -/
def sane (vs : List Value) : Trait where
  holds t := ∀ v ∈ vs, Sane t.machine.heap.classes.size t.homes v
  stays ho ht v hv := (ht v hv).mono ho.before.homes ho.firm.classes

/-- A function that was found is a method without an instance. -/
def method (found : Option FunctionId) : Trait where
  holds t := ∀ f ∈ found, IsMethod t.homes f
  stays ho ht f hf := (ht f hf).mono ho.before.homes

/-- The functions in a table are methods without an instance. -/
def methods (table : Bindings FunctionId) : Trait where
  holds t := ∀ name f, table.get? name = some f → MethodOf t.machine.heap t.homes name f
  stays ho ht name f hf := (ht name f hf).mono ho.before.heap ho.before.homes

/-- A class that was named exists. -/
def exists_ (parent : Option ClassId) : Trait where
  holds t := ∀ c ∈ parent, c.index < t.machine.heap.classes.size
  stays ho ht c hc := Nat.lt_of_lt_of_le (ht c hc) ho.firm.classes

/-- An initializer is bound to an instance. -/
def initialized (f : FunctionObject) : Trait where
  holds t := f.isInitializer = true → ∃ i, BoundTo t.machine.heap f i
  stays ho ht hinitializer := (ht hinitializer).imp fun _ => .mono ho.firm

end Trait

/-! ## Statements about computations -/

/-- Anything but an initializer that is bound to no instance. -/
def Expected (d : Diagnostic) : Prop := ∀ span, d ≠ .located (.execution .initializerUnbound) span

theorem expected_of_ne {error : RuntimeError} (h : error ≠ .initializerUnbound) (span : Span) :
    Expected (.located (.execution error) span) := by
  rintro _ ⟨⟩
  exact h rfl

/-- A computation stops as those of accepted programs do. -/
def Regular (stop : Stop) : Prop := ∀ d, stop = .failed d → Expected d

theorem regular_of_ne {error : RuntimeError} (h : error ≠ .initializerUnbound) (span : Span) :
    Regular (.failed (.located (.execution error) span)) := by
  rintro _ ⟨⟩
  exact expected_of_ne h span

theorem regular_outOfFuel : Regular .outOfFuel := fun _ h => by cases h

/-- However a computation stops, it does so as those of accepted programs do. -/
def StopsRegularly (r : Run α) : Prop :=
  ∀ m, Ends r m (fun _ _ => True) fun stop _ => Regular stop

namespace StopsRegularly

variable {r : Run α} {error : RuntimeError}

theorem of_pure (a : α) : StopsRegularly (pure a : Run α) := fun _ => trivial

theorem of_ask (f : Machine → α) : StopsRegularly (Run.ask f) := fun _ => trivial

theorem fail (h : error ≠ .initializerUnbound) (span : Span) :
    StopsRegularly (Run.fail error span : Run α) := fun _ => regular_of_ne h span

theorem bind {k : α → Run β} (h : StopsRegularly r) (hk : ∀ a, StopsRegularly (k a)) :
    StopsRegularly (r >>= k) := by
  intro m
  rw [ends_bind]
  exact (h m).imp (fun a t _ => hk a t) fun _ _ hstop => hstop

theorem orElseFail {result : Option α} (h : error ≠ .initializerUnbound) (span : Span) :
    StopsRegularly (Run.orElseFail result error span) := by
  cases result with
  | none => exact fail h span
  | some a => exact of_pure a

theorem superClass (hops : Nat) (keyword : Span) :
    StopsRegularly (Eval.superClass hops keyword) := by
  refine (of_ask _).bind fun found => ?_
  split
  · exact of_pure _
  · exact fail (by simp) keyword

theorem superInstance (hops : Nat) (keyword : Span) :
    StopsRegularly (Eval.superInstance hops keyword) := by
  refine (of_ask _).bind fun found => ?_
  split
  · exact of_pure _
  · exact fail (by simp) keyword

theorem fieldOwner (object : Value) (name : Ident) :
    StopsRegularly (Eval.fieldOwner object name) := by
  unfold Eval.fieldOwner
  split
  · exact of_pure _
  · exact fail (by simp) name.span

theorem checkCall (callee : Value) (count : Nat) (paren : Span) :
    StopsRegularly (Eval.checkCall callee count paren) := by
  refine (of_ask _).bind fun arity? => (orElseFail (by simp) paren).bind fun arity => ?_
  split
  · exact fail (by simp) paren
  · refine (of_ask _).bind fun depth => ?_
    split
    · exact fail (by simp) paren
    · exact of_pure ()

end StopsRegularly

/-- From every upright record in which `P` holds a computation comes to an upright one, and to
one in which `Q` holds of its result if it has one. -/
structure Upholds (P : Record → Prop) (w : Watched α) (Q : α → Record → Prop) : Prop where
  grows : ∀ t, Ends w t (fun _ u => t.Before u) fun _ u => t.Before u
  ends : ∀ t, t.Upright → P t →
    Ends w t (fun a u => u.Given → (t.Onward u ∧ u.Upright) ∧ Q a u)
      fun stop u => u.Given → (t.Onward u ∧ u.Upright) ∧ Regular stop

variable {P O : Record → Prop} {Q N : α → Record → Prop} {w : Watched α}

theorem Upholds.imp (h : Upholds P w Q) (hpre : ∀ t, O t → P t)
    (hpost : ∀ a t, Q a t → N a t) : Upholds O w N := by
  refine ⟨h.grows, fun t ht hp => ?_⟩
  refine (h.ends t ht (hpre t hp)).imp (fun a u hu hgiven => ?_) fun _ _ hu => hu
  obtain ⟨hright, hholds⟩ := hu hgiven
  exact ⟨hright, hpost a u hholds⟩

theorem Upholds.weaken (h : Upholds P w Q) (hpre : ∀ t, O t → P t) : Upholds O w Q :=
  h.imp hpre fun _ _ hq => hq

theorem upholds_pure {a : α} (h : ∀ t, P t → Q a t) : Upholds P (pure a) Q := by
  refine ⟨fun t => ?_, fun t ht hp => ?_⟩
  · exact Record.Before.refl t
  · exact fun _ => ⟨⟨.refl t, ht⟩, h t hp⟩

theorem Upholds.seq {M : α → Record → Prop} {k : α → Watched β} {Q : β → Record → Prop}
    (h : Upholds P w M) (hk : ∀ a, Upholds (M a) (k a) Q) : Upholds P (w >>= k) Q := by
  constructor
  · exact Advances.seq h.grows fun a => (hk a).grows
  · intro t ht hp
    rw [ends_bind]
    refine (h.ends t ht hp).imp (fun a u hu => ?_) fun _ _ hu => hu
    have hgrows := (hk a).grows u
    have hends := (hk a).ends u
    unfold Ends at hgrows hends ⊢
    cases hr : k a u with
    | ok b v =>
      rw [hr] at hgrows hends
      intro hgiven
      obtain ⟨⟨honward, hupright⟩, hmid⟩ := hu (hgiven.of_before hgrows)
      obtain ⟨⟨honward', hupright'⟩, hq⟩ := hends hupright hmid hgiven
      exact ⟨⟨honward.trans honward', hupright'⟩, hq⟩
    | error stop v =>
      rw [hr] at hgrows hends
      intro hgiven
      obtain ⟨⟨honward, hupright⟩, hmid⟩ := hu (hgiven.of_before hgrows)
      obtain ⟨⟨honward', hupright'⟩, hregular⟩ := hends hupright hmid hgiven
      exact ⟨⟨honward.trans honward', hupright'⟩, hregular⟩

/-- What holds before a computation holds after it too. -/
theorem Upholds.frame {F G : Trait} (h : Upholds G.holds w Q) :
    Upholds (F.and G).holds w fun a t => F.holds t ∧ Q a t := by
  refine ⟨h.grows, fun t ht hp => ?_⟩
  refine (h.ends t ht hp.2).imp (fun a u hu hgiven => ?_) fun _ _ hu => hu
  obtain ⟨⟨honward, hupright⟩, hq⟩ := hu hgiven
  exact ⟨⟨honward, hupright⟩, F.stays honward hp.1, hq⟩

/-- One computation after the other; the second may rely on what holds before both. -/
theorem Upholds.bind {F : Trait} {G : α → Trait} {k : α → Watched β} {Q : β → Record → Prop}
    (h : Upholds F.holds w fun a => (G a).holds)
    (hk : ∀ a, Upholds (F.and (G a)).holds (k a) Q) : Upholds F.holds (w >>= k) Q := by
  have hframe : Upholds F.holds w fun a t => F.holds t ∧ (G a).holds t :=
    (h.frame (F := F)).weaken fun t ht => ⟨ht, ht⟩
  exact hframe.seq hk

/-- Steps that never stop uphold what they do to a record. -/
theorem upholds_step {M : β → Record → Prop} {k : β → Watched α} (result : Record → β)
    (next : Record → Record) (hw : ∀ t, w t = k (result t) (next t))
    (hbefore : ∀ t : Record, t.Before (next t))
    (hupright : ∀ t, t.Upright → P t →
      (Firm t.machine.heap (next t).machine.heap ∧ (next t).Upright) ∧ M (result t) (next t))
    (hk : ∀ b, Upholds (M b) (k b) Q) : Upholds P w Q := by
  constructor
  · exact Advances.step result next hw hbefore fun b => (hk b).grows
  · intro t ht hp
    obtain ⟨⟨hfirm, hnext⟩, hmid⟩ := hupright t ht hp
    have hstep : t.Onward (next t) := ⟨hbefore t, hfirm⟩
    have hends := (hk (result t)).ends (next t) hnext hmid
    unfold Ends at hends ⊢
    rw [hw t]
    cases hr : k (result t) (next t) with
    | ok a u =>
      rw [hr] at hends
      intro hgiven
      obtain ⟨⟨honward, hupright⟩, hq⟩ := hends hgiven
      exact ⟨⟨hstep.trans honward, hupright⟩, hq⟩
    | error stop u =>
      rw [hr] at hends
      intro hgiven
      obtain ⟨⟨honward, hupright⟩, hregular⟩ := hends hgiven
      exact ⟨⟨hstep.trans honward, hupright⟩, hregular⟩

/-! ## Steps that change little -/

/-- A computation that leaves the machine as it is. -/
theorem upholds_still {r : Run α} (h : Still r)
    (hregular : StopsRegularly r) : Upholds P (lift r) fun _ => P := by
  refine ⟨(tells_still (K := ⟨.empty, 0⟩) (P := P) h).grows, fun t ht hp => ?_⟩
  rw [ends_lift]
  refine ((h t.machine).and (hregular t.machine)).imp (fun _ m hm _ => ?_) fun _ m hm _ => ?_
  · rw [hm.1]
    exact ⟨⟨.refl t, ht⟩, hp⟩
  · rw [hm.1]
    exact ⟨⟨.refl t, ht⟩, hm.2⟩

theorem upholds_stop {r : Run α} (h : ∀ m, ∃ stop, r m = .error stop m ∧ Regular stop) :
    Upholds P (lift r) Q := by
  have hstops : ∀ m, ∃ stop, r m = .error stop m := fun m => (h m).imp fun _ hr => hr.1
  refine ⟨(tells_stop (K := ⟨.empty, 0⟩) (P := P) (Q := Q) hstops).grows, fun t ht _ => ?_⟩
  obtain ⟨stop, hr, hregular⟩ := h t.machine
  rw [ends_lift, ends_of_error hr]
  exact fun _ => ⟨⟨.refl t, ht⟩, hregular⟩

theorem upholds_fail {error : RuntimeError} (herror : error ≠ .initializerUnbound) (span : Span) :
    Upholds P (lift (Run.fail error span)) Q :=
  upholds_stop fun _ => ⟨_, rfl, regular_of_ne herror span⟩

theorem upholds_exhaust : Upholds P (lift Run.exhaust) Q :=
  upholds_stop fun _ => ⟨_, rfl, regular_outOfFuel⟩

theorem upholds_orElseFail {result : Option α} {error : RuntimeError} {span : Span}
    (herror : error ≠ .initializerUnbound) (h : ∀ a ∈ result, ∀ t, P t → Q a t) :
    Upholds P (lift (Run.orElseFail result error span)) Q := by
  cases result with
  | none => exact upholds_fail herror span
  | some a => exact upholds_pure (h a rfl)

theorem upholds_orFail {result : Except RuntimeError α} {span : Span}
    (herror : ∀ error, result = .error error → error ≠ .initializerUnbound)
    (h : ∀ a, result = .ok a → ∀ t, P t → Q a t) : Upholds P (lift (Run.orFail result span)) Q := by
  cases result with
  | error error => exact upholds_fail (herror error rfl) span
  | ok a => exact upholds_pure (h a rfl)

theorem upholds_ask {f : Machine → β} {M : β → Record → Prop} {k : β → Watched α}
    (h : ∀ t, t.Upright → P t → M (f t.machine) t) (hk : ∀ a, Upholds (M a) (k a) Q) :
    Upholds P (lift (Run.ask f) >>= k) Q :=
  upholds_step (fun t => f t.machine) id (fun _ => rfl) Record.Before.refl
    (fun t ht hp => ⟨⟨.refl _, ht⟩, h t ht hp⟩) hk

/-- A change of the heap, with what holds after it. -/
theorem upholds_change {f : Heap → β × Heap} {M : β → Record → Prop} {k : β → Watched α}
    (hgrows : ∀ h : Heap, h.Grows (f h).2)
    (hproper : ∀ t : Record, t.Upright → P t → Firm t.machine.heap (f t.machine.heap).2 ∧
      Proper t.machine.globals (f t.machine.heap).2 t.homes)
    (hmid : ∀ t : Record, t.Upright → P t → t.Onward (t.withHeap (f t.machine.heap).2) →
      M (f t.machine.heap).1 (t.withHeap (f t.machine.heap).2))
    (hk : ∀ a, Upholds (M a) (k a) Q) : Upholds P (lift (Run.onHeap f) >>= k) Q :=
  upholds_step (fun t => (f t.machine.heap).1) (fun t => t.withHeap (f t.machine.heap).2)
    (fun _ => rfl) (fun _ => Record.before_withHeap (hgrows _))
    (fun t ht h =>
      have ⟨hfirm, hproper⟩ := hproper t ht h
      ⟨⟨hfirm, hproper, ht.points, ht.housed⟩,
        hmid t ht h ⟨Record.before_withHeap (hgrows _), hfirm⟩⟩) hk

theorem upholds_writeLine (text : String) :
    Upholds P (lift (Run.writeLine text)) fun _ => (Trait.pure True).holds := by
  refine ⟨(tells_writeLine (K := ⟨.empty, 0⟩) (P := P) text).grows, fun t ht _ => ?_⟩
  have halike : Ends (Run.writeLine text) t.machine
      (fun _ m => t.Alike { t with machine := m })
      fun stop m => t.Alike { t with machine := m } ∧ Regular stop := by
    unfold Ends Run.writeLine
    cases t.machine.sink.writeLine text with
    | mk step sink =>
      cases step with
      | none => exact ⟨rfl, rfl, rfl, rfl, rfl, rfl, rfl⟩
      | some step =>
        refine ⟨⟨rfl, rfl, rfl, rfl, rfl, rfl, rfl⟩, ?_⟩
        rintro _ ⟨⟩ span h
        cases h
  rw [ends_lift]
  exact halike.imp (fun _ _ hm _ => ⟨⟨hm.onward, hm.upright ht⟩, trivial⟩)
    fun _ _ hm _ => ⟨⟨hm.1.onward, hm.1.upright ht⟩, hm.2⟩

/-! ## Points -/

theorem Point.seated_of_ordinary {p : Point} (ht : ∀ id name, p.event = .use id name → Ordinary name)
    (holder : p.machine.heap.Older) (hmethods : ∀ c name f, p.machine.heap.findMethod? c name = some f →
      ∃ object, p.machine.heap.function? f = some object) : p.Seated where
  this id hevent := absurd rfl ((ht id _ hevent).ne .this)
  super id hevent := absurd rfl ((ht id _ hevent).ne .super)
  older := holder
  methods := hmethods

theorem called_of_ne {h : Heap} {homes : Array Home} {event : Event}
    (hne : ∀ callee args, event ≠ .run callee args) : Called h homes event :=
  fun callee args hevent => absurd hevent (hne callee args)

theorem Record.Upright.noted {t : Record} (ht : t.Upright) {here : Scene} {event : Event}
    (hseated : (Point.mk event here t.machine t.completed).Seated) (hcalled : Called t.machine.heap t.homes event) :
    (t.noted here event).Upright := by
  refine ⟨ht.proper, fun p hmem => ?_, fun p hmem => ?_⟩
  · rcases Array.mem_push.mp hmem with hmem | rfl
    · exact ht.points p hmem
    · exact hseated
  · rcases Array.mem_push.mp hmem with hmem | rfl
    · exact ht.housed p hmem
    · exact ⟨t.homes, ht.proper, hcalled⟩

theorem upholds_mark {here : Scene} {event : Event} {M : Record → Prop} {k : Unit → Watched α}
    (hseated : ∀ t : Record, t.Upright → P t →
      (Point.mk event here t.machine t.completed).Seated)
    (hcalled : ∀ t : Record, t.Upright → P t → Called t.machine.heap t.homes event)
    (hmid : ∀ t, P t → M (t.noted here event)) (hk : Upholds M (k ()) Q) :
    Upholds P (mark here event >>= k) Q :=
  upholds_step (fun _ => ()) (fun t => t.noted here event) (fun _ => rfl)
    (fun t => t.before_noted here event)
    (fun t ht h => ⟨⟨.refl _, ht.noted (hseated t ht h) (hcalled t ht h)⟩, hmid t h⟩) fun _ => hk

/-- A point at which no keyword is used. -/
theorem upholds_mark_ordinary {here : Scene} {event : Event} {M : Record → Prop}
    {k : Unit → Watched α} (hevent : ∀ id name, event = .use id name → Ordinary name)
    (hcalled : ∀ t : Record, t.Upright → P t → Called t.machine.heap t.homes event)
    (hmid : ∀ t, P t → M (t.noted here event)) (hk : Upholds M (k ()) Q) :
    Upholds P (mark here event >>= k) Q := by
  refine upholds_mark (fun t ht _ => ?_) hcalled hmid hk
  exact Point.seated_of_ordinary hevent ht.proper.older
    fun c name f hf => ht.proper.function (ht.proper.isMethod hf)

end Lox.Watch
