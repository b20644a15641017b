import Lox.Proofs.Watch.Depth
import Lox.Proofs.Watch.Telling

/-! # What the parts of evaluation tell

The parts of evaluation that run nothing else: uses of variables, new functions,
methods that are bound, classes that are declared, and functions of the host.
Each leaves a good record, in which scopes are mirrored by frames. -/

namespace Lox.Watch

open Scope (Known Addressed.function Addressed.methods)

variable {α β : Type} {K : Known} {P : Record → Prop} {F : Fact}

/-! ## Steps that change little -/

theorem tells_stop {r : Run α} {Q : α → Record → Prop}
    (h : ∀ m, ∃ stop, r m = .error stop m) : Tells K P (lift r) Q := by
  constructor
  · intro t
    obtain ⟨stop, hr⟩ := h t.machine
    rw [ends_lift, ends_of_error hr]
    exact .refl t
  · intro t ht _
    obtain ⟨stop, hr⟩ := h t.machine
    rw [ends_lift, ends_of_error hr]
    exact fun _ => ht

theorem tells_fail {Q : α → Record → Prop} (error : RuntimeError) (span : Span) :
    Tells K P (lift (Run.fail error span)) Q :=
  tells_stop fun _ => ⟨_, rfl⟩

theorem tells_exhaust {Q : α → Record → Prop} : Tells K P (lift Run.exhaust) Q :=
  tells_stop fun _ => ⟨_, rfl⟩

theorem tells_orElseFail {Q : α → Record → Prop} {result : Option α} {error : RuntimeError}
    {span : Span} (h : ∀ a ∈ result, ∀ t, P t → Q a t) :
    Tells K P (lift (Run.orElseFail result error span)) Q := by
  cases result with
  | none => exact tells_fail error span
  | some a => exact tells_pure (h a rfl)

theorem tells_orFail {Q : α → Record → Prop} {result : Except RuntimeError α} {span : Span}
    (h : ∀ a, result = .ok a → ∀ t, P t → Q a t) :
    Tells K P (lift (Run.orFail result span)) Q := by
  cases result with
  | error error => exact tells_fail error span
  | ok a => exact tells_pure (h a rfl)

/-- A computation that leaves the machine as it is. -/
def Still (r : Run α) : Prop := ∀ m, Ends r m (fun _ m' => m' = m) fun _ m' => m' = m

theorem tells_still {r : Run α} (h : Still r) : Tells K P (lift r) fun _ => P := by
  constructor
  · intro t
    rw [ends_lift]
    refine (h t.machine).imp (fun _ m hm => ?_) fun _ m hm => ?_
    · rw [hm]
      exact .refl t
    · rw [hm]
      exact .refl t
  · intro t ht hp
    rw [ends_lift]
    refine (h t.machine).imp (fun _ m hm _ => ?_) fun _ m hm _ => ?_
    · rw [hm]
      exact ⟨ht, hp⟩
    · rw [hm]
      exact ht

theorem still_superClass (hops : Nat) (keyword : Span) : Still (Eval.superClass hops keyword) := by
  intro m
  unfold Ends Eval.superClass
  rw [Run.ask_bind]
  cases m.heap.getAt? m.current hops "super" with
  | none => rfl
  | some v => cases v <;> rfl

theorem still_superInstance (hops : Nat) (keyword : Span) :
    Still (Eval.superInstance hops keyword) := by
  intro m
  unfold Ends Eval.superInstance
  rw [Run.ask_bind]
  cases hops with
  | zero => rfl
  | succ inner =>
    dsimp only
    cases m.heap.getAt? m.current inner "this" with
    | none => rfl
    | some v => cases v <;> rfl

theorem tells_ask {γ : Type} {f : Machine → γ} {M : γ → Record → Prop} {k : γ → Watched α}
    {Q : α → Record → Prop} (h : ∀ t, t.Good K → P t → M (f t.machine) t)
    (hk : ∀ a, Tells K (M a) (k a) Q) : Tells K P (lift (Run.ask f) >>= k) Q :=
  tells_step (fun t => f t.machine) id (fun _ => rfl) Record.Before.refl
    (fun t ht hp => ⟨ht, h t ht hp⟩) hk

/-- A change of the heap, with what holds after it. -/
theorem tells_change {γ : Type} {f : Heap → γ × Heap} {M : γ → Record → Prop}
    {k : γ → Watched α} {Q : α → Record → Prop} (hgrows : ∀ h : Heap, h.Grows (f h).2)
    (hsound : ∀ t : Record, t.Good K → P t →
      Sound K t.machine.globals (f t.machine.heap).2 t.homes)
    (hmid : ∀ t : Record, t.Good K → P t →
      M (f t.machine.heap).1 (t.withHeap (f t.machine.heap).2))
    (hk : ∀ a, Tells K (M a) (k a) Q) : Tells K P (lift (Run.onHeap f) >>= k) Q :=
  tells_step (fun t => (f t.machine.heap).1) (fun t => t.withHeap (f t.machine.heap).2)
    (fun _ => rfl) (fun _ => Record.before_withHeap (hgrows _))
    (fun t ht h => ⟨ht.withHeap (hgrows _) (hsound t ht h), hmid t ht h⟩) hk

/-- A change of the heap, which what holds before it is not concerned with. -/
theorem tells_onHeap {γ : Type} {f : Heap → γ × Heap} (G : γ → Fact) {k : γ → Watched α}
    {Q : α → Record → Prop} (hgrows : ∀ h : Heap, h.Grows (f h).2)
    (hsound : ∀ t : Record, t.Good K → F.holds t →
      Sound K t.machine.globals (f t.machine.heap).2 t.homes)
    (hG : ∀ t : Record, t.Good K → F.holds t →
      (G (f t.machine.heap).1).holds (t.withHeap (f t.machine.heap).2))
    (hk : ∀ a, Tells K (F.and (G a)).holds (k a) Q) :
    Tells K F.holds (lift (Run.onHeap f) >>= k) Q :=
  tells_change hgrows hsound
    (fun t ht h => ⟨F.stays (Record.before_withHeap (hgrows _)) h, hG t ht h⟩) hk

theorem tells_writeLine (text : String) : Tells K P (lift (Run.writeLine text)) fun _ => (Fact.pure True).holds := by
  have halike : ∀ t : Record, Ends (Run.writeLine text) t.machine
      (fun _ m => t.Alike { t with machine := m }) fun _ m => t.Alike { t with machine := m } := by
    intro t
    unfold Ends Run.writeLine
    cases t.machine.sink.writeLine text with
    | mk step sink => cases step <;> exact ⟨rfl, rfl, rfl, rfl, rfl, rfl, rfl⟩
  constructor
  · intro t
    rw [ends_lift]
    exact (halike t).imp (fun _ _ hm => hm.before) fun _ _ hm => hm.before
  · intro t ht _
    rw [ends_lift]
    exact (halike t).imp (fun _ _ hm _ => ⟨hm.good ht, trivial⟩) fun _ _ hm _ => hm.good ht

/-! ## Points -/

theorem Point.right_of_ne {p : Point} (h : ∀ id name, p.event ≠ .use id name) : p.Right :=
  fun id name hevent => absurd hevent (h id name)

/-- A record in which a point has been written down. -/
def Record.noted (t : Record) (here : Scene) (event : Event) : Record :=
  { t with points := t.points.push ⟨event, here, t.machine, t.completed⟩ }

theorem Record.before_noted (t : Record) (here : Scene) (event : Event) :
    t.Before (t.noted here event) :=
  ⟨rfl, rfl, rfl, .refl _, fun _ _ hhome => hhome, fun _ hp => Array.mem_push_of_mem _ hp⟩

theorem Record.Good.noted {t : Record} (ht : t.Good K) {here : Scene} {event : Event}
    (hright : (Point.mk event here t.machine t.completed).Right) : (t.noted here event).Good K := by
  refine ⟨ht.records, ht.sound, ht.completed, fun p hmem => ?_⟩
  rcases Array.mem_push.mp hmem with hmem | rfl
  · exact ht.points p hmem
  · exact hright

theorem tells_mark {here : Scene} {event : Event} {M : Record → Prop} {k : Unit → Watched α}
    {Q : α → Record → Prop}
    (hright : ∀ t : Record, t.Good K → P t →
      (Point.mk event here t.machine t.completed).Right)
    (hmid : ∀ t, P t → M (t.noted here event)) (hk : Tells K M (k ()) Q) :
    Tells K P (mark here event >>= k) Q :=
  tells_step (fun _ => ()) (fun t => t.noted here event) (fun _ => rfl)
    (fun t => t.before_noted here event)
    (fun t ht h => ⟨ht.noted (hright t ht h), hmid t h⟩) fun _ => hk

/-! ## Variables -/

variable {here : Scene}

theorem reaches_of_here {t : Record} (h : (Fact.here here.ribs).holds t) (name : String) :
    (Fact.reaches here.ribs name).holds t := ⟨h.linked, h.ready name⟩

theorem right_of_reaches {t : Record} {id : Nat} {name : String}
    (hleads : K.Leads (namesOf here.ribs) id name) (ht : t.Good K)
    (h : (Fact.reaches here.ribs name).holds t) :
    (Point.mk (.use id name) here t.machine t.completed).Right := by
  refine right_use rfl h.1 h.2 ht.completed ?_
  show t.machine.resolutions.find? id = _
  rw [ht.records]
  exact hleads.found

theorem tells_readVariable {id : Nat} {name : String} {span : Span}
    (hleads : ∀ t, P t → K.Leads (namesOf here.ribs) id name)
    (hreaches : ∀ t, P t → (Fact.reaches here.ribs name).holds t) :
    Tells K P (readVariable here id name span) fun v => (Fact.fine [v]).holds := by
  refine tells_mark (M := fun _ => True)
    (fun t ht h => right_of_reaches (hleads t h) ht (hreaches t h)) (fun _ _ => trivial) ?_
  refine tells_step (fun t => t.machine.readVariable id name) (fun t => t)
    (k := fun found => lift (Run.orElseFail found (.undefinedVariable name) span))
    (M := fun found t => ∀ v ∈ found, Fine t.homes v)
    (fun _ => rfl) Record.Before.refl (fun t ht _ => ⟨ht, fun v hv => ?_⟩) fun found => ?_
  · obtain ⟨frame, -, hget⟩ := Option.bind_eq_some_iff.mp hv
    exact ht.sound.values frame name v hget
  · refine tells_orElseFail fun v hv t h w hw => ?_
    obtain rfl := List.mem_singleton.mp hw
    exact h w hv

theorem tells_writeVariable {target : Reference} {v : Value}
    (hleads : ∀ t, P t → K.Leads (namesOf here.ribs) target.id target.name.text)
    (hhere : ∀ t, P t → (Fact.here here.ribs).holds t)
    (hv : ∀ t, P t → (Fact.fine [v]).holds t) :
    Tells K P (writeVariable here target v) fun _ => (Fact.pure True).holds := by
  refine tells_mark (M := (Fact.fine [v]).holds)
    (fun t ht h => right_of_reaches (hleads t h) ht (reaches_of_here (hhere t h) _)) hv ?_
  let next (t : Record) : Record :=
    (t.machine.bindingFrame? target.id target.name.text).elim t fun frame =>
      t.withHeap (t.machine.heap.define frame target.name.text v)
  refine tells_step (fun t => t.machine.bindingFrame? target.id target.name.text) next
    (k := fun found => found.elim
      (lift (Run.fail (.undefinedVariable target.name.text) target.name.span)) fun _ => pure ())
    (M := fun _ _ => True) (fun t => ?_) (fun t => ?_) (fun t ht h => ?_) fun found => ?_
  · simp only [lift, Eval.writeVariable, next]
    cases t.machine.bindingFrame? target.id target.name.text <;> rfl
  · simp only [next]
    cases t.machine.bindingFrame? target.id target.name.text with
    | none => exact .refl t
    | some frame => exact Record.before_withHeap (Heap.grows_define ..)
  · simp only [next]
    cases t.machine.bindingFrame? target.id target.name.text with
    | none => exact ⟨ht, trivial⟩
    | some frame =>
      have hfine := h v List.mem_cons_self
      exact ⟨ht.withHeap (Heap.grows_define ..) (ht.sound.define frame _ hfine), trivial⟩
  · cases found with
    | none => exact tells_fail ..
    | some frame => exact tells_pure fun _ h => h

/-- A name is bound in the present frame, and declared from there on. -/
theorem tells_define {name : String} {v : Value} {k : Unit → Watched α}
    {Q : α → Record → Prop} (hhere : ∀ t, F.holds t → (Fact.here here.ribs).holds t)
    (hv : ∀ t, F.holds t → Fine t.homes v)
    (hk : Tells K (F.and (Fact.here (here.declare name).ribs)).holds (k ()) Q) :
    Tells K F.holds (lift (Run.define name v) >>= k) Q := by
  refine tells_step (fun _ => ())
    (fun t => t.withHeap (t.machine.heap.define t.machine.current name v)) (fun _ => rfl)
    (fun t => Record.before_withHeap (Heap.grows_define ..)) (fun t ht h => ?_) fun _ => hk
  have hgrows := t.machine.heap.grows_define t.machine.current name v
  have hchain := hhere t h
  have hframe := hchain.linked.exists ht.sound.outermost
  refine ⟨ht.withHeap hgrows (ht.sound.define _ name (hv t h)),
    F.stays (Record.before_withHeap hgrows) h, ?_⟩
  exact Chain.declare (hchain.mono hgrows) (Heap.binds_define_self _ hframe name v)

/-- The declaration of a variable is completed. -/
theorem tells_complete {name : String} {v : Value} {k : Unit → Watched α}
    {Q : α → Record → Prop} (hhere : ∀ t, F.holds t → (Fact.here here.ribs).holds t)
    (hv : ∀ t, F.holds t → Fine t.homes v)
    (hk : Tells K (F.and (Fact.here (here.declare name).ribs)).holds (k ()) Q) :
    Tells K F.holds (do
      lift (Run.define name v)
      complete name
      k ()) Q := by
  let next (t : Record) : Record :=
    { t.withHeap (t.machine.heap.define t.machine.current name v) with
      completed := (t.machine.current, name) :: t.completed }
  have hbefore : ∀ t : Record, t.Before (next t) := fun t =>
    ⟨rfl, rfl, rfl, Heap.grows_define .., fun _ _ hhome => hhome, fun _ hp => hp⟩
  refine tells_step (fun _ => ()) next (fun _ => rfl) hbefore (fun t ht h => ?_) fun _ => hk
  have hgrows := t.machine.heap.grows_define t.machine.current name v
  have hchain := hhere t h
  have hframe := hchain.linked.exists ht.sound.outermost
  have hbound := Heap.binds_define_self t.machine.heap hframe name v
  refine ⟨⟨ht.records, ht.sound.define _ name (hv t h), fun b hb => ?_, ht.points⟩,
    F.stays (hbefore t) h, Chain.declare (hchain.mono hgrows) hbound⟩
  rcases List.mem_cons.mp hb with rfl | hb
  · exact hbound
  · exact hgrows.binds _ _ (ht.completed b hb)

end Lox.Watch
