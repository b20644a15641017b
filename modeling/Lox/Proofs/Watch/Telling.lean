import Lox.Proofs.Watch.Homes

/-! # What a watched computation tells

A statement about a watched computation says what holds before it, what holds
of its result after it, and that every point it writes down is right. What holds
once goes on to hold while the computation runs, as the heap only grows and the
present frame is given back on every exit. -/

namespace Lox.Watch

open Scope (Known)

variable {α β : Type} {K : Known}

/-! ## What is handed out from outside -/

/-- The function object that a function of the host hands out when it is run at a point. -/
def Point.lends (p : Point) : Option FunctionId :=
  match p.event with
  | .run (.native n) args =>
    match p.machine.host[n.index]? with
    | some code =>
      match code ⟨p.machine.heap, p.machine.clock.reading p.machine.clock.reads⟩ args with
      | .ok (.function f) => some f
      | _ => none
    | none => none
  | _ => none

/-- What functions of the host handed out were functions there, and no methods without an
instance. -/
def Record.Lent (t : Record) : Prop :=
  ∀ p ∈ t.points, ∀ f ∈ p.lends, f.index < p.machine.heap.functions.size ∧
    ∀ home ∈ t.homes[f.index]?, home.unbound = false

instance (t : Record) : Decidable t.Lent := by unfold Record.Lent; infer_instance

/-! ## Records -/

/-- A record may become another one while a computation runs. -/
structure Record.Before (t u : Record) : Prop where
  current : u.machine.current = t.machine.current
  globals : u.machine.globals = t.machine.globals
  resolutions : u.machine.resolutions = t.machine.resolutions
  heap : t.machine.heap.Grows u.machine.heap
  homes : Kept t.homes u.homes
  points : ∀ p ∈ t.points, p ∈ u.points

/-- All that has been written down is right, and will be. -/
structure Record.Good (K : Known) (t : Record) : Prop where
  records : t.machine.resolutions = K.records
  sound : Sound K t.machine.globals t.machine.heap t.homes
  completed : ∀ b ∈ t.completed, t.machine.heap.binds b.1 b.2 = true
  points : ∀ p ∈ t.points, p.Right

theorem Record.Before.refl (t : Record) : t.Before t :=
  ⟨rfl, rfl, rfl, .refl _, fun _ _ hhome => hhome, fun _ hp => hp⟩

theorem Record.Before.trans {t u v : Record} (h : t.Before u) (h' : u.Before v) : t.Before v where
  current := h'.current.trans h.current
  globals := h'.globals.trans h.globals
  resolutions := h'.resolutions.trans h.resolutions
  heap := h.heap.trans h'.heap
  homes i home hhome := h'.homes i home (h.homes i home hhome)
  points p hp := h'.points p (h.points p hp)

/-- What was handed out rightly by the end was handed out rightly all along. -/
theorem Record.Lent.of_kept {t u : Record} (h : u.Lent) (hhomes : Kept t.homes u.homes)
    (hpoints : ∀ p ∈ t.points, p ∈ u.points) : t.Lent := by
  intro p hp f hf
  obtain ⟨hlt, hbound⟩ := h p (hpoints p hp) f hf
  refine ⟨hlt, fun home hhome => ?_⟩
  exact hbound home (hhomes _ home hhome)

theorem Record.Lent.of_before {t u : Record} (h : u.Lent) (hb : t.Before u) : t.Lent :=
  h.of_kept hb.homes hb.points

/-- A record after a change of the heap. -/
def Record.withHeap (t : Record) (h : Heap) : Record :=
  { t with machine := { t.machine with heap := h } }

theorem Record.before_withHeap {t : Record} {h : Heap} (hg : t.machine.heap.Grows h) :
    t.Before (t.withHeap h) :=
  ⟨rfl, rfl, rfl, hg, fun _ _ hhome => hhome, fun _ hp => hp⟩

theorem Record.Good.withHeap {t : Record} {h : Heap} (ht : t.Good K)
    (hg : t.machine.heap.Grows h) (hs : Sound K t.machine.globals h t.homes) :
    (t.withHeap h).Good K :=
  ⟨ht.records, hs, fun b hb => hg.binds _ _ (ht.completed b hb), ht.points⟩

/-- Two records in which a computation has done nothing that matters here. -/
structure Record.Alike (t u : Record) : Prop where
  current : u.machine.current = t.machine.current
  globals : u.machine.globals = t.machine.globals
  resolutions : u.machine.resolutions = t.machine.resolutions
  heap : u.machine.heap = t.machine.heap
  homes : u.homes = t.homes
  completed : u.completed = t.completed
  points : u.points = t.points

theorem Record.Alike.before {t u : Record} (h : t.Alike u) : t.Before u where
  current := h.current
  globals := h.globals
  resolutions := h.resolutions
  heap := Heap.grows_of_eq (by rw [h.heap]) (by rw [h.heap])
  homes i home hhome := by
    rw [h.homes]
    exact hhome
  points p hp := by
    rw [h.points]
    exact hp

theorem Record.Alike.good {t u : Record} (h : t.Alike u) (ht : t.Good K) : u.Good K where
  records := h.resolutions.trans ht.records
  sound := by
    rw [h.globals, h.heap, h.homes]
    exact ht.sound
  completed := by
    rw [h.completed, h.heap]
    exact ht.completed
  points := by
    rw [h.points]
    exact ht.points

/-! ## Facts -/

/-- Something about a record that goes on to hold. -/
structure Fact where
  holds : Record → Prop
  stays : ∀ {t u}, t.Before u → holds t → holds u

namespace Fact

/-- Two facts. -/
def and (F G : Fact) : Fact where
  holds t := F.holds t ∧ G.holds t
  stays hb ht := ⟨F.stays hb ht.1, G.stays hb ht.2⟩

/-- Something that has nothing to do with the record. -/
def pure (p : Prop) : Fact where
  holds _ := p
  stays _ hp := hp

/-- The chain of frames from one outwards mirrors the scopes. -/
def chain (f : FrameId) (ribs : List Rib) : Fact where
  holds t := Chain t.machine.heap t.machine.globals f ribs
  stays hb ht := by
    rw [hb.globals]
    exact ht.mono hb.heap

/-- The chain of frames from the present one outwards mirrors the scopes. -/
def here (ribs : List Rib) : Fact where
  holds t := Chain t.machine.heap t.machine.globals t.machine.current ribs
  stays hb ht := by
    rw [hb.globals, hb.current]
    exact ht.mono hb.heap

/-- The scopes are mirrored as far as a name is concerned. -/
def reaches (ribs : List Rib) (name : String) : Fact where
  holds t := Linked t.machine.heap t.machine.globals t.machine.current ribs ∧
    ReadyFor t.machine.heap ribs name
  stays hb ht := by
    rw [hb.globals, hb.current]
    exact ⟨ht.1.mono hb.heap, ht.2.mono hb.heap⟩

/-- Values that a program can hold. -/
def fine (vs : List Value) : Fact where
  holds t := ∀ v ∈ vs, Fine t.homes v
  stays hb ht v hv := (ht v hv).mono hb.homes

/-- A function that was found is a method without an instance. -/
def method (found : Option FunctionId) : Fact where
  holds t := ∀ f ∈ found, IsMethod t.homes f
  stays hb ht f hf := (ht f hf).mono hb.homes

/-- The functions in a table are methods without an instance. -/
def methods (table : Bindings FunctionId) : Fact where
  holds t := ∀ name f, table.get? name = some f → IsMethod t.homes f
  stays hb ht name f hf := (ht name f hf).mono hb.homes

end Fact

theorem holds_fine_singleton {t : Record} {v : Value} :
    (Fact.fine [v]).holds t ↔ Fine t.homes v := by
  constructor
  · intro h
    exact h v List.mem_cons_self
  · intro h w hw
    obtain rfl := List.mem_singleton.mp hw
    exact h

/-! ## How records go on -/

/-- However a computation ends, the record may have become what it is then. -/
def Advances (w : Watched α) : Prop := ∀ t, Ends w t (fun _ u => t.Before u) fun _ u => t.Before u

namespace Advances

variable {w : Watched α}

theorem seq {k : α → Watched β} (h : Advances w) (hk : ∀ a, Advances (k a)) :
    Advances (w >>= k) := by
  intro t
  rw [ends_bind]
  refine (h t).imp (fun a u hu => ?_) fun _ _ hu => hu
  exact (hk a u).imp (fun _ _ hv => hu.trans hv) fun _ _ hv => hu.trans hv

/-- Steps that never stop come before the rest. -/
theorem step {k : β → Watched α} (result : Record → β) (next : Record → Record)
    (hw : ∀ t, w t = k (result t) (next t)) (hbefore : ∀ t : Record, t.Before (next t))
    (hk : ∀ b, Advances (k b)) : Advances w := by
  intro t
  have hrest := (hk (result t) (next t)).imp (fun _ _ hu => (hbefore t).trans hu)
    fun _ _ hu => (hbefore t).trans hu
  unfold Ends at hrest ⊢
  rw [hw t]
  exact hrest

/-- The present frame is given back. -/
theorem within (h : Advances w) (frame : FrameId) : Advances (within frame w) := by
  intro t
  rw [ends_within]
  refine (h _).imp (fun _ u hb => ?_) fun _ u hb => ?_
  · exact ⟨rfl, hb.globals, hb.resolutions, hb.heap, hb.homes, hb.points⟩
  · exact ⟨rfl, hb.globals, hb.resolutions, hb.heap, hb.homes, hb.points⟩

end Advances

/-! ## Statements about computations -/

/-- From every good record in which `P` holds a computation comes to a good one, and to one in
which `Q` holds of its result if it has one. -/
structure Tells (K : Known) (P : Record → Prop) (w : Watched α)
    (Q : α → Record → Prop) : Prop where
  grows : ∀ t, Ends w t (fun _ u => t.Before u) fun _ u => t.Before u
  ends : ∀ t, t.Good K → P t →
    Ends w t (fun a u => u.Lent → u.Good K ∧ Q a u) fun _ u => u.Lent → u.Good K

variable {P O : Record → Prop} {Q N : α → Record → Prop} {w : Watched α}

theorem Tells.imp (h : Tells K P w Q) (hpre : ∀ t, O t → P t)
    (hpost : ∀ a t, Q a t → N a t) : Tells K O w N := by
  refine ⟨h.grows, fun t ht hp => ?_⟩
  refine (h.ends t ht (hpre t hp)).imp (fun a u hu hlent => ?_) fun _ _ hu => hu
  obtain ⟨hgood, hholds⟩ := hu hlent
  exact ⟨hgood, hpost a u hholds⟩

theorem Tells.weaken (h : Tells K P w Q) (hpre : ∀ t, O t → P t) :
    Tells K O w Q := h.imp hpre fun _ _ hp => hp

theorem tells_pure {a : α} (h : ∀ t, P t → Q a t) : Tells K P (pure a) Q where
  grows := Record.Before.refl
  ends t ht hp _ := ⟨ht, h t hp⟩

theorem Tells.seq {M : α → Record → Prop} {k : α → Watched β} {Q : β → Record → Prop}
    (h : Tells K P w M) (hk : ∀ a, Tells K (M a) (k a) Q) :
    Tells K P (w >>= k) Q := by
  constructor
  · exact Advances.seq h.grows fun a => (hk a).grows
  · intro t ht hp
    rw [ends_bind]
    refine (h.ends t ht hp).imp (fun a u hu => ?_) fun _ _ hu => hu
    have hgrows := (hk a).grows u
    have hends := (hk a).ends u
    unfold Ends at hgrows hends ⊢
    cases hr : k a u with
    | ok b v =>
      rw [hr] at hgrows hends
      intro hlent
      obtain ⟨hgood, hmid⟩ := hu (hlent.of_before hgrows)
      exact hends hgood hmid hlent
    | error stop v =>
      rw [hr] at hgrows hends
      intro hlent
      obtain ⟨hgood, hmid⟩ := hu (hlent.of_before hgrows)
      exact hends hgood hmid hlent

/-- What holds before a computation holds after it too. -/
theorem Tells.frame {F G : Fact} (h : Tells K G.holds w Q) :
    Tells K (F.and G).holds w fun a t => F.holds t ∧ Q a t := by
  refine ⟨h.grows, fun t ht hp => ?_⟩
  have hgrows := h.grows t
  have hends := h.ends t ht hp.2
  unfold Ends at hgrows hends ⊢
  cases hr : w t with
  | ok a u =>
    rw [hr] at hgrows hends
    intro hlent
    obtain ⟨hgood, hpost⟩ := hends hlent
    exact ⟨hgood, F.stays hgrows hp.1, hpost⟩
  | error stop u =>
    rw [hr] at hends
    exact hends

/-- One computation after the other; the second may rely on what holds before both. -/
theorem Tells.bind {F : Fact} {G : α → Fact} {k : α → Watched β} {Q : β → Record → Prop}
    (h : Tells K F.holds w fun a => (G a).holds)
    (hk : ∀ a, Tells K (F.and (G a)).holds (k a) Q) : Tells K F.holds (w >>= k) Q := by
  have hframe : Tells K F.holds w fun a t => F.holds t ∧ (G a).holds t :=
    (h.frame (F := F)).weaken fun t ht => ⟨ht, ht⟩
  exact hframe.seq hk

/-- Steps that never stop are told by what they do to a record. -/
theorem tells_step {M : β → Record → Prop} {k : β → Watched α} (result : Record → β)
    (next : Record → Record) (hw : ∀ t, w t = k (result t) (next t))
    (hbefore : ∀ t : Record, t.Before (next t))
    (hgood : ∀ t, t.Good K → P t → (next t).Good K ∧ M (result t) (next t))
    (hk : ∀ b, Tells K (M b) (k b) Q) : Tells K P w Q := by
  constructor
  · exact Advances.step result next hw hbefore fun b => (hk b).grows
  · intro t ht hp
    obtain ⟨hgood, hmid⟩ := hgood t ht hp
    have hends := (hk (result t)).ends (next t) hgood hmid
    unfold Ends at hends ⊢
    rw [hw t]
    exact hends

end Lox.Watch
