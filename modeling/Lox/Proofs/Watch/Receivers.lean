import Lox.Proofs.Heap.Growth
import Lox.Proofs.Scope.Placed
import Lox.Proofs.Watch.Objects

/-! # Methods and the scopes around them

The scope of `this` lies just inside that of `super` if there is one. Its frame
holds the instance that the method is bound to, and the frame of `super` holds
the class that was the superclass when the class was declared. No declaration
and no assignment of a program reaches the two names. -/

namespace Lox.Watch

open Scope (ClassKind)
open Grammar (Named named_cons)

/-! ## Frames that are firm -/

/-- What keywords are bound to stays, and so do the classes. -/
structure Firm (h h' : Heap) : Prop where
  keyword : ∀ f name v, ¬ Ordinary name → h.get? f name = some v → h'.get? f name = some v
  classes : h.classes.size ≤ h'.classes.size

variable {h h' h'' : Heap}

theorem Firm.refl (h : Heap) : Firm h h := ⟨fun _ _ _ _ hv => hv, Nat.le_refl _⟩

theorem Firm.trans (hf : Firm h h') (hf' : Firm h' h'') : Firm h h'' where
  keyword f name v hname hv := hf'.keyword f name v hname (hf.keyword f name v hname hv)
  classes := Nat.le_trans hf.classes hf'.classes

theorem firm_of_frames (hframes : h'.frames = h.frames) (hclasses : h.classes.size ≤ h'.classes.size) :
    Firm h h' := by
  refine ⟨fun f name v _ hv => ?_, hclasses⟩
  unfold Heap.get? at *
  rw [hframes]
  exact hv

theorem firm_define (h : Heap) (f : FrameId) {name : String} (hname : Ordinary name) (v : Value) :
    Firm h (h.define f name v) := by
  refine ⟨fun g other w hother hw => ?_, Nat.le_refl _⟩
  rw [Heap.get?_define, if_neg]
  · exact hw
  · rintro ⟨-, rfl, -⟩
    exact hother hname

theorem firm_newFrame (h : Heap) (enclosing : Option FrameId) (names : Bindings Value) :
    Firm h (h.newFrame enclosing names).2 := by
  refine ⟨fun f name v _ hv => ?_, Nat.le_refl _⟩
  have hlt : f.index < h.frames.size := by
    obtain ⟨frame, hframe, -⟩ := Option.bind_eq_some_iff.mp hv
    exact (Array.getElem?_eq_some_iff.mp hframe).1
  rw [Heap.get?_newFrame, if_neg (h.newFrame_ne _ _ hlt)]
  exact hv

/-! ## Scopes of methods -/

/-- The scope of a block or of a call declares ordinary names. -/
def Rib.Plain (rib : Rib) : Prop :=
  (∀ i, rib.origin ≠ .receiver i) ∧ Named rib.names

/-- The scope of `this`, and the instance in its frame. -/
structure Rib.Receives (h : Heap) (rib : Rib) (i : InstanceId) : Prop where
  origin : rib.origin = .receiver i
  this : "this" ∈ rib.names
  others : "super" ∉ rib.names
  bound : h.get? rib.frame "this" = some (.instance_ i)

/-- The scope of `super`, and the class in its frame. -/
structure Rib.Inherits (h : Heap) (rib : Rib) (c : ClassId) : Prop where
  origin : rib.origin = .superclass c
  super : "super" ∈ rib.names
  others : "this" ∉ rib.names
  bound : h.get? rib.frame "super" = some (.class_ c)

/-- The frames from one outwards are those of the scopes around a place in a class of some kind.
The scopes around the methods of the class, which have no instance yet, lack that of `this`. -/
inductive Standing (h : Heap) (globals : FrameId) :
    (unbound : Bool) → ClassKind → FrameId → List Rib → Prop where
  | outermost : Standing h globals false .none globals []
  | inner {k : ClassKind} {f : FrameId} {r : Rib} {ribs : List Rib} (plain : r.Plain)
      (around : h.enclosing? r.frame = some f) (outer : Standing h globals false k f ribs) :
      Standing h globals false k r.frame (r :: ribs)
  | plain {k : ClassKind} {f : FrameId} {ribs : List Rib}
      (outer : Standing h globals false k f ribs) : Standing h globals true .plain f ribs
  | subclass {k : ClassKind} {f : FrameId} {r : Rib} {ribs : List Rib} {c : ClassId}
      (inherits : r.Inherits h c) (around : h.enclosing? r.frame = some f)
      (outer : Standing h globals false k f ribs) :
      Standing h globals true .subclass r.frame (r :: ribs)
  | method {k : ClassKind} {f : FrameId} {r : Rib} {ribs : List Rib} {i : InstanceId}
      (receives : r.Receives h i) (around : h.enclosing? r.frame = some f)
      (outer : Standing h globals true k f ribs) :
      Standing h globals false k r.frame (r :: ribs)

variable {globals f : FrameId} {unbound : Bool} {k : ClassKind} {ribs : List Rib} {here : Scene}
  {name : String}

theorem Standing.mono (hg : h.Grows h') (hf : Firm h h')
    (hs : Standing h globals unbound k f ribs) : Standing h' globals unbound k f ribs := by
  induction hs with
  | outermost => exact .outermost
  | inner plain around _ ih => exact .inner plain (hg.enclosing _ _ around) ih
  | plain _ ih => exact .plain ih
  | subclass inherits around _ ih =>
    exact .subclass { inherits with bound := hf.keyword _ _ _ (by decide) inherits.bound }
      (hg.enclosing _ _ around) ih
  | method receives around _ ih =>
    exact .method { receives with bound := hf.keyword _ _ _ (by decide) receives.bound }
      (hg.enclosing _ _ around) ih

theorem Standing.linked (hs : Standing h globals unbound k f ribs) : Linked h globals f ribs := by
  induction hs with
  | outermost => exact rfl
  | plain _ ih => exact ih
  | inner _ around _ ih | subclass _ around _ ih | method _ around _ ih =>
    exact ⟨rfl, _, around, ih⟩

/-- An ordinary name may be declared in the innermost scope. -/
theorem Standing.congr_head {rib : Rib} (hs : Standing h globals false k f (rib :: ribs))
    (hname : Ordinary name) (pending : Option String) :
    Standing h globals false k f ({ rib with names := name :: rib.names, pending } :: ribs) := by
  cases hs with
  | inner plain around outer =>
    exact .inner (r := { rib with names := name :: rib.names, pending })
      ⟨plain.1, named_cons.mpr ⟨hname, plain.2⟩⟩ around outer
  | method receives around outer =>
    refine .method (r := { rib with names := name :: rib.names, pending })
      ⟨receives.origin, List.mem_cons_of_mem _ receives.this, ?_, receives.bound⟩ around outer
    rintro (_ | ⟨_, hmem⟩)
    · exact hname.ne .super rfl
    · exact receives.others hmem

theorem Standing.declare (hs : Standing h globals false k f here.ribs) (hname : Ordinary name) :
    Standing h globals false k f (here.declare name).ribs := by
  unfold Scene.declare
  split
  · exact hs
  · next rib outer hribs =>
    rw [hribs] at hs
    exact hs.congr_head hname rib.pending

theorem Standing.initializing (hs : Standing h globals false k f here.ribs)
    (hname : Ordinary name) : Standing h globals false k f (here.initializing name).ribs := by
  unfold Scene.initializing
  split
  · exact hs
  · next rib outer hribs =>
    rw [hribs] at hs
    exact hs.congr_head hname (some name)

theorem Standing.after {s : Stmt} (hs : Standing h globals false k f here.ribs)
    (hname : ∀ name ∈ declared? s, Ordinary name) :
    Standing h globals false k f (here.after s).ribs := by
  unfold Scene.after
  split
  · next name hdeclared => exact hs.declare (hname name hdeclared)
  · exact hs

/-! ## The method around a place -/

/-- The innermost method around a place: the instance that it is bound to, and the scopes around
the methods of its class. -/
def method? : List Rib → Option (InstanceId × List Rib)
  | [] => none
  | rib :: ribs =>
    match rib.origin with
    | .receiver i => some (i, ribs)
    | _ => method? ribs

/-- Around every place in a class there is a method. -/
theorem Standing.inMethod (hs : Standing h globals false k f ribs) (hk : k ≠ .none) :
    ∃ inner rib i around outer, ribs = inner ++ rib :: outer ∧ method? ribs = some (i, outer) ∧
      (∀ r ∈ inner, Named r.names) ∧ rib.Receives h i ∧
      Standing h globals true k around outer := by
  induction ribs generalizing f with
  | nil =>
    cases hs
    exact absurd rfl hk
  | cons rib ribs ih =>
    cases hs with
    | inner plain _ outer =>
      obtain ⟨inner, r, i, around, rest, rfl, hmethod, hnamed, hreceives, hrest⟩ := ih outer
      refine ⟨rib :: inner, r, i, around, rest, rfl, ?_,
        List.forall_mem_cons.mpr ⟨plain.2, hnamed⟩, hreceives, hrest⟩
      unfold method?
      split
      · next j hj => exact absurd hj (plain.1 j)
      · exact hmethod
    | @method _ around _ _ i receives _ outer =>
      refine ⟨[], rib, i, around, ribs, rfl, ?_, nofun, receives, outer⟩
      simp only [method?, receives.origin]

/-- The innermost scope that declares a name is the first one that does. -/
theorem place_of_nearest {inner outer : List Rib} {r rib : Rib} {hops : Nat}
    (hinner : ∀ x ∈ inner, name ∉ x.names) (hr : name ∈ r.names)
    (hplace : (inner ++ r :: outer)[hops]? = some rib) (hdeclares : name ∈ rib.names)
    (hnearest : ∀ nearer ∈ (inner ++ r :: outer).take hops, name ∉ nearer.names) :
    hops = inner.length := by
  have hle : inner.length ≤ hops := by
    by_contra hlt
    rw [List.getElem?_append_left (Nat.not_le.mp hlt)] at hplace
    exact hinner rib (List.mem_of_getElem? hplace) hdeclares
  have hge : hops ≤ inner.length := by
    by_contra hlt
    refine hnearest r ?_ hr
    rw [List.take_append, List.take_of_length_le (by omega)]
    refine List.mem_append_right _ ?_
    obtain ⟨n, hn⟩ := Nat.exists_eq_add_of_lt (Nat.not_le.mp hlt)
    rw [hn, Nat.add_assoc, Nat.add_sub_cancel_left, List.take_succ_cons]
    exact List.mem_cons_self
  exact Nat.le_antisymm hge hle

end Lox.Watch
