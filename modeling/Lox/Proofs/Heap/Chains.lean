import Lox.Proofs.Heap.Growth

/-! # Chains of frames and of classes

The way from a frame outwards, and the way from a class upwards, comes to an end
where each object is younger than the next one. What is looked for on such a way
is found by looking through the list of all that stand on it.

Frames are shared: closures and scopes inside reach one frame on different ways, and
one name may be bound in several frames of a chain. A write shows on all the ways
that lead to its frame, under its name, and nowhere else. -/

namespace Lox

/-- All that stand on the way from one object to the last one. -/
inductive Climb {α : Type} (next : α → Option α) : α → List α → Prop where
  | top {a : α} (last : next a = none) : Climb next a [a]
  | up {a b : α} {chain : List α} (step : next a = some b) (rest : Climb next b chain) :
      Climb next a (a :: chain)

section

variable {α : Type} {next : α → Option α} {a : α} {chain : List α}

/-- Where every step leads to something older there is a last one. -/
theorem exists_climb {age : α → Nat} (hnext : ∀ a b, next a = some b → age b < age a) (a : α) :
    ∃ chain, Climb next a chain := by
  induction hage : age a using Nat.strongRecOn generalizing a with
  | ind n ih =>
    cases hstep : next a with
    | none => exact ⟨[a], .top hstep⟩
    | some b =>
      obtain ⟨chain, hchain⟩ := ih (age b) (hage ▸ hnext a b hstep) b rfl
      exact ⟨a :: chain, .up hstep hchain⟩

/-- The last one is known if it is the only one from which no step leads on. -/
theorem Climb.getLast?_eq (h : Climb next a chain) {P : α → Prop} {last : α} (ha : P a)
    (hstep : ∀ a b, P a → next a = some b → P b) (hlast : ∀ a, P a → next a = none → a = last) :
    chain.getLast? = some last := by
  induction h with
  | top hnone => exact congrArg some (hlast _ ha hnone)
  | up hsome hrest ih =>
    have htail := ih (hstep _ _ ha hsome)
    rw [List.getLast?_cons, htail]
    rfl

end

namespace Heap

variable {h : Heap} {name : String}

/-- Frames lie in older frames. -/
def Nested (h : Heap) : Prop := ∀ f outer, h.enclosing? f = some outer → outer.index < f.index

theorem Nested.define (hh : h.Nested) (f : FrameId) (v : Value) : (h.define f name v).Nested := by
  intro g outer houter
  rw [enclosing?_define] at houter
  exact hh g outer houter

theorem Nested.newFrame (hh : h.Nested) {enclosing : Option FrameId}
    (henclosing : ∀ outer ∈ enclosing, outer.index < h.frames.size) (names : Bindings Value) :
    (h.newFrame enclosing names).2.Nested := by
  intro g outer houter
  rw [enclosing?_newFrame] at houter
  split at houter
  · next hg => exact hg ▸ henclosing outer houter
  · exact hh g outer houter

/-- The frames that lie further out are those on the way outwards, in order. -/
theorem ancestor?_of_climb {f : FrameId} {chain : List FrameId}
    (hchain : Climb h.enclosing? f chain) (distance : Nat) : h.ancestor? f distance = chain[distance]? := by
  induction hchain generalizing distance with
  | top hnone =>
    cases distance with
    | zero => rfl
    | succ distance =>
      rw [ancestor?, hnone]
      rfl
  | up hstep _ ih =>
    cases distance with
    | zero => rfl
    | succ distance =>
      rw [ancestor?, hstep, Option.bind_some, ih, List.getElem?_cons_succ]

/-- A method is looked for in the class itself, and then from the class above it. -/
theorem findMethod?_eq (hh : h.Older) (c : ClassId) :
    h.findMethod? c name =
      (h.ownMethod? c name).or ((h.superclass? c).bind (h.findMethod? · name)) := by
  unfold ownMethod? superclass?
  rw [findMethod?]
  cases hobject : h.classes[c.index]? with
  | none => rfl
  | some object =>
    dsimp only [Option.bind_some]
    cases object.methods.get? name with
    | some method => rfl
    | none =>
      cases hparent : object.superclass with
      | none => rfl
      | some parent =>
        have habove : h.superclass? c = some parent := by
          rw [superclass?, hobject]
          exact hparent
        simp [hh c parent habove]

/-- The method that is found is that of the first class on the way upwards that has one. -/
theorem findMethod?_of_climb (hh : h.Older) {c : ClassId} {chain : List ClassId}
    (hchain : Climb h.superclass? c chain) :
    h.findMethod? c name = chain.findSome? (h.ownMethod? · name) := by
  induction hchain with
  | top hnone =>
    rw [findMethod?_eq hh, hnone, List.findSome?_cons, List.findSome?_nil]
    cases h.ownMethod? _ name <;> rfl
  | up hstep _ ih =>
    rw [findMethod?_eq hh, hstep, Option.bind_some, ih, List.findSome?_cons]
    cases h.ownMethod? _ name <;> rfl

variable {h' : Heap}

/-! ## Reading after writing -/

/-- A binding that is written is read wherever its frame is reached. -/
theorem getAt?_define (h : Heap) {f : FrameId} (hf : f.index < h.frames.size) (g : FrameId)
    (distance : Nat) (name other : String) (value : Value) :
    (h.define f name value).getAt? g distance other =
      if h.ancestor? g distance = some f ∧ other = name then some value
      else h.getAt? g distance other := by
  unfold getAt?
  rw [ancestor?_define]
  cases hreached : h.ancestor? g distance with
  | none => rfl
  | some reached =>
    rw [Option.bind_some, get?_define]
    by_cases hself : f = reached ∧ name = other
    · obtain ⟨rfl, rfl⟩ := hself
      simp [hf]
    · have hother : ¬ (some reached = some f ∧ other = name) := fun hall =>
        hself ⟨(Option.some.inj hall.1).symm, hall.2.symm⟩
      rw [if_neg hother, if_neg fun hall => hself ⟨hall.1, hall.2.1⟩]
      rfl

theorem index_lt_of_binds {f : FrameId} {name : String} (hf : h.binds f name = true) :
    f.index < h.frames.size := by
  obtain ⟨value, hvalue⟩ := Option.isSome_iff_exists.mp hf
  obtain ⟨frame, hframe, -⟩ := Option.bind_eq_some_iff.mp hvalue
  exact (Array.getElem?_eq_some_iff.mp hframe).1

/-- An assignment finds the frame, and the name in it, or does nothing. -/
theorem assignAt?_eq_some_iff {f : FrameId} {distance : Nat} {name : String} {value : Value} :
    h.assignAt? f distance name value = some h' ↔
      ∃ outer, h.ancestor? f distance = some outer ∧ h.binds outer name = true ∧
        h.define outer name value = h' := by
  simp only [assignAt?, assign?, Option.bind_eq_some_iff, Option.ite_none_right_eq_some,
    Option.some.injEq]

theorem isSome_assignAt?_iff {f : FrameId} {distance : Nat} {name : String} {value : Value} :
    (h.assignAt? f distance name value).isSome = true ↔
      ∃ outer, h.ancestor? f distance = some outer ∧ h.binds outer name = true := by
  rw [Option.isSome_iff_exists]
  simp only [assignAt?_eq_some_iff]
  exact ⟨fun ⟨_, outer, houter, hbinds, _⟩ => ⟨outer, houter, hbinds⟩,
    fun ⟨outer, houter, hbinds⟩ => ⟨_, outer, houter, hbinds, rfl⟩⟩

/-! ## Sequences of operations -/

/-- An operation on frames. -/
inductive FrameOp where
  | new (enclosing : Option FrameId)
  | define (f : FrameId) (name : String) (value : Value)
  | assign (f : FrameId) (name : String) (value : Value)
  | assignAt (f : FrameId) (distance : Nat) (name : String) (value : Value)

/-- The frames that an operation is given. -/
def FrameOp.handles : FrameOp → List FrameId
  | .new enclosing => enclosing.toList
  | .define f _ _ => [f]
  | .assign f _ _ => [f]
  | .assignAt f _ _ _ => [f]

/-- Carries an operation out. An assignment that finds no binding does nothing. -/
def FrameOp.run (h : Heap) : FrameOp → Heap
  | .new enclosing => (h.newFrame enclosing .empty).2
  | .define f name value => h.define f name value
  | .assign f name value => (h.assign? f name value).getD h
  | .assignAt f distance name value => (h.assignAt? f distance name value).getD h

/-- Operations on frames that exist lead from one heap to another. -/
inductive Becomes : Heap → Heap → Prop where
  | nothing (h : Heap) : Becomes h h
  | operation {h h' : Heap} (before : Becomes h h') (op : FrameOp)
      (handles : ∀ f ∈ op.handles, f.index < h'.frames.size) : Becomes h (op.run h')

/-- An operation makes a new frame, or binds a name in one frame, or changes nothing. -/
inductive FrameOp.Effect (h : Heap) (op : FrameOp) : Heap → Prop where
  | made (enclosing : Option FrameId) (handles : op.handles = enclosing.toList) :
      Effect h op (h.newFrame enclosing .empty).2
  | bound (f : FrameId) (name : String) (value : Value) : Effect h op (h.define f name value)
  | nothing : Effect h op h

theorem FrameOp.effect (h : Heap) (op : FrameOp) : op.Effect h (op.run h) := by
  cases op with
  | new enclosing => exact .made enclosing rfl
  | define f name value => exact .bound f name value
  | assign f name value =>
    rw [run]
    unfold assign?
    split
    · exact .bound f name value
    · exact .nothing
  | assignAt f distance name value =>
    rw [run]
    cases hafter : h.assignAt? f distance name value with
    | none => exact .nothing
    | some h' =>
      obtain ⟨outer, -, -, rfl⟩ := assignAt?_eq_some_iff.mp hafter
      exact .bound outer name value

/-- What a heap holds is there after operations, too. -/
theorem Becomes.grows (hbecomes : h.Becomes h') : h.Grows h' := by
  induction hbecomes with
  | nothing => exact .refl _
  | @operation h' _ op _ ih =>
    refine ih.trans ?_
    have heffect := op.effect h'
    generalize op.run h' = after at heffect
    cases heffect with
    | made enclosing _ => exact h'.grows_newFrame enclosing .empty
    | bound f name value => exact h'.grows_define f name value
    | nothing => exact .refl _

theorem Becomes.nested (hbecomes : h.Becomes h') (hh : h.Nested) : h'.Nested := by
  induction hbecomes with
  | nothing => exact hh
  | @operation h' _ op hhandles ih =>
    have heffect := op.effect h'
    generalize op.run h' = after at heffect
    cases heffect with
    | made enclosing heq =>
      refine ih.newFrame (fun outer houter => hhandles outer ?_) .empty
      rw [heq]
      exact Option.mem_toList.mpr houter
    | bound f name value => exact ih.define f value
    | nothing => exact ih

theorem nested_empty : Heap.empty.Nested := fun f outer houter => by
  simp [enclosing?, empty] at houter

/-- **Writes are exact and shared.** In a heap of frames that any operations have built, an
assignment some frames further out succeeds exactly where there is such a frame and it binds the
name. Then every way to that frame reads the value under that name, and every other read is what it
was. An assignment that does not succeed changes no read, and binding a name in a frame is seen on
the ways to this frame under this name only. Whatever operations follow, a name that a frame binds
stays bound in it. To go `a + b` frames outwards is to go `a` frames and then `b` more, and the frames
that are met on the way are those of a list, beyond the end of which there are none. -/
theorem writes_exact_and_shared (hbuilt : Heap.empty.Becomes h) :
    (∀ f distance name value,
      ((h.assignAt? f distance name value).isSome = true ↔
        ∃ outer, h.ancestor? f distance = some outer ∧ h.binds outer name = true) ∧
      ((h.assignAt? f distance name value).isSome = true → ∀ g distance' other,
        ((FrameOp.assignAt f distance name value).run h).getAt? g distance' other =
          if h.ancestor? g distance' = h.ancestor? f distance ∧ other = name then some value
          else h.getAt? g distance' other) ∧
      ((h.assignAt? f distance name value).isSome = false → ∀ g distance' other,
        ((FrameOp.assignAt f distance name value).run h).getAt? g distance' other =
          h.getAt? g distance' other)) ∧
    (∀ f name value, f.index < h.frames.size → ∀ g distance other,
      ((FrameOp.define f name value).run h).getAt? g distance other =
        if h.ancestor? g distance = some f ∧ other = name then some value
        else h.getAt? g distance other) ∧
    (∀ h', h.Becomes h' → ∀ f name, h.binds f name = true → h'.binds f name = true) ∧
    (∀ f a b, h.ancestor? f (a + b) = (h.ancestor? f a).bind fun outer => h.ancestor? outer b) ∧
    ∀ f, ∃ chain, Climb h.enclosing? f chain ∧ ∀ distance,
      h.ancestor? f distance = chain[distance]? ∧
        (h.ancestor? f distance = none ↔ chain.length ≤ distance) := by
  refine ⟨fun f distance name value => ⟨isSome_assignAt?_iff, fun hsome => ?_, fun hnone => ?_⟩,
    fun f name value hf g distance other => h.getAt?_define hf g distance name other value,
    fun h' hbecomes => hbecomes.grows.binds, h.ancestor?_add, fun f => ?_⟩
  · obtain ⟨h', hafter⟩ := Option.isSome_iff_exists.mp hsome
    obtain ⟨outer, houter, hbinds, rfl⟩ := assignAt?_eq_some_iff.mp hafter
    intro g distance' other
    rw [FrameOp.run, hafter, Option.getD_some, houter]
    exact h.getAt?_define (index_lt_of_binds hbinds) g distance' name other value
  · intro g distance' other
    have habsent := Option.isNone_iff_eq_none.mp (Option.isSome_eq_false_iff.mp hnone)
    rw [FrameOp.run, habsent, Option.getD_none]
  · obtain ⟨chain, hchain⟩ := exists_climb (hbuilt.nested nested_empty) f
    refine ⟨chain, hchain, fun distance => ⟨ancestor?_of_climb hchain distance, ?_⟩⟩
    rw [ancestor?_of_climb hchain, List.getElem?_eq_none_iff]

/-- Two frames lie in one that binds a name, and the first of them binds the name itself. What the
first one assigns further out the second one reads, and what each of them binds stays. -/
theorem writes_exact_and_shared_siblings : ∃ h : Heap, Heap.empty.Becomes h ∧
    h.enclosing? ⟨1⟩ = some ⟨0⟩ ∧ h.enclosing? ⟨2⟩ = some ⟨0⟩ ∧ h.binds ⟨1⟩ "x" = true ∧
    (h.assignAt? ⟨1⟩ 1 "x" (.bool true)).isSome = true ∧
    ((FrameOp.assignAt ⟨1⟩ 1 "x" (.bool true)).run h).getAt? ⟨2⟩ 1 "x" = some (.bool true) ∧
    ((FrameOp.assignAt ⟨1⟩ 1 "x" (.bool true)).run h).getAt? ⟨1⟩ 0 "x" = some (.string "own") ∧
    ((FrameOp.assignAt ⟨1⟩ 1 "y" .nil).run h).getAt? ⟨2⟩ 1 "y" = none := by
  let ops : List FrameOp := [.new none, .define ⟨0⟩ "x" .nil, .new (some ⟨0⟩), .new (some ⟨0⟩),
    .define ⟨1⟩ "x" (.string "own")]
  have hbuilt : Heap.empty.Becomes (ops.foldl FrameOp.run Heap.empty) :=
    (((((Becomes.nothing _).operation (.new none) (by decide)).operation (.define ⟨0⟩ "x" .nil)
      (by decide)).operation (.new (some ⟨0⟩)) (by decide)).operation (.new (some ⟨0⟩))
        (by decide)).operation (.define ⟨1⟩ "x" (.string "own")) (by decide)
  obtain ⟨hassign, -⟩ := writes_exact_and_shared hbuilt
  obtain ⟨-, hsome, -⟩ := hassign ⟨1⟩ 1 "x" (.bool true)
  obtain ⟨-, -, hnone⟩ := hassign ⟨1⟩ 1 "y" .nil
  exact ⟨_, hbuilt, by decide, by decide, by decide, by decide, hsome (by decide) ⟨2⟩ 1 "x",
    hsome (by decide) ⟨1⟩ 0 "x", hnone (by decide) ⟨2⟩ 1 "y"⟩

end Heap
end Lox
