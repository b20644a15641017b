import Lox.Proofs.Twin.Chained

/-! # A program and the block of it

The same program is run at the top and inside a block. Each frame of the first
run goes with one that was made one frame later in the second run; that of the
global names goes with that of the block. A name that the program declares at its
top is looked up by its name in the first run, and so many frames further out in
the second one. All other global names stay global in both. -/

namespace Lox.Blocks

open Twin

/-- What is recorded for a use so many scopes below the top of a program, and inside a block. -/
inductive Found (R R' : Resolutions) (top : String → Prop) (depth id : Nat) (name : String) : Prop
  | inner {hops : Nat} (near : hops < depth) (known : R.find? id = some hops)
    (known' : R'.find? id = some hops) : Found R R' top depth id name
  | top (htop : top name) (known : R.find? id = none) (known' : R'.find? id = some depth) :
    Found R R' top depth id name
  | global (htop : ¬ top name) (known : R.find? id = none) (known' : R'.find? id = none) :
    Found R R' top depth id name

variable (R R' : Resolutions) (top : String → Prop)

/-- A place is known by the number of scopes around it. -/
def kinship : Kinship where
  Place := Nat
  inside depth depth' := depth' = depth + 1
  span _ span span' := span' = span
  use depth id id' name name' := id' = id ∧ name' = name ∧ Found R R' top depth id name
  declare depth name name' := name' = name ∧ (depth = 0 → top name)

/-- The frames of the two runs. -/
structure Framed (s : Sites Nat) (h h' : Heap) : Prop extends
    Chained (kinship R R' top) 1 s h h' where
  topmost : s ⟨0⟩ ⟨1⟩ 0
  only : ∀ f, s f (f.later 1) 0 → f = ⟨0⟩
  others : ∀ name, ¬ top name → h'.get? ⟨0⟩ name = h.get? ⟨0⟩ name

variable {R R' top}

theorem outward {hops depth : Nat} (h : hops ≤ depth) :
    (kinship R R' top).Outward hops depth (depth - hops) := by
  induction hops generalizing depth with
  | zero => rfl
  | succ hops ih =>
    obtain ⟨outer, rfl⟩ : ∃ outer, depth = outer + 1 := ⟨depth - 1, by omega⟩
    refine ⟨outer, rfl, ?_⟩
    rw [Nat.succ_sub_succ]
    exact ih (by omega)

theorem distinct (depth : Nat) : (kinship R R' top).Distinct depth := fun h h' => by rw [h.1, h'.1]

theorem later_ne_globals (f : FrameId) : f.later 1 ≠ ⟨0⟩ := by
  intro h
  exact Nat.succ_ne_zero _ (FrameId.mk.inj h)

variable {s : Sites Nat} {h h' : Heap} {f : FrameId} {depth : Nat} {name : String}

namespace Framed

theorem congr (hf : Framed R R' top s h h') {k k' : Heap} (hk : k.frames = h.frames)
    (hk' : k'.frames = h'.frames) : Framed R R' top s k k' where
  toChained := hf.toChained.congr hk hk'
  topmost := hf.topmost
  only := hf.only
  others other hother := by
    rw [Heap.get?_of_frames hk, Heap.get?_of_frames hk']
    exact hf.others other hother

/-- A name that a scope declares is bound. -/
theorem define (hf : Framed R R' top s h h') (v : Value) (hs : s f (f.later 1) depth)
    (hname : depth = 0 → top name) :
    Framed R R' top s (h.define f name v) (h'.define (f.later 1) name v) where
  toChained := hf.toChained.define hs ⟨rfl, hname⟩ (distinct depth) v
  topmost := hf.topmost
  only := hf.only
  others other hother := by
    rw [Heap.get?_define, Heap.get?_define, if_neg fun h => later_ne_globals f h.1]
    by_cases heq : f = ⟨0⟩ ∧ name = other
    · obtain ⟨rfl, rfl⟩ := heq
      exact absurd (hname (hf.unique hs hf.topmost)) hother
    · rw [if_neg fun h => heq ⟨h.1, h.2.1⟩]
      exact hf.others other hother

/-- A global name of no scope of the program is bound. -/
theorem define_global (hf : Framed R R' top s h h') (v : Value) (hname : ¬ top name) :
    Framed R R' top s (h.define ⟨0⟩ name v) (h'.define ⟨0⟩ name v) where
  size := by
    rw [Heap.size_define, Heap.size_define]
    exact hf.size
  later := hf.later
  bound hg := by
    rw [Heap.size_define]
    exact hf.bound hg
  unique := hf.unique
  chain hg hinside := by
    rw [Heap.enclosing?_define, Heap.enclosing?_define]
    exact hf.chain hg hinside
  held {g depth other other'} hg hother := by
    rw [Heap.get?_define, Heap.get?_define, hf.held hg hother,
      if_neg fun h => later_ne_globals g h.1.symm, if_neg]
    rintro ⟨rfl, rfl, -⟩
    exact hname (hother.2 (hf.unique hg hf.topmost))
  topmost := hf.topmost
  only := hf.only
  others other hother := by
    have hsize := hf.size
    have hbound := hf.bound hf.topmost
    rw [Heap.get?_define, Heap.get?_define, hf.others other hother]
    by_cases heq : name = other
    · rw [if_pos ⟨rfl, heq, by omega⟩, if_pos ⟨rfl, heq, hbound⟩]
    · rw [if_neg fun h => heq h.2.1, if_neg fun h => heq h.2.1]

theorem enter (hf : Framed R R' top s h h') {names names' : Bindings Value} (hs : s f (f.later 1) depth)
    (hnames : (kinship R R' top).Paired (depth + 1) names names') :
    Framed R R' top (s.put ⟨h.frames.size⟩ ⟨h'.frames.size⟩ (depth + 1)) (h.newFrame (some f) names).2
      (h'.newFrame (some (f.later 1)) names').2 where
  toChained := hf.toChained.enter
    (fun hinside hinside' => Nat.succ.inj (hinside.symm.trans hinside')) hs rfl
    (distinct (depth + 1)) hnames
  topmost := .inl hf.topmost
  only g hg := by
    rcases hg with hg | ⟨-, hg⟩
    · exact hf.only g hg
    · exact absurd hg.2.symm (Nat.succ_ne_zero depth)
  others other hother := by
    have hsize := hf.size
    have hbound := hf.bound hf.topmost
    rw [Heap.get?_newFrame, Heap.get?_newFrame, if_neg (Heap.newFrame_ne h _ _ hbound),
      if_neg (Heap.newFrame_ne h' _ _ (by omega))]
    exact hf.others other hother

/-- A frame of a scope of the program. -/
theorem inner (hf : Framed R R' top s h h') {hops : Nat} (hs : s f (f.later 1) depth) (hnear : hops < depth) :
    ∃ outer, h.ancestor? f hops = some outer ∧
      h'.ancestor? (f.later 1) hops = some (outer.later 1) ∧
        s outer (outer.later 1) (depth - hops) :=
  hf.ancestor hs (outward (Nat.le_of_lt hnear))

theorem getAt (hf : Framed R R' top s h h') {hops : Nat} (hs : s f (f.later 1) depth) (hnear : hops < depth) :
    h'.getAt? (f.later 1) hops name = h.getAt? f hops name := by
  obtain ⟨outer, houter, houter', hs⟩ := hf.inner hs hnear
  unfold Heap.getAt?
  rw [houter, houter']
  exact hf.held hs ⟨rfl, fun h => by omega⟩

/-- Where a use finds its variable. -/
theorem locate (hf : Framed R R' top s h h') {id : Nat} (hs : s f (f.later 1) depth)
    (hfound : Found R R' top depth id name) :
    Matched (Framed R R' top s) h h' name name (h.frameFor? (R.find? id) f ⟨0⟩)
      (h'.frameFor? (R'.find? id) (f.later 1) ⟨0⟩) := by
  cases hfound with
  | inner near known known' =>
    obtain ⟨outer, houter, houter', hs⟩ := hf.inner hs near
    rw [known, known']
    unfold Heap.frameFor?
    dsimp only
    rw [houter, houter']
    exact .some (hf.held hs ⟨rfl, fun h => by omega⟩) fun v => hf.define v hs fun h => by omega
  | top htop known known' =>
    obtain ⟨outer, -, houter', hs⟩ := hf.ancestor hs (outward (Nat.le_refl depth))
    rw [Nat.sub_self] at hs
    obtain rfl := hf.only outer hs
    rw [known, known']
    unfold Heap.frameFor?
    dsimp only
    rw [houter']
    exact .some (hf.held hs ⟨rfl, fun _ => htop⟩) fun v => hf.define v hs fun _ => htop
  | global htop known known' =>
    rw [known, known']
    exact .some (hf.others name htop) fun v => hf.define_global v htop

end Framed

/-- The setting of the two runs, in which `super` is no name of the program. -/
def setting (R R' : Resolutions) (top : String → Prop) (hsuper : ¬ top "super") : Setting where
  toKinship := kinship R R' top
  globals := ⟨0⟩
  globals' := ⟨0⟩
  known := R
  known' := R'
  Frames := Framed R R' top
  distinct := distinct
  keyword hinside _ := ⟨rfl, fun h => absurd (hinside.symm.trans h) (Nat.succ_ne_zero _)⟩
  congr hf hk hk' := hf.congr hk hk'
  get hf hs hname := by
    obtain rfl := hf.later hs
    exact hf.held hs hname
  define v hf hs hname := by
    obtain rfl := hf.later hs
    obtain ⟨rfl, htop⟩ := hname
    exact hf.define v hs htop
  enter hf hs hinside hnames := by
    obtain rfl := hf.later hs
    obtain rfl := hinside
    exact hf.enter hs hnames
  locate hf hs huse := by
    obtain rfl := hf.later hs
    obtain ⟨rfl, rfl, hfound⟩ := huse
    exact hf.locate hs hfound
  super hf hs huse := by
    obtain rfl := hf.later hs
    obtain ⟨rfl, -, hfound⟩ := huse
    cases hfound with
    | @inner hops near known known' =>
      rw [known, known']
      refine .some ⟨hf.getAt hs near, ?_⟩
      cases hops with
      | zero => rfl
      | succ inner => exact hf.getAt hs (Nat.lt_of_succ_lt near)
    | top htop => exact absurd htop hsuper
    | global _ known known' =>
      rw [known, known']
      exact .none

end Lox.Blocks
