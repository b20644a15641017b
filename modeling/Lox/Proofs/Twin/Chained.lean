import Lox.Proofs.Twin.Setting

/-! # Frames one around the other

In many settings the frames around the present one stand at the places around
the text, and a frame holds under a name what the other one holds under the name
that is declared in its stead. This stays so when a variable is bound and when a
scope is entered. -/

namespace Lox

/-- The frame that was made so many frames later. -/
def FrameId.later (shift : Nat) (f : FrameId) : FrameId := ⟨f.index + shift⟩

theorem FrameId.later_inj {shift : Nat} {f g : FrameId} :
    f.later shift = g.later shift ↔ f = g := by
  obtain ⟨i⟩ := f
  obtain ⟨j⟩ := g
  simp only [later, FrameId.mk.injEq, Nat.add_right_cancel_iff]

namespace Twin

/-- A place that lies so many scopes further out. -/
def Kinship.Outward (K : Kinship) : Nat → K.Place → K.Place → Prop
  | 0, p, q => q = p
  | hops + 1, p, q => ∃ outer, K.inside outer p ∧ K.Outward hops outer q

/-- The frames that stand at places hold the same under names that go together, and the frames
around them stand at the places around. -/
structure Chained (K : Kinship) (shift : Nat) (s : Sites K.Place) (h h' : Heap) : Prop where
  size : h'.frames.size = h.frames.size + shift
  later : ∀ {f f' p}, s f f' p → f' = f.later shift
  bound : ∀ {f p}, s f (f.later shift) p → f.index < h.frames.size
  unique : ∀ {f p q}, s f (f.later shift) p → s f (f.later shift) q → p = q
  chain : ∀ {f p q}, s f (f.later shift) q → K.inside p q → ∃ outer,
    h.enclosing? f = some outer ∧ h'.enclosing? (f.later shift) = some (outer.later shift) ∧
      s outer (outer.later shift) p
  held : ∀ {f p name name'}, s f (f.later shift) p → K.declare p name name' →
    h'.get? (f.later shift) name' = h.get? f name

namespace Chained

variable {K : Kinship} {shift : Nat} {s : Sites K.Place} {h h' : Heap} {f : FrameId}
  {p q : K.Place}

/-- The frame that lies so many frames further out. -/
theorem ancestor (hc : Chained K shift s h h') {hops : Nat} (hf : s f (f.later shift) p)
    (hout : K.Outward hops p q) : ∃ outer, h.ancestor? f hops = some outer ∧
      h'.ancestor? (f.later shift) hops = some (outer.later shift) ∧
        s outer (outer.later shift) q := by
  induction hops generalizing f p with
  | zero =>
    obtain rfl : q = p := hout
    exact ⟨f, rfl, rfl, hf⟩
  | succ hops ih =>
    obtain ⟨o, hinside, hout⟩ := hout
    obtain ⟨e, he, he', hs⟩ := hc.chain hf hinside
    obtain ⟨outer, houter, houter', hs⟩ := ih hs hout
    refine ⟨outer, ?_, ?_, hs⟩
    · rw [Heap.ancestor?, he]
      exact houter
    · rw [Heap.ancestor?, he']
      exact houter'

theorem bound' (hc : Chained K shift s h h') (hf : s f (f.later shift) p) :
    (f.later shift).index < h'.frames.size := by
  rw [hc.size]
  exact Nat.add_lt_add_right (hc.bound hf) shift

theorem congr (hc : Chained K shift s h h') {k k' : Heap} (hk : k.frames = h.frames)
    (hk' : k'.frames = h'.frames) : Chained K shift s k k' where
  size := by rw [hk, hk']; exact hc.size
  later := hc.later
  bound hf := by rw [hk]; exact hc.bound hf
  unique := hc.unique
  chain hf hinside := by
    rw [Heap.enclosing?_of_frames hk, Heap.enclosing?_of_frames hk']
    exact hc.chain hf hinside
  held hf hname := by
    rw [Heap.get?_of_frames hk, Heap.get?_of_frames hk']
    exact hc.held hf hname

/-- Names that go together are bound in frames that do, when they are the same names together. -/
theorem define (hc : Chained K shift s h h') {name name' : String} (hf : s f (f.later shift) p)
    (hname : K.declare p name name') (hdistinct : K.Distinct p) (v : Value) :
    Chained K shift s (h.define f name v) (h'.define (f.later shift) name' v) where
  size := by
    rw [Heap.size_define, Heap.size_define]
    exact hc.size
  later := hc.later
  bound hg := by
    rw [Heap.size_define]
    exact hc.bound hg
  unique := hc.unique
  chain hg hinside := by
    rw [Heap.enclosing?_define, Heap.enclosing?_define]
    exact hc.chain hg hinside
  held {g q other other'} hg hother := by
    rw [Heap.get?_define, Heap.get?_define, hc.held hg hother]
    by_cases hfg : f = g
    · subst hfg
      obtain rfl := hc.unique hf hg
      have hsame := hdistinct hname hother
      by_cases heq : name = other
      · rw [if_pos ⟨rfl, hsame.mp heq, hc.bound' hf⟩, if_pos ⟨rfl, heq, hc.bound hf⟩]
      · rw [if_neg fun h => heq (hsame.mpr h.2.1), if_neg fun h => heq h.2.1]
    · rw [if_neg fun h => hfg (FrameId.later_inj.mp h.1), if_neg fun h => hfg h.1]

/-- The new frames go together. -/
theorem later_size (hc : Chained K shift s h h') :
    FrameId.later shift ⟨h.frames.size⟩ = ⟨h'.frames.size⟩ :=
  congrArg FrameId.mk hc.size.symm

/-- A scope is entered in a new frame. -/
theorem enter (hc : Chained K shift s h h')
    (houter : ∀ {p p' q}, K.inside p q → K.inside p' q → p = p')
    {names names' : Bindings Value} (hf : s f (f.later shift) p) (hinside : K.inside p q)
    (hdistinct : K.Distinct q) (hnames : K.Paired q names names') :
    Chained K shift (s.put ⟨h.frames.size⟩ ⟨h'.frames.size⟩ q) (h.newFrame (some f) names).2
      (h'.newFrame (some (f.later shift)) names').2 where
  size := by
    rw [Heap.size_newFrame, Heap.size_newFrame, hc.size, Nat.add_right_comm]
  later hg := by
    rcases hg with hg | ⟨rfl, rfl, -⟩
    · exact hc.later hg
    · exact hc.later_size.symm
  bound hg := by
    rw [Heap.size_newFrame]
    rcases hg with hg | ⟨rfl, -⟩
    · exact Nat.lt_succ_of_lt (hc.bound hg)
    · exact Nat.lt_succ_self _
  unique hg hg' := by
    rcases hg with hg | ⟨rfl, -, rfl⟩ <;> rcases hg' with hg' | ⟨heq, -, rfl⟩
    · exact hc.unique hg hg'
    · exact absurd heq (Heap.newFrame_ne h (some f) names (hc.bound hg))
    · exact absurd rfl (Heap.newFrame_ne h (some f) names (hc.bound hg'))
    · rfl
  chain {g p' q'} hg hinside' := by
    rw [Heap.enclosing?_newFrame, Heap.enclosing?_newFrame]
    rcases hg with hg | ⟨rfl, -, rfl⟩
    · rw [if_neg (Heap.newFrame_ne h _ _ (hc.bound hg)),
        if_neg (Heap.newFrame_ne h' _ _ (hc.bound' hg))]
      obtain ⟨outer, he, he', hs⟩ := hc.chain hg hinside'
      exact ⟨outer, he, he', .inl hs⟩
    · obtain rfl := houter hinside hinside'
      exact ⟨f, if_pos rfl, if_pos hc.later_size, .inl hf⟩
  held {g q' name name'} hg hname := by
    rw [Heap.get?_newFrame, Heap.get?_newFrame]
    rcases hg with hg | ⟨rfl, -, rfl⟩
    · rw [if_neg (Heap.newFrame_ne h _ _ (hc.bound hg)),
        if_neg (Heap.newFrame_ne h' _ _ (hc.bound' hg))]
      exact hc.held hg hname
    · exact (if_pos hc.later_size).trans ((hnames.get? hdistinct hname).trans (if_pos rfl).symm)

end Chained
end Twin
end Lox
