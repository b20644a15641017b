import Lox.Proofs.Twin.Kin
import Lox.Proofs.Twin.Eval

/-! # A machine beside itself

The simplest setting is that of one machine and itself. It tells nothing of
names, but all that worlds tell: which frames and functions there are, and that
nothing in the heap refers to any others. -/

namespace Lox.Twin

/-- All trees are kindred to themselves, wherever they stand. There is more than one place, so that
the functions that are values are told apart from methods. -/
def mirrorKinship : Kinship where
  Place := Bool
  inside _ _ := True
  span _ _ _ := True
  use _ id id' name name' := id' = id ∧ name' = name
  declare _ name name' := name' = name

theorem mirrorKinship_mirrors : mirrorKinship.Mirrors (fun _ => True) (fun _ => True) id where
  inside p _ := ⟨p, trivial, trivial⟩
  span _ _ _ := trivial
  use _ _ _ _ _ := ⟨rfl, rfl⟩
  declare _ _ _ := rfl

/-- Where the frames are the same, the same is seen. -/
theorem seesSuper_of_frames {h h' : Heap} (hf : h'.frames = h.frames) (f : FrameId)
    (found : Option Nat) : Option.Rel (SeesSuper h h' f f) found found := by
  cases found with
  | none => exact .none
  | some hops =>
    refine .some ⟨Heap.getAt?_of_frames hf f hops _, ?_⟩
    cases hops with
    | zero => rfl
    | succ inner => exact Heap.getAt?_of_frames hf f inner _

/-- The same frames; around each of those that are known stands another one that is. -/
structure MirrorFrames (globals : FrameId) (s : Sites Bool) (h h' : Heap) : Prop where
  same : h'.frames = h.frames
  globals : ∃ p, s globals globals p
  itself : ∀ {f f' p}, s f f' p → f' = f
  bound : ∀ f p, s f f p → f.index < h.frames.size
  outer : ∀ f p outer, s f f p → h.enclosing? f = some outer → ∃ q, s outer outer q

namespace MirrorFrames

variable {globals : FrameId} {s : Sites Bool} {h h' : Heap}

theorem congr (hf : MirrorFrames globals s h h') {k k' : Heap} (hk : k.frames = h.frames)
    (hk' : k'.frames = h'.frames) : MirrorFrames globals s k k' where
  same := hk'.trans (hf.same.trans hk.symm)
  globals := hf.globals
  itself := hf.itself
  bound f p hs := by
    rw [hk]
    exact hf.bound f p hs
  outer f p outer hs houter := hf.outer f p outer hs (Heap.enclosing?_of_frames hk f ▸ houter)

theorem define (hf : MirrorFrames globals s h h') (f : FrameId) (name : String) (v : Value) :
    MirrorFrames globals s (h.define f name v) (h'.define f name v) where
  same := Heap.frames_define hf.same f name v
  globals := hf.globals
  itself := hf.itself
  bound g p hs := by
    rw [Heap.size_define]
    exact hf.bound g p hs
  outer g p outer hs houter := hf.outer g p outer hs (Heap.enclosing?_define h f g name v ▸ houter)

theorem enter (hf : MirrorFrames globals s h h') {f : FrameId} {p q : Bool} (hs : s f f p)
    (names : Bindings Value) : MirrorFrames globals (s.put ⟨h.frames.size⟩ ⟨h'.frames.size⟩ q)
      (h.newFrame (some f) names).2 (h'.newFrame (some f) names).2 where
  same := Heap.frames_newFrame hf.same (some f) names
  globals := hf.globals.imp fun _ => .inl
  itself hg := by
    rcases hg with hg | ⟨rfl, rfl, -⟩
    · exact hf.itself hg
    · rw [hf.same]
  bound g p hg := by
    rw [Heap.size_newFrame]
    rcases hg with hg | ⟨rfl, -⟩
    · exact Nat.lt_succ_of_lt (hf.bound g p hg)
    · exact Nat.lt_succ_self _
  outer g p' outer hg houter := by
    rw [Heap.enclosing?_newFrame] at houter
    split at houter
    · obtain rfl := Option.some.inj houter
      exact ⟨p, .inl hs⟩
    · next hne =>
      rcases hg with hg | ⟨rfl, -⟩
      · exact (hf.outer g p' outer hg houter).imp fun _ => .inl
      · exact absurd rfl hne

theorem locate (hf : MirrorFrames globals s h h') (f : FrameId) (hops? : Option Nat)
    (name : String) : Matched (MirrorFrames globals s) h h' name name
      (h.frameFor? hops? f globals) (h'.frameFor? hops? f globals) := by
  have hsome (outer : FrameId) : Matched (MirrorFrames globals s) h h' name name (some outer)
      (some outer) := .some (Heap.get?_of_frames hf.same outer name) (hf.define outer name)
  cases hops? with
  | none => exact hsome globals
  | some hops =>
    unfold Heap.frameFor?
    dsimp only
    rw [Heap.ancestor?_of_frames hf.same]
    cases h.ancestor? f hops with
    | none => exact .none
    | some outer => exact hsome outer

end MirrorFrames

/-- The setting of a machine and itself. -/
def mirror (globals : FrameId) (known : Resolutions) : Setting where
  toKinship := mirrorKinship
  globals := globals
  globals' := globals
  known := known
  known' := known
  Frames := MirrorFrames globals
  distinct _ := fun h h' => by rw [show _ = _ from h, show _ = _ from h']
  keyword _ _ := rfl
  congr hf hk hk' := hf.congr hk hk'
  get hf hs hname := by
    obtain rfl := hf.itself hs
    obtain rfl := show _ = _ from hname
    exact Heap.get?_of_frames hf.same _ _
  define v hf hs hname := by
    obtain rfl := hf.itself hs
    obtain rfl := show _ = _ from hname
    exact hf.define _ _ v
  enter hf hs _ hnames := by
    obtain rfl := hf.itself hs
    rw [hnames.eq fun _ _ h => h]
    exact hf.enter hs _
  locate hf hs huse := by
    obtain rfl := hf.itself hs
    obtain ⟨rfl, rfl⟩ := huse
    exact hf.locate _ _ _
  super hf hs huse := by
    obtain rfl := hf.itself hs
    obtain ⟨rfl, -⟩ := huse
    exact seesSuper_of_frames hf.same _ _

/-- Not every function is a value and a method. -/
theorem not_open_mirror {globals : FrameId} {known : Resolutions} {w : World Bool} :
    ¬ (mirror globals known).Open w := by
  intro hopen
  cases (hopen.inside false true).mp trivial

end Lox.Twin
