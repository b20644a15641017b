import Lox.Proofs.Twin.Sim

/-! # Frames that hold nothing

Two machines run the same code, but now and then one of them enters a scope that
the other one does not have. Nothing is ever bound in the frame of such a scope,
so whatever is looked up there is found further out. A place tells for the
scopes around it, innermost first, whether both machines have a frame for them
or only one. Around them are the frames that were there before. -/

namespace Lox.Loops

open Twin

/-- Whether a scope has a frame on both machines, or on one of them only. -/
inductive Level where
  | shared
  | first
  | second
deriving DecidableEq

/-- The scopes around a place, innermost first. -/
abbrev Levels := List Level

/-- Names are bound at such a place: its innermost scope has a frame on both machines. -/
def Holding : Levels → Prop
  | [] | .shared :: _ => True
  | .first :: _ | .second :: _ => False

/-- From a place, at these distances, lie frames that go together and in which names are bound. -/
inductive Meets : Levels → Nat → Nat → Prop
  | outside {hops : Nat} : Meets [] hops hops
  | here {p : Levels} : Meets (.shared :: p) 0 0
  | shared {p : Levels} {hops hops' : Nat} (h : Meets p hops hops') :
    Meets (.shared :: p) (hops + 1) (hops' + 1)
  | first {p : Levels} {hops hops' : Nat} (h : Meets p hops hops') :
    Meets (.first :: p) (hops + 1) hops'
  | second {p : Levels} {hops hops' : Nat} (h : Meets p hops hops') :
    Meets (.second :: p) hops (hops' + 1)

/-- The frames just inside those at these distances go together, or there are none. -/
inductive MeetsWithin (p : Levels) : Nat → Nat → Prop
  | none : MeetsWithin p 0 0
  | some {hops hops' : Nat} (h : Meets p hops hops') : MeetsWithin p (hops + 1) (hops' + 1)

/-- Two uses of a name lead to frames that go together. With `super` this has to hold of the
frames of `this`, too. -/
structure Leads (p : Levels) (name : String) (hops hops' : Nat) : Prop where
  meets : Meets p hops hops'
  within : name = "super" → MeetsWithin p hops hops'

variable (R R' : Resolutions)

/-- The same texts, in which other nodes may stand for the same uses. -/
def kinship : Kinship where
  Place := Levels
  inside p q := q = .shared :: p
  span _ span span' := span' = span
  use p id id' name name' :=
    name' = name ∧ Option.Rel (Leads p name) (R.find? id) (R'.find? id')
  declare p name name' := name' = name ∧ Holding p

/-- What the frames that go together at a place hold, and what is around them. -/
inductive Around (s : Sites Levels) (h h' : Heap) (f f' : FrameId) : Levels → Prop
  | outside (names : ∀ name, h'.get? f' name = h.get? f name)
    (outer : Option.Rel (fun g g' => s g g' []) (h.enclosing? f) (h'.enclosing? f')) :
    Around s h h' f f' []
  | shared {p : Levels} {g g' : FrameId} (names : ∀ name, h'.get? f' name = h.get? f name)
    (outer : h.enclosing? f = some g) (outer' : h'.enclosing? f' = some g') (hs : s g g' p) :
    Around s h h' f f' (.shared :: p)
  | first {p : Levels} {g : FrameId} (names : ∀ name, h.get? f name = none)
    (outer : h.enclosing? f = some g) (hs : s g f' p) : Around s h h' f f' (.first :: p)
  | second {p : Levels} {g' : FrameId} (names : ∀ name, h'.get? f' name = none)
    (outer' : h'.enclosing? f' = some g') (hs : s f g' p) : Around s h h' f f' (.second :: p)

/-- The frames of the two machines. A frame in which names are bound goes with one other such
frame, and is none of those that hold nothing. -/
structure Framed (globals : FrameId) (s : Sites Levels) (h h' : Heap) : Prop where
  globals : s globals globals []
  bound : ∀ {f f' p}, s f f' p → f.index < h.frames.size ∧ f'.index < h'.frames.size
  around : ∀ {f f' p}, s f f' p → Around s h h' f f' p
  apart : ∀ {f f' p g g' q}, s f f' p → Holding p → s g g' q → Holding q → (f = g ↔ f' = g')
  first : ∀ {f f' p g g' q}, s f f' (.first :: p) → s g g' q → Holding q → g ≠ f
  second : ∀ {f f' p g g' q}, s f f' (.second :: p) → s g g' q → Holding q → g' ≠ f'

variable {R R'} {globals f f' : FrameId} {s s' : Sites Levels} {h h' k k' : Heap} {p q : Levels}
  {name : String}

theorem rel_imp {α β : Type} {r r' : α → β → Prop} {a : Option α} {b : Option β}
    (h : Option.Rel r a b) (himp : ∀ a b, r a b → r' a b) : Option.Rel r' a b := by
  cases h with
  | none => exact .none
  | some h => exact .some (himp _ _ h)

/-- What is around frames stays when their names do. -/
theorem Around.transfer (ha : Around s h h' f f' p) (hs : ∀ g g' q, s g g' q → s' g g' q)
    (houter : k.enclosing? f = h.enclosing? f) (houter' : k'.enclosing? f' = h'.enclosing? f')
    (hsame : Holding p → ∀ name, h'.get? f' name = h.get? f name → k'.get? f' name = k.get? f name)
    (hfirst : ∀ q, p = .first :: q → ∀ name, k.get? f name = h.get? f name)
    (hsecond : ∀ q, p = .second :: q → ∀ name, k'.get? f' name = h'.get? f' name) :
    Around s' k k' f f' p := by
  cases ha with
  | outside names outer =>
    refine .outside (fun name => hsame trivial name (names name)) ?_
    rw [houter, houter']
    exact rel_imp outer fun g g' => hs g g' []
  | shared names outer outer' hg =>
    exact .shared (fun name => hsame trivial name (names name)) (houter.trans outer)
      (houter'.trans outer') (hs _ _ _ hg)
  | first names outer hg =>
    exact .first (fun name => (hfirst _ rfl name).trans (names name)) (houter.trans outer)
      (hs _ _ _ hg)
  | second names outer' hg =>
    exact .second (fun name => (hsecond _ rfl name).trans (names name)) (houter'.trans outer')
      (hs _ _ _ hg)

theorem Around.names (ha : Around s h h' f f' p) (hp : Holding p) (name : String) :
    h'.get? f' name = h.get? f name := by
  cases ha with
  | outside names => exact names name
  | shared names => exact names name
  | first => exact hp.elim
  | second => exact hp.elim

namespace Framed

variable (hf : Framed globals s h h')

include hf

theorem congr (hk : k.frames = h.frames) (hk' : k'.frames = h'.frames) :
    Framed globals s k k' where
  globals := hf.globals
  bound hs := by
    rw [hk, hk']
    exact hf.bound hs
  around {f f' p} hs := by
    have hget (name : String) := Heap.get?_of_frames hk f name
    have hget' (name : String) := Heap.get?_of_frames hk' f' name
    refine (hf.around hs).transfer (fun _ _ _ hs => hs) (Heap.enclosing?_of_frames hk f)
      (Heap.enclosing?_of_frames hk' f') (fun _ name hsame => ?_) (fun _ _ => hget)
      fun _ _ => hget'
    rw [hget, hget', hsame]
  apart := hf.apart
  first := hf.first
  second := hf.second

/-- A name is bound in frames that go together. -/
theorem define (hs : s f f' p) (hp : Holding p) (name : String) (v : Value) :
    Framed globals s (h.define f name v) (h'.define f' name v) where
  globals := hf.globals
  bound hg := by
    rw [Heap.size_define, Heap.size_define]
    exact hf.bound hg
  around {g g' q} hg := by
    refine (hf.around hg).transfer (fun _ _ _ hs => hs) (Heap.enclosing?_define ..)
      (Heap.enclosing?_define ..) (fun hq other hsame => ?_) (fun r hr other => ?_)
      fun r hr other => ?_
    · have hbound := hf.bound hs
      rw [Heap.get?_define, Heap.get?_define, hsame]
      by_cases heq : f = g ∧ name = other
      · rw [if_pos ⟨(hf.apart hs hp hg hq).mp heq.1, heq.2, hbound.2⟩,
          if_pos ⟨heq.1, heq.2, hbound.1⟩]
      · rw [if_neg fun h => heq ⟨(hf.apart hs hp hg hq).mpr h.1, h.2.1⟩,
          if_neg fun h => heq ⟨h.1, h.2.1⟩]
    · subst hr
      exact (Heap.get?_define ..).trans (if_neg fun h => hf.first hg hs hp h.1)
    · subst hr
      exact (Heap.get?_define ..).trans (if_neg fun h => hf.second hg hs hp h.1)
  apart := hf.apart
  first := hf.first
  second := hf.second

end Framed

/-! ## New frames -/

/-- The frames of a heap are in another one as they were. -/
structure Kept (h k : Heap) : Prop where
  size : h.frames.size ≤ k.frames.size
  get : ∀ f : FrameId, f.index < h.frames.size → ∀ name, k.get? f name = h.get? f name
  enclosing : ∀ f : FrameId, f.index < h.frames.size → k.enclosing? f = h.enclosing? f

theorem Kept.refl (h : Heap) : Kept h h :=
  ⟨Nat.le_refl _, fun _ _ _ => rfl, fun _ _ => rfl⟩

theorem kept_newFrame (h : Heap) (outer : Option FrameId) (names : Bindings Value) :
    Kept h (h.newFrame outer names).2 where
  size := by
    rw [Heap.size_newFrame]
    exact Nat.le_succ _
  get f hf name := (Heap.get?_newFrame ..).trans (if_neg (Heap.newFrame_ne h outer names hf))
  enclosing f hf := (Heap.enclosing?_newFrame ..).trans (if_neg (Heap.newFrame_ne h outer names hf))

namespace Framed

variable (hf : Framed globals s h h')

include hf

/-- What is around frames is there also when there are more of them. -/
theorem kept (hk : Kept h k) (hk' : Kept h' k') (hs : ∀ g g' q, s g g' q → s' g g' q)
    (hg : s f f' p) : Around s' k k' f f' p := by
  obtain ⟨hbound, hbound'⟩ := hf.bound hg
  refine (hf.around hg).transfer hs (hk.enclosing f hbound) (hk'.enclosing f' hbound')
    (fun _ name hsame => ?_) (fun _ _ => hk.get f hbound) fun _ _ => hk'.get f' hbound'
  rw [hk.get f hbound, hk'.get f' hbound', hsame]

/-- Two more frames go together, of which those are new that are to hold something or nothing. -/
theorem put (hk : Kept h k) (hk' : Kept h' k') {f f' : FrameId} {p : Levels}
    (hbound : f.index < k.frames.size ∧ f'.index < k'.frames.size)
    (hnew : (∀ q, p ≠ .second :: q) → h.frames.size ≤ f.index)
    (hnew' : (∀ q, p ≠ .first :: q) → h'.frames.size ≤ f'.index)
    (haround : Around (s.put f f' p) k k' f f' p) : Framed globals (s.put f f' p) k k' where
  globals := .inl hf.globals
  bound hg := by
    rcases hg with hg | ⟨rfl, rfl, rfl⟩
    · obtain ⟨hlt, hlt'⟩ := hf.bound hg
      exact ⟨Nat.lt_of_lt_of_le hlt hk.size, Nat.lt_of_lt_of_le hlt' hk'.size⟩
    · exact hbound
  around hg := by
    rcases hg with hg | ⟨rfl, rfl, rfl⟩
    · exact hf.kept hk hk' (fun _ _ _ => .inl) hg
    · exact haround
  apart := by
    have hfresh {g g' q} (hp : Holding p) (hg : s g g' q) : f ≠ g ∧ f' ≠ g' := by
      obtain ⟨hlt, hlt'⟩ := hf.bound hg
      constructor
      · rintro rfl
        exact Nat.not_lt_of_le (hnew fun q hq => by subst hq; exact hp) hlt
      · rintro rfl
        exact Nat.not_lt_of_le (hnew' fun q hq => by subst hq; exact hp) hlt'
    intro g g' q b b' r hg hq hb hr
    rcases hg with hg | ⟨rfl, rfl, rfl⟩ <;> rcases hb with hb | ⟨rfl, rfl, rfl⟩
    · exact hf.apart hg hq hb hr
    · obtain ⟨hne, hne'⟩ := hfresh hr hg
      exact iff_of_false hne.symm hne'.symm
    · obtain ⟨hne, hne'⟩ := hfresh hq hb
      exact iff_of_false hne hne'
    · exact iff_of_true rfl rfl
  first := by
    rintro g g' q b b' r (hg | ⟨rfl, rfl, rfl⟩) (hb | ⟨rfl, rfl, rfl⟩) hr
    · exact hf.first hg hb hr
    · rintro rfl
      exact Nat.not_lt_of_le (hnew fun q hq => by subst hq; exact hr) (hf.bound hg).1
    · rintro rfl
      exact Nat.not_lt_of_le (hnew fun _ hq => by cases hq) (hf.bound hb).1
    · exact hr.elim
  second := by
    rintro g g' q b b' r (hg | ⟨rfl, rfl, rfl⟩) (hb | ⟨rfl, rfl, rfl⟩) hr
    · exact hf.second hg hb hr
    · rintro rfl
      exact Nat.not_lt_of_le (hnew' fun q hq => by subst hq; exact hr) (hf.bound hg).2
    · rintro rfl
      exact Nat.not_lt_of_le (hnew' fun _ hq => by cases hq) (hf.bound hb).2
    · exact hr.elim

/-- Both machines enter a scope. -/
theorem enter (hs : s f f' p) (names : Bindings Value) :
    Framed globals (s.put ⟨h.frames.size⟩ ⟨h'.frames.size⟩ (.shared :: p))
      (h.newFrame (some f) names).2 (h'.newFrame (some f') names).2 := by
  refine hf.put (kept_newFrame h _ names) (kept_newFrame h' _ names) ?_ (fun _ => Nat.le_refl _)
    (fun _ => Nat.le_refl _) ?_
  · rw [Heap.size_newFrame, Heap.size_newFrame]
    exact ⟨Nat.lt_succ_self _, Nat.lt_succ_self _⟩
  · refine .shared (fun name => ?_) (Heap.enclosing?_newFrame_self ..)
      (Heap.enclosing?_newFrame_self ..) (.inl hs)
    exact (Heap.get?_newFrame ..).trans ((if_pos rfl).trans
      ((Heap.get?_newFrame ..).trans (if_pos rfl)).symm)

/-- Only the first machine enters a scope, in which nothing is bound. -/
theorem enterFirst (hs : s f f' p) : Framed globals (s.put ⟨h.frames.size⟩ f' (.first :: p))
    (h.newFrame (some f) .empty).2 h' := by
  refine hf.put (kept_newFrame h _ _) (.refl h') ⟨?_, (hf.bound hs).2⟩ (fun _ => Nat.le_refl _)
    (fun hne => absurd rfl (hne p)) ?_
  · rw [Heap.size_newFrame]
    exact Nat.lt_succ_self _
  · refine .first (fun name => ?_) (Heap.enclosing?_newFrame_self ..) (.inl hs)
    exact (Heap.get?_newFrame ..).trans (if_pos rfl)

/-- Only the second machine enters a scope, in which nothing is bound. -/
theorem enterSecond (hs : s f f' p) : Framed globals (s.put f ⟨h'.frames.size⟩ (.second :: p)) h
    (h'.newFrame (some f') .empty).2 := by
  refine hf.put (.refl h) (kept_newFrame h' _ _) ⟨(hf.bound hs).1, ?_⟩
    (fun hne => absurd rfl (hne p)) (fun _ => Nat.le_refl _) ?_
  · rw [Heap.size_newFrame]
    exact Nat.lt_succ_self _
  · refine .second (fun name => ?_) (Heap.enclosing?_newFrame_self ..) (.inl hs)
    exact (Heap.get?_newFrame ..).trans (if_pos rfl)

/-! ## Looking things up -/

/-- At distances that meet lie frames that go together and in which names are bound. -/
theorem reach {hops hops' : Nat} (hs : s f f' p) (hm : Meets p hops hops') :
    Option.Rel (fun g g' => ∃ q, s g g' q ∧ Holding q) (h.ancestor? f hops)
      (h'.ancestor? f' hops') := by
  induction hm generalizing f f' with
  | @outside hops =>
    induction hops generalizing f f' with
    | zero => exact .some ⟨[], hs, trivial⟩
    | succ hops ih =>
      cases hf.around hs with
      | outside names outer =>
        unfold Heap.ancestor?
        generalize h.enclosing? f = g at outer ⊢
        generalize h'.enclosing? f' = g' at outer ⊢
        cases outer with
        | none => exact .none
        | some hg => exact ih hg
  | here => exact .some ⟨_, hs, trivial⟩
  | shared _ ih =>
    cases hf.around hs with
    | shared names outer outer' hg =>
      rw [Heap.ancestor?, outer, Heap.ancestor?, outer']
      exact ih hg
  | first _ ih =>
    cases hf.around hs with
    | first names outer hg =>
      rw [Heap.ancestor?, outer]
      exact ih hg
  | second _ ih =>
    cases hf.around hs with
    | second names outer' hg =>
      rw [Heap.ancestor?.eq_def h', outer']
      exact ih hg

theorem getAt {hops hops' : Nat} (hs : s f f' p) (hm : Meets p hops hops') (name : String) :
    h'.getAt? f' hops' name = h.getAt? f hops name := by
  have hreach := hf.reach hs hm
  unfold Heap.getAt?
  generalize h.ancestor? f hops = g at hreach ⊢
  generalize h'.ancestor? f' hops' = g' at hreach ⊢
  cases hreach with
  | none => rfl
  | some hg =>
    obtain ⟨q, hg, hq⟩ := hg
    exact (hf.around hg).names hq name

/-- Where two uses find their variables. -/
theorem locate {hops hops' : Option Nat} (hs : s f f' p)
    (hm : Option.Rel (Leads p name) hops hops') :
    Matched (Framed globals s) h h' name name (h.frameFor? hops f globals)
      (h'.frameFor? hops' f' globals) := by
  have hsome {g g' q} (hg : s g g' q) (hq : Holding q) :
      Matched (Framed globals s) h h' name name (some g) (some g') :=
    .some ((hf.around hg).names hq name) fun v => hf.define hg hq name v
  cases hm with
  | none => exact hsome hf.globals trivial
  | @some hops hops' hleads =>
    have hreach := hf.reach hs hleads.meets
    unfold Heap.frameFor?
    dsimp only
    generalize h.ancestor? f hops = g at hreach ⊢
    generalize h'.ancestor? f' hops' = g' at hreach ⊢
    cases hreach with
    | none => exact .none
    | some hg =>
      obtain ⟨q, hg, hq⟩ := hg
      exact hsome hg hq

theorem super {hops hops' : Option Nat} (hs : s f f' p)
    (hm : Option.Rel (Leads p "super") hops hops') :
    Option.Rel (SeesSuper h h' f f') hops hops' := by
  refine rel_imp hm fun hops hops' hleads => ⟨hf.getAt hs hleads.meets _, ?_⟩
  cases hleads.within rfl with
  | none => rfl
  | some hwithin => exact hf.getAt hs hwithin _

end Framed

/-- The setting of two machines of which each may enter scopes that the other one does not have. -/
def setting (R R' : Resolutions) (globals : FrameId) : Setting where
  toKinship := kinship R R'
  globals := globals
  globals' := globals
  known := R
  known' := R'
  Frames := Framed globals
  distinct _ := fun h h' => by rw [h.1, h'.1]
  keyword hinside _ := by
    obtain rfl := hinside
    exact ⟨rfl, trivial⟩
  congr hf hk hk' := hf.congr hk hk'
  get hf hs hname := by
    obtain ⟨rfl, hp⟩ := hname
    exact (hf.around hs).names hp _
  define v hf hs hname := by
    obtain ⟨rfl, hp⟩ := hname
    exact hf.define hs hp _ v
  enter hf hs hinside hnames := by
    obtain rfl := hinside
    obtain rfl := hnames.eq fun _ _ (hname : _ ∧ _) => hname.1
    exact hf.enter hs _
  locate hf hs huse := by
    obtain ⟨rfl, hm⟩ := huse
    exact hf.locate hs hm
  super hf hs huse := hf.super hs huse.2

end Lox.Loops
