import Lox.Proofs.Grammar.Recovery.Holes

/-! # Tracking the guide

A rule tracks the guide when it does in the other text what it does in the guide,
as long as the guide finds no error. At the hole itself the texts differ, and a
rule that has looked at the token there to end may go on in the other text. Such a
rule is loose: it tracks the guide unless that comes to stand at the hole. A tight
rule has not looked there.

What a rule does in the other text is said for many fillings at once, because the
place of the hole is the same for all of them. -/

namespace Lox.Grammar

open Rule

variable {α β : Type} {H : Hole}

/-- A rule takes tokens from the front and notes errors, at least one before it unwinds. -/
structure Moves (r : Rule α) : Prop where
  ends : ∀ c, Ends r c (fun _ c' => c'.tokens <:+ c.tokens ∧ c.errors.size ≤ c'.errors.size)
    fun halt c' => halt = .unwound → c'.tokens <:+ c.tokens ∧ c.errors.size < c'.errors.size

/-- In the other text a rule runs out of steps, or it has the result that the guide has. -/
def Filling.Yields (F : Filling H) (V : α → β → Prop) (r : Rule β) (a : α) (c c' d : Cursor) :
    Prop :=
  (∃ d', r d = .error .starved d') ∨
    ∃ b d', r d = .ok b d' ∧ V a b ∧ F.Follows c' d' ∧ d'.errors = d.errors ++ F.told c c'

variable {J : Type} {F : J → Filling H} {tight : Bool} {V : Filling H → α → α → Prop}
  {W : Filling H → β → β → Prop}

/-- The guide has come from one cursor to another, and this holds wherever another text stands
beside the first one. -/
def Tracked (F : J → Filling H) (tight : Bool) (c c' : Cursor) (Y : J → Cursor → Prop) : Prop :=
  H.Outside c' ∧ ((H.At c' → tight = true) →
    ∃ p, (H.Crosses c c' → H.Reopens p) ∧ ∀ j d, (F j).Follows c d →
      (H.Crosses c c' → (F j).Passes p) → Y j d)

theorem Tracked.imp {c c' : Cursor} {Y Y' : J → Cursor → Prop} (h : Tracked F tight c c' Y)
    (hY : ∀ j d, (F j).Follows c d → Y j d → Y' j d) : Tracked F tight c c' Y' := by
  obtain ⟨hout, htrack⟩ := h
  refine ⟨hout, fun htight => ?_⟩
  obtain ⟨p, hopen, hyields⟩ := htrack htight
  exact ⟨p, hopen, fun j d hfollows hpasses => hY j d hfollows (hyields j d hfollows hpasses)⟩

/-- From such cursors of the guide a rule tracks it. -/
def TracksFrom (start : Cursor → Prop) (F : J → Filling H) (tight : Bool)
    (V : Filling H → α → α → Prop) (r : Rule α) (r' : J → Rule α) : Prop :=
  ∀ ⦃c⦄, start c → ∀ ⦃a c'⦄, r c = .ok a c' → c'.errors.size = c.errors.size →
    H.Outside c' ∧ ((H.At c' → tight = true) →
      ∃ p, (H.Crosses c c' → H.Reopens p) ∧ ∀ j d, (F j).Follows c d →
        (H.Crosses c c' → (F j).Passes p) → (F j).Yields (V (F j)) (r' j) a c c' d)

/-- A rule tracks the guide. -/
structure Tracks (F : J → Filling H) (tight : Bool) (V : Filling H → α → α → Prop) (r : Rule α)
    (r' : J → Rule α) : Prop where
  moves : Moves r
  off : TracksFrom H.Off F tight V r r'

/-- A rule tracks the guide from the hole on. -/
abbrev TracksAt (F : J → Filling H) (tight : Bool) (V : Filling H → α → α → Prop) (r : Rule α)
    (r' : J → Rule α) : Prop := TracksFrom H.At F tight V r r'

/-- A rule does not come away from the hole. -/
def Stuck (H : Hole) (tight : Bool) (r : Rule α) : Prop :=
  ∀ ⦃c⦄, H.At c → ∀ ⦃a c'⦄, r c = .ok a c' → H.At c' ∧ tight = false

theorem Stuck.tracksAt {r : Rule α} {r' : J → Rule α} (h : Stuck H tight r) :
    TracksAt F tight V r r' := by
  intro c hat a c' hr _
  obtain ⟨hat', hloose⟩ := h hat hr
  refine ⟨.inr (.inl hat'), fun htight => ?_⟩
  rw [htight hat'] at hloose
  cases hloose

/-! ## Moving -/

theorem moves_pure (a : α) : Moves (pure a) := ⟨fun _ => ⟨List.suffix_rfl, Nat.le_refl _⟩⟩

theorem moves_refuse {error : GrammarError} : Moves (refuse error : Rule α) := by
  refine ⟨fun c => ?_⟩
  intro _
  simp [Cursor.note]

theorem moves_starve : Moves (starve : Rule α) := ⟨fun _ h => by cases h⟩

theorem Moves.bind {r : Rule α} {k : α → Rule β} (h : Moves r) (hk : ∀ a, Moves (k a)) :
    Moves (r >>= k) := by
  refine ⟨fun c => ?_⟩
  rw [ends_bind]
  refine (h.ends c).imp ?_ fun _ _ h => h
  intro a c' ⟨htokens, herrors⟩
  refine ((hk a).ends c').imp ?_ ?_
  · intro b c'' ⟨htokens', herrors'⟩
    exact ⟨htokens'.trans htokens, Nat.le_trans herrors herrors'⟩
  · intro halt c'' hgrown hunwound
    obtain ⟨htokens', herrors'⟩ := hgrown hunwound
    exact ⟨htokens'.trans htokens, Nat.lt_of_le_of_lt herrors herrors'⟩

/-- A step that takes tokens or notes errors leaves the rest to be moved from there. -/
theorem Moves.of_step {r r' : Rule α} {c c' : Cursor} (h : Moves r') (hstep : r c = r' c')
    (htokens : c'.tokens <:+ c.tokens) (herrors : c.errors.size ≤ c'.errors.size) :
    Ends r c (fun _ d => d.tokens <:+ c.tokens ∧ c.errors.size ≤ d.errors.size)
      fun halt d => halt = .unwound → d.tokens <:+ c.tokens ∧ c.errors.size < d.errors.size := by
  have hends := h.ends c'
  unfold Ends at hends ⊢
  rw [hstep]
  cases hr : r' c' with
  | ok a d =>
    rw [hr] at hends
    exact ⟨hends.1.trans htokens, Nat.le_trans herrors hends.2⟩
  | error halt d =>
    rw [hr] at hends
    intro hunwound
    obtain ⟨htokens', herrors'⟩ := hends hunwound
    exact ⟨htokens'.trans htokens, Nat.lt_of_le_of_lt herrors herrors'⟩

/-! ## In sequence -/

/-- What is tracked up to a cursor and from there on is tracked. -/
theorem TracksFrom.bind {start : Cursor → Prop} {tight₁ : Bool} {r : Rule α} {r' : J → Rule α}
    {k : α → Rule β} {k' : J → α → Rule β} (h : TracksFrom start F tight₁ V r r') (hr : Moves r)
    (hk : ∀ a {I : Type} (π : I → J) (b : I → α), (∀ i, V (F (π i)) a (b i)) →
      Tracks (fun i => F (π i)) tight W (k a) fun i => k' (π i) (b i))
    (hat : ∀ a {I : Type} (π : I → J) (b : I → α), (∀ i, V (F (π i)) a (b i)) →
      TracksAt (fun i => F (π i)) tight W (k a) fun i => k' (π i) (b i))
    (hloose : tight₁ = false → ∀ a, Stuck H tight (k a)) :
    TracksFrom start F tight W (r >>= k) fun j => r' j >>= k' j := by
  intro c hstart b c₂ hrun hclean
  cases hfirst : r c with
  | error halt c₁ =>
    rw [bind_of_error hfirst] at hrun
    cases hrun
  | ok a c₁ =>
    rw [bind_of_ok hfirst] at hrun
    obtain ⟨htokens₁, herrors₁⟩ := (hr.ends c).of_ok hfirst
    obtain ⟨htokens₂, herrors₂⟩ :=
      ((hk a (fun i : Empty => i.elim) (fun i => i.elim) fun i => i.elim).moves.ends c₁).of_ok hrun
    obtain ⟨hout₁, htrack₁⟩ := h hstart hfirst (by omega)
    -- The second part is tracked for all results that the first one may have.
    let I := { x : J × α // V (F x.1) a x.2 }
    have hsecond : H.Outside c₂ ∧ ((H.At c₂ → tight = true) → (H.At c₁ → tight₁ = true) ∧
        ∃ p, (H.Crosses c₁ c₂ → H.Reopens p) ∧ ∀ (i : I) d, (F i.1.1).Follows c₁ d →
          (H.Crosses c₁ c₂ → (F i.1.1).Passes p) →
            (F i.1.1).Yields (W (F i.1.1)) (k' i.1.1 i.1.2) b c₁ c₂ d) := by
      rcases hout₁.off_or_at with hoff | hhole
      · obtain ⟨hout₂, htrack₂⟩ := (hk a (fun i : I => i.1.1) (fun i => i.1.2) fun i => i.2).off
          hoff hrun (by omega)
        exact ⟨hout₂, fun htight => ⟨fun hhole => absurd hhole hoff.not_at, htrack₂ htight⟩⟩
      · obtain ⟨hout₂, htrack₂⟩ := hat a (fun i : I => i.1.1) (fun i => i.1.2) (fun i => i.2)
          hhole hrun (by omega)
        refine ⟨hout₂, fun htight => ⟨fun _ => ?_, htrack₂ htight⟩⟩
        cases tight₁ with
        | true => rfl
        | false =>
          obtain ⟨hhole₂, hfalse⟩ := hloose rfl a hhole hrun
          rw [htight hhole₂] at hfalse
          cases hfalse
    refine ⟨hsecond.1, fun htight => ?_⟩
    obtain ⟨htight₁, p₂, hopen₂, hyields₂⟩ := hsecond.2 htight
    obtain ⟨p₁, hopen₁, hyields₁⟩ := htrack₁ htight₁
    have hlength := htokens₁.length_le
    have hlength₂ := htokens₂.length_le
    have hcrosses : H.Crosses c c₂ → H.Crosses c c₁ ∨ ¬ H.Crosses c c₁ ∧ H.Crosses c₁ c₂ := by
      unfold Hole.Crosses Hole.Past
      omega
    have hfirst_of : H.Crosses c c₁ → H.Crosses c c₂ := by
      unfold Hole.Crosses Hole.Past
      omega
    have hsecond_of : H.Crosses c₁ c₂ → H.Crosses c c₂ ∧ ¬ H.Crosses c c₁ := by
      unfold Hole.Crosses Hole.Past
      omega
    refine ⟨if H.Crosses c c₁ then p₁ else p₂, fun hcross => ?_, fun j d hfollows hpasses => ?_⟩
    · rcases hcrosses hcross with hc | ⟨hnot, hc⟩
      · rw [if_pos hc]
        exact hopen₁ hc
      · rw [if_neg hnot]
        exact hopen₂ hc
    · have hpasses₁ : H.Crosses c c₁ → (F j).Passes p₁ := by
        intro hc
        have hp := hpasses (hfirst_of hc)
        rwa [if_pos hc] at hp
      have hpasses₂ : H.Crosses c₁ c₂ → (F j).Passes p₂ := by
        intro hc
        have hp := hpasses (hsecond_of hc).1
        rwa [if_neg (hsecond_of hc).2] at hp
      rcases hyields₁ j d hfollows hpasses₁ with ⟨d', hd'⟩ | ⟨b₁, d₁, hd₁, hV, hfollows₁, herr₁⟩
      · exact .inl ⟨d', bind_of_error hd'⟩
      · rcases hyields₂ ⟨(j, b₁), hV⟩ d₁ hfollows₁ hpasses₂ with
          ⟨d', hd'⟩ | ⟨b₂, d₂, hd₂, hW, hfollows₂, herr₂⟩
        · exact .inl ⟨d', (bind_of_ok hd₁).trans hd'⟩
        · refine .inr ⟨b₂, d₂, (bind_of_ok hd₁).trans hd₂, hW, hfollows₂, ?_⟩
          rw [herr₂, herr₁, Array.append_assoc, ← Filling.told_trans htokens₁ htokens₂]

section

variable {r : Rule α} {r' : J → Rule α} {k : α → Rule β} {k' : J → α → Rule β}

/-- After a tight rule, what comes next must track the guide from the hole on too. -/
theorem Tracks.bind (h : Tracks F true V r r')
    (hat : ∀ a {I : Type} (π : I → J) (b : I → α), (∀ i, V (F (π i)) a (b i)) →
      TracksAt (fun i => F (π i)) tight W (k a) fun i => k' (π i) (b i))
    (hk : ∀ a {I : Type} (π : I → J) (b : I → α), (∀ i, V (F (π i)) a (b i)) →
      Tracks (fun i => F (π i)) tight W (k a) fun i => k' (π i) (b i)) :
    Tracks F tight W (r >>= k) fun j => r' j >>= k' j where
  moves := h.moves.bind fun a =>
    (hk a (fun i : Empty => i.elim) (fun i => i.elim) fun i => i.elim).moves
  off := h.off.bind h.moves hk hat nofun

/-- After a loose rule, what comes next must be stuck at the hole. -/
theorem Tracks.bindLoose (h : Tracks F false V r r') (hat : ∀ a, Stuck H tight (k a))
    (hk : ∀ a {I : Type} (π : I → J) (b : I → α), (∀ i, V (F (π i)) a (b i)) →
      Tracks (fun i => F (π i)) tight W (k a) fun i => k' (π i) (b i)) :
    Tracks F tight W (r >>= k) fun j => r' j >>= k' j where
  moves := h.moves.bind fun a =>
    (hk a (fun i : Empty => i.elim) (fun i => i.elim) fun i => i.elim).moves
  off := h.off.bind h.moves hk (fun a _ _ _ _ => (hat a).tracksAt) fun _ => hat

end

/-! ## Single steps -/

/-- A step that both take leaves the rest to be tracked. -/
theorem Filling.Yields.of_step {G : Filling H} {U : α → β → Prop} {r r₁ : Rule β} {a : α}
    {c c₁ c' d d₁ : Cursor} (h : G.Yields U r₁ a c₁ c' d₁) (hstep : r d = r₁ d₁)
    (herrors : d₁.errors = d.errors) (htold : G.told c c' = G.told c₁ c') :
    G.Yields U r a c c' d := by
  rcases h with ⟨d', hd'⟩ | ⟨b, d', hd', hU, hfollows, herr⟩
  · exact .inl ⟨d', hstep.trans hd'⟩
  · exact .inr ⟨b, d', hstep.trans hd', hU, hfollows, by rw [herr, herrors, htold]⟩

theorem tracksFrom_pure {start : Cursor → Prop} (hstart : ∀ c, start c → H.Outside c) {a : α}
    {b : J → α} (h : ∀ j, V (F j) a (b j)) :
    TracksFrom start F tight V (pure a) fun j => pure (b j) := by
  intro c hc a' c' hrun _
  obtain ⟨rfl, rfl⟩ := EStateM.Result.ok.inj hrun
  have hnot : ¬ H.Crosses c c := fun hcross => hcross.2 hcross.1
  refine ⟨hstart c hc, fun _ => ⟨.top, fun hcross => absurd hcross hnot, fun j d hfollows _ => ?_⟩⟩
  refine .inr ⟨b j, d, rfl, h j, hfollows, ?_⟩
  rw [Filling.told_of_not hnot, Array.append_empty]

theorem tracks_pure {a : α} {b : J → α} (h : ∀ j, V (F j) a (b j)) :
    Tracks F tight V (pure a) fun j => pure (b j) :=
  ⟨moves_pure a, tracksFrom_pure (fun _ => Hole.Off.outside) h⟩

theorem tracksAt_pure {a : α} {b : J → α} (h : ∀ j, V (F j) a (b j)) :
    TracksAt F tight V (pure a) fun j => pure (b j) :=
  tracksFrom_pure (fun _ hat => .inr (.inl hat)) h

theorem tracks_refuse {error : GrammarError} {r' : J → Rule α} :
    Tracks F tight V (refuse error) r' :=
  ⟨moves_refuse, fun _ _ _ _ hrun => by cases hrun⟩

theorem tracks_starve {r' : J → Rule α} : Tracks F tight V starve r' :=
  ⟨moves_starve, fun _ _ _ _ hrun => by cases hrun⟩

theorem Tracks.map {r : Rule α} {r' : J → Rule α} {f : α → β} {f' : J → α → β}
    (h : Tracks F tight V r r') (hf : ∀ a b j, V (F j) a b → W (F j) (f a) (f' j b)) :
    Tracks F tight W (f <$> r) fun j => f' j <$> r' j := by
  constructor
  · rw [map_eq_pure_bind]
    exact h.moves.bind fun a => moves_pure (f a)
  · intro c hoff b c' hrun hclean
    cases hr : r c with
    | error halt c₁ =>
      simp only [Functor.map, EStateM.map, hr] at hrun
      cases hrun
    | ok a c₁ =>
      simp only [Functor.map, EStateM.map, hr] at hrun
      obtain ⟨rfl, rfl⟩ := EStateM.Result.ok.inj hrun
      refine Tracked.imp (h.off hoff hr hclean) fun j d _ hyields => ?_
      rcases hyields with ⟨d', hd'⟩ | ⟨b, d', hd', hV, hrest⟩
      · exact .inl ⟨d', by simp only [Functor.map, EStateM.map, hd']⟩
      · exact .inr ⟨f' j b, d', map_of_ok hd', hf a b j hV, hrest⟩

/-- A rule that is bounded in the other text by any number of steps. -/
theorem tracksFrom_succ {start : Cursor → Prop} {r : Rule α} {g : J → Nat}
    (R : J → Nat → Rule α) (hzero : ∀ j, R j 0 = starve)
    (h : ∀ {I : Type} (π : I → J) (m : I → Nat),
      TracksFrom start (fun i => F (π i)) tight V r fun i => R (π i) (m i + 1)) :
    TracksFrom start F tight V r fun j => R j (g j) := by
  intro c hstart a c' hrun hclean
  obtain ⟨hout, htrack⟩ := h (fun i : { j : J // g j ≠ 0 } => i.1) (fun i => g i.1 - 1) hstart hrun
    hclean
  refine ⟨hout, fun htight => ?_⟩
  obtain ⟨p, hopen, hyields⟩ := htrack htight
  refine ⟨p, hopen, fun j d hfollows hpasses => ?_⟩
  by_cases hg : g j = 0
  · refine .inl ⟨d, ?_⟩
    dsimp only
    rw [hg, hzero]
    rfl
  · have hy := hyields ⟨j, hg⟩ d hfollows hpasses
    dsimp only at hy
    rwa [Nat.sub_add_cancel (Nat.pos_of_ne_zero hg)] at hy

theorem tracks_succ {r : Rule α} {g : J → Nat}
    (R : J → Nat → Rule α) (hzero : ∀ j, R j 0 = starve)
    (h : ∀ {I : Type} (π : I → J) (m : I → Nat),
      Tracks (fun i => F (π i)) tight V r fun i => R (π i) (m i + 1)) :
    Tracks F tight V r fun j => R j (g j) where
  moves := (h (fun i : Empty => i.elim) fun i => i.elim).moves
  off := tracksFrom_succ R hzero fun π m => (h π m).off

theorem tracksFrom_nested {start : Cursor → Prop} {p : Place} {r : Place → Rule α}
    {r' : J → Place → Rule α}
    (h : TracksFrom start F tight V (r p.deeper) fun j => r' j p.deeper) :
    TracksFrom start F tight V (nested p r) fun j => nested p (r' j) := by
  unfold nested
  split
  · exact fun _ _ _ _ hrun => by cases hrun
  · exact h

theorem tracks_nested {p : Place} {r : Place → Rule α} {r' : J → Place → Rule α}
    (h : Tracks F tight V (r p.deeper) fun j => r' j p.deeper) :
    Tracks F tight V (nested p r) fun j => nested p (r' j) := by
  unfold nested
  split
  · exact tracks_refuse
  · exact h

/-- Both see the same, or the guide has no result. -/
theorem tracks_test {f : Cursor → Bool} {k : Bool → Rule β} {k' : J → Bool → Rule β}
    (hf : ∀ c, H.Off c → (∀ b c', k (f c) c ≠ .ok b c') ∨ ∀ j d, (F j).Follows c d → f d = f c)
    (h : ∀ seen, Tracks F tight W (k seen) fun j => k' j seen) :
    Tracks F tight W (test f >>= k) fun j => test f >>= k' j := by
  constructor
  · exact ⟨fun c => (h (f c)).moves.ends c⟩
  · intro c hoff b c' hrun hclean
    have hrun : k (f c) c = .ok b c' := hrun
    rcases hf c hoff with hnone | hsame
    · exact absurd hrun (hnone b c')
    refine Tracked.imp ((h (f c)).off hoff hrun hclean) fun j d hfollows hyields => ?_
    have hstep : (test f >>= k' j) d = k' j (f c) d := by
      show k' j (f d) d = _
      rw [hsame j d hfollows]
    exact hyields.of_step hstep rfl rfl

/-- Both draw a number. -/
theorem tracks_fresh {k : Nat → Rule β} {k' : J → Nat → Rule β}
    (h : ∀ id {I : Type} (π : I → J) (id' : I → Nat),
      Tracks (fun i => F (π i)) tight W (k id) fun i => k' (π i) (id' i)) :
    Tracks F tight W (fresh >>= k) fun j => fresh >>= k' j := by
  constructor
  · refine ⟨fun c => ?_⟩
    have hstep : (fresh >>= k) c = k c.nextId { c with nextId := c.nextId + 1 } := rfl
    exact (h c.nextId (fun i : Empty => i.elim) fun i => i.elim).moves.of_step hstep
      List.suffix_rfl (Nat.le_refl _)
  · intro c hoff b c' hrun hclean
    have hrun : k c.nextId { c with nextId := c.nextId + 1 } = .ok b c' := hrun
    obtain ⟨hout, htrack⟩ := (h c.nextId (fun i : J × Nat => i.1) fun i => i.2).off
      (c := { c with nextId := c.nextId + 1 }) hoff hrun hclean
    refine ⟨hout, fun htight => ?_⟩
    obtain ⟨p, hopen, hyields⟩ := htrack htight
    refine ⟨p, hopen, fun j d hfollows hpasses => ?_⟩
    have hfollows' : (F j).Follows { c with nextId := c.nextId + 1 }
        { d with nextId := d.nextId + 1 } := by
      cases hfollows with
      | ahead some like guide tokens finish => exact .ahead some like guide tokens finish
      | «at» guide tokens finish => exact .at guide tokens finish
      | past short like finish => exact .past short like finish
    exact (hyields (j, d.nextId) _ hfollows' hpasses).of_step rfl rfl rfl

/-- Where the guide notes an error there is nothing to be tracked. -/
theorem tracks_noted {mark : Rule PUnit} {k : PUnit → Rule β} {r' : J → Rule β}
    (hmark : ∀ c, Ends mark c (fun _ c' => c'.tokens = c.tokens ∧ c.errors.size < c'.errors.size)
      fun _ _ => False) (h : Moves (k ⟨⟩)) : Tracks F tight W (mark >>= k) r' := by
  have hgrows : ∀ c, Ends (mark >>= k) c
      (fun _ d => d.tokens <:+ c.tokens ∧ c.errors.size < d.errors.size)
      fun halt d => halt = .unwound → d.tokens <:+ c.tokens ∧ c.errors.size < d.errors.size := by
    intro c
    rw [ends_bind]
    refine (hmark c).imp ?_ fun _ _ hfalse => hfalse.elim
    intro _ c₁ ⟨htokens, hgrown⟩
    refine (h.ends c₁).imp ?_ ?_
    · intro b c₂ ⟨htokens₂, herrors₂⟩
      rw [htokens] at htokens₂
      exact ⟨htokens₂, Nat.lt_of_lt_of_le hgrown herrors₂⟩
    · intro halt c₂ hgrown₂ hunwound
      obtain ⟨htokens₂, herrors₂⟩ := hgrown₂ hunwound
      rw [htokens] at htokens₂
      exact ⟨htokens₂, Nat.lt_trans hgrown herrors₂⟩
  constructor
  · exact ⟨fun c => (hgrows c).imp (fun _ _ hd => ⟨hd.1, Nat.le_of_lt hd.2⟩) fun _ _ hd => hd⟩
  · intro c _ b c' hrun hclean
    have hgrown := ((hgrows c).of_ok hrun).2
    omega

/-- The guide has found no error, and so there is none in the other text. -/
theorem tracks_noteIf {reason : Prop} {reason' : J → Prop} [Decidable reason]
    [∀ j, Decidable (reason' j)] {mark : Rule PUnit} {mark' : J → Rule PUnit} {k : PUnit → Rule β}
    {k' : J → PUnit → Rule β}
    (hmark : ∀ c, Ends mark c (fun _ c' => c'.tokens = c.tokens ∧ c.errors.size < c'.errors.size)
      fun _ _ => False)
    (hreason : ∀ j, reason' j → reason) (h : Tracks F tight W (k ⟨⟩) fun j => k' j ⟨⟩) :
    Tracks F tight W (if reason then mark >>= k else k ⟨⟩)
      fun j => if reason' j then mark' j >>= k' j else k' j ⟨⟩ := by
  by_cases hr : reason
  · rw [if_pos hr]
    exact tracks_noted hmark h.moves
  · have hnone : (fun j => if reason' j then mark' j >>= k' j else k' j ⟨⟩) = fun j => k' j ⟨⟩ :=
      funext fun j => if_neg fun hj => hr (hreason j hj)
    rw [if_neg hr, hnone]
    exact h

/-! ## Taking tokens -/

section

variable {t : Token} {ts : List Token} {finish n : Nat} {errors : Array Diagnostic}

/-- A token has been taken in both texts, and the rest is tracked. -/
theorem tracksFrom_take {r : Rule β} {r' : J → Rule β} {k : Rule β} {l : J → Token → Rule β}
    {c : Cursor} (hoff : H.Off c) (ht : c.tokens = t :: ts)
    (hstep : r c = k { c with tokens := ts })
    (hstep' : ∀ j d t' ts', d.tokens = t' :: ts' → t.Like H.name.lexeme t' →
      r' j d = l j t' { d with tokens := ts' })
    (hat : ∀ {I : Type} (π : I → J) (t' : I → Token), (∀ i, t.Like H.name.lexeme (t' i)) →
      TracksAt (fun i => F (π i)) tight W k fun i => l (π i) (t' i))
    (h : ∀ {I : Type} (π : I → J) (t' : I → Token), (∀ i, t.Like H.name.lexeme (t' i)) →
      Tracks (fun i => F (π i)) tight W k fun i => l (π i) (t' i))
    {b : β} {c' : Cursor} (hrun : r c = .ok b c') (hclean : c'.errors.size = c.errors.size) :
    H.Outside c' ∧ ((H.At c' → tight = true) →
      ∃ p, (H.Crosses c c' → H.Reopens p) ∧ ∀ j d, (F j).Follows c d →
        (H.Crosses c c' → (F j).Passes p) → (F j).Yields (W (F j)) (r' j) b c c' d) := by
  obtain ⟨hout, hnot⟩ := hoff.take ht
  rw [hstep] at hrun
  let I := { x : J × Token // t.Like H.name.lexeme x.2 }
  have hrest : H.Outside c' ∧ ((H.At c' → tight = true) →
      ∃ p, (H.Crosses { c with tokens := ts } c' → H.Reopens p) ∧ ∀ (i : I) d,
        (F i.1.1).Follows { c with tokens := ts } d →
          (H.Crosses { c with tokens := ts } c' → (F i.1.1).Passes p) →
            (F i.1.1).Yields (W (F i.1.1)) (l i.1.1 i.1.2) b { c with tokens := ts } c' d) := by
    rcases hout.off_or_at with hoff' | hhole
    · exact (h (fun i : I => i.1.1) (fun i => i.1.2) fun i => i.2).off hoff' hrun hclean
    · exact hat (fun i : I => i.1.1) (fun i => i.1.2) (fun i => i.2) hhole hrun hclean
  have hcrosses : H.Crosses c c' ↔ H.Crosses { c with tokens := ts } c' := by
    have hshort : ts.length < c.tokens.length := by simp [ht]
    unfold Hole.Crosses Hole.Past at hnot ⊢
    dsimp only at hnot ⊢
    omega
  refine ⟨hrest.1, fun htight => ?_⟩
  obtain ⟨p, hopen, hyields⟩ := hrest.2 htight
  refine ⟨p, fun hc => hopen (hcrosses.mp hc), fun j d hfollows hpasses => ?_⟩
  obtain ⟨t', ts', hd, hlike, hfollows'⟩ := hfollows.take hoff ht
  refine (hyields ⟨(j, t'), hlike⟩ _ hfollows' fun hc => hpasses (hcrosses.mpr hc)).of_step
    (hstep' j d t' ts' hd hlike) rfl ?_
  unfold Filling.told
  rw [if_congr hcrosses rfl rfl]

/-- Both take the next token, or neither. -/
theorem tracks_takeIf {γ : Type} {select : TokenKind → Option γ} {k : Option (γ × Token) → Rule β}
    {k' : J → Option (γ × Token) → Rule β}
    (hat : ∀ x t {I : Type} (π : I → J) (t' : I → Token), select t.kind = some x →
      (∀ i, t.Like H.name.lexeme (t' i)) →
        TracksAt (fun i => F (π i)) tight W (k (some (x, t))) fun i => k' (π i) (some (x, t' i)))
    (hsome : ∀ x t {I : Type} (π : I → J) (t' : I → Token), select t.kind = some x →
      (∀ i, t.Like H.name.lexeme (t' i)) →
        Tracks (fun i => F (π i)) tight W (k (some (x, t))) fun i => k' (π i) (some (x, t' i)))
    (hnone : Tracks F tight W (k none) fun j => k' j none) :
    Tracks F tight W (takeIf select >>= k) fun j => takeIf select >>= k' j := by
  have hstepNil {k : Option (γ × Token) → Rule β} {c : Cursor} (ht : c.tokens = []) :
      (takeIf select >>= k) c = k none c := by
    simp only [Bind.bind, EStateM.bind, takeIf, ht]
  have hstepNone {k : Option (γ × Token) → Rule β} {c : Cursor} {t : Token} {ts : List Token}
      (ht : c.tokens = t :: ts) (hselect : select t.kind = none) :
      (takeIf select >>= k) c = k none c := by
    simp only [Bind.bind, EStateM.bind, takeIf, ht, hselect]
  have hstepSome {k : Option (γ × Token) → Rule β} {c : Cursor} {t : Token} {ts : List Token} {x : γ}
      (ht : c.tokens = t :: ts) (hselect : select t.kind = some x) :
      (takeIf select >>= k) c = k (some (x, t)) { c with tokens := ts } := by
    simp only [Bind.bind, EStateM.bind, takeIf, ht, hselect]
  constructor
  · refine ⟨fun c => ?_⟩
    cases ht : c.tokens with
    | nil =>
      rw [← ht]
      exact hnone.moves.of_step (hstepNil ht) List.suffix_rfl (Nat.le_refl _)
    | cons t ts =>
      cases hselect : select t.kind with
      | none =>
        rw [← ht]
        exact hnone.moves.of_step (hstepNone ht hselect) List.suffix_rfl (Nat.le_refl _)
      | some x =>
        have hmoves := (hsome x t (fun i : Empty => i.elim) (fun i => i.elim) hselect
          fun i => i.elim).moves
        rw [← ht]
        refine hmoves.of_step (hstepSome ht hselect) ?_ (Nat.le_refl _)
        rw [ht]
        exact List.suffix_cons t ts
  · intro c hoff b c' hrun hclean
    cases ht : c.tokens with
    | nil =>
      rw [hstepNil ht] at hrun
      refine Tracked.imp (hnone.off hoff hrun hclean) fun j d hfollows hyields => ?_
      exact hyields.of_step (hstepNil (hfollows.nil hoff ht)) rfl rfl
    | cons t ts =>
      cases hselect : select t.kind with
      | none =>
        rw [hstepNone ht hselect] at hrun
        refine Tracked.imp (hnone.off hoff hrun hclean) fun j d hfollows hyields => ?_
        obtain ⟨t', ts', hd, hlike, -⟩ := hfollows.take hoff ht
        refine hyields.of_step (hstepNone hd ?_) rfl rfl
        rw [hlike.kind, hselect]
      | some x =>
        refine tracksFrom_take (k := k (some (x, t))) (l := fun j t' => k' j (some (x, t'))) hoff ht
          (hstepSome ht hselect) ?_ (fun π t' => hat x t π t' hselect)
          (fun π t' => hsome x t π t' hselect) hrun hclean
        intro j d t' ts' hd hlike
        refine hstepSome hd ?_
        rw [hlike.kind, hselect]

end

end Lox.Grammar
