import Lox.Proofs.Grammar.Recovery.Barred
import Lox.Proofs.Grammar.Recovery.Values

/-! # Steps that track the guide

Taking a token, looking at one, and turning an unwound rule into no result. The
guide and the other text see the same tokens but for their spans, except where the
guide stands at the hole, or at a `fun` right before it. -/

namespace Lox.Grammar

open Rule

variable {α β : Type} {H : Hole} {J : Type} {F : J → Filling H} {tight : Bool}
  {V : Filling H → α → α → Prop} {W : Filling H → β → β → Prop}

/-! ## Taking a token -/

/-- To take a token of a kind is to take one that is selected. -/
theorem accept_eq_takeIf {kind : TokenKind} {k : Option Token → Rule β} :
    (accept kind >>= k) =
      (takeIf (fun other => if other = kind then some () else none) >>= fun taken =>
        k (taken.map Prod.snd)) := by
  funext c
  obtain ⟨_ | ⟨t, ts⟩, finish, n, errors⟩ := c
  · rfl
  · by_cases h : t.kind = kind
    · simp only [bind, EStateM.bind, accept, takeIf, if_pos h]
      rfl
    · simp only [bind, EStateM.bind, accept, takeIf, if_neg h]
      rfl

section

variable {kind : TokenKind} {what : String}

theorem tracks_accept {k : Option Token → Rule β} {k' : J → Option Token → Rule β}
    (hat : ∀ t {I : Type} (π : I → J) (t' : I → Token),
      TracksAt (fun i => F (π i)) tight W (k (some t)) fun i => k' (π i) (some (t' i)))
    (hsome : ∀ t {I : Type} (π : I → J) (t' : I → Token), (∀ i, t.Like H.name.lexeme (t' i)) →
      Tracks (fun i => F (π i)) tight W (k (some t)) fun i => k' (π i) (some (t' i)))
    (hnone : Tracks F tight W (k none) fun j => k' j none) :
    Tracks F tight W (accept kind >>= k) fun j => accept kind >>= k' j := by
  simp only [accept_eq_takeIf]
  exact tracks_takeIf (fun _ t _ π t' _ _ => hat t π t')
    (fun _ t _ π t' _ hlike => hsome t π t' hlike) hnone

theorem tracks_expect {k : Token → Rule β} {k' : J → Token → Rule β}
    (hat : ∀ t {I : Type} (π : I → J) (t' : I → Token),
      TracksAt (fun i => F (π i)) tight W (k t) fun i => k' (π i) (t' i))
    (h : ∀ t {I : Type} (π : I → J) (t' : I → Token), (∀ i, t.Like H.name.lexeme (t' i)) →
      Tracks (fun i => F (π i)) tight W (k t) fun i => k' (π i) (t' i)) :
    Tracks F tight W (expect kind what >>= k) fun j => expect kind what >>= k' j := by
  unfold expect
  simp only [bind_assoc, accept_eq_takeIf]
  exact tracks_takeIf (fun _ t _ π t' _ _ => hat t π t')
    (fun _ t _ π t' _ hlike => h t π t' hlike) tracks_refuse

/-- No name is that of the class in the hole. -/
theorem tracks_name {k : Ident → Rule β} {k' : J → Ident → Rule β}
    (hat : ∀ x {I : Type} (π : I → J) (x' : I → Ident),
      TracksAt (fun i => F (π i)) tight W (k x) fun i => k' (π i) (x' i))
    (h : ∀ x {I : Type} (π : I → J) (x' : I → Ident),
      (∀ i, SameName x (x' i) ∧ x.text ≠ H.name.lexeme) →
        Tracks (fun i => F (π i)) tight W (k x) fun i => k' (π i) (x' i)) :
    Tracks F tight W (name what >>= k) fun j => name what >>= k' j := by
  unfold name
  simp only [bind_assoc]
  refine tracks_expect (fun t _ π t' => hat t.ident π fun i => (t' i).ident) ?_
  intro t I π t' hlike
  refine h t.ident π (fun i => (t' i).ident) fun i => ?_
  exact ⟨sameName_of_like (hlike i), (hlike i).other⟩

end

/-! ## Looking ahead -/

theorem Filling.Follows.sees {G : Filling H} {c d : Cursor} (h : G.Follows c d) (hoff : H.Off c)
    (kind : TokenKind) : d.sees kind = c.sees kind := by
  unfold Cursor.sees
  cases ht : c.tokens with
  | nil => rw [h.nil hoff ht]
  | cons t ts =>
    obtain ⟨t', ts', hd, hlike, -⟩ := h.take hoff ht
    rw [hd]
    simp only [hlike.kind]

theorem Filling.Follows.atEnd {G : Filling H} {c d : Cursor} (h : G.Follows c d) (hoff : H.Off c) :
    d.atEnd = c.atEnd := by
  unfold Cursor.atEnd
  cases ht : c.tokens with
  | nil => rw [h.nil hoff ht]
  | cons t ts =>
    obtain ⟨t', ts', hd, -, -⟩ := h.take hoff ht
    rw [hd]
    rfl

/-- A `fun` before the hole has no name in the guide. -/
theorem Filling.Follows.seesBoth {G : Filling H} {c d : Cursor} (h : G.Follows c d)
    (hoff : H.Off c) (hshut : ¬ c.Shut) (second : TokenKind) :
    d.seesBoth (.keyword .fun_) second = c.seesBoth (.keyword .fun_) second := by
  unfold Cursor.seesBoth
  cases ht : c.tokens with
  | nil => rw [h.nil hoff ht]
  | cons t ts =>
    obtain ⟨t', ts', hd, hlike, hnext⟩ := h.take hoff ht
    rw [hd]
    rcases (hoff.take ht).1.off_or_at with hoff' | hhole
    · cases hts : ts with
      | nil => rw [show ts' = [] from hnext.nil hoff' hts]
      | cons u us =>
        obtain ⟨u', us', hd', hlike', -⟩ := hnext.take hoff' hts
        rw [show ts' = u' :: us' from hd']
        simp only [hlike.kind, hlike'.kind]
    · have hts : ts = H.rest := hhole
      have hfun : t.kind ≠ .keyword .fun_ := by
        intro hkind
        rw [hts] at ht
        exact hshut ⟨H.keyword, _, H.isKeyword, .inr ⟨t, hkind, ht⟩⟩
      have hfun' : t'.kind ≠ .keyword .fun_ := by rwa [hlike.kind]
      cases ts <;> cases ts' <;> simp [hfun, hfun']

/-- No `else` stands at the hole. -/
theorem tracksAt_acceptElse {k : Option Token → Rule β} {k' : J → Option Token → Rule β}
    (h : TracksAt F tight W (k none) fun j => k' j none) :
    TracksAt F tight W (accept (.keyword .else_) >>= k) fun j =>
      accept (.keyword .else_) >>= k' j := by
  intro c hat b c' hrun hclean
  rw [accept_none hat.shut (by decide)] at hrun
  refine Tracked.imp (h hat hrun hclean) fun j d hfollows hyields => ?_
  have htokens : d.tokens = (F j).tokens := by
    cases hfollows with
    | ahead some _ guide => exact absurd hat (Hole.Ahead.not_at ⟨_, some, guide⟩)
    | «at» _ tokens => exact tokens
    | past short => exact absurd short hat.not_past
  refine hyields.of_step ?_ rfl rfl
  have hnone := (F j).noElse
  rw [← htokens] at hnone
  cases ht : d.tokens with
  | nil => simp only [Bind.bind, EStateM.bind, accept, ht]
  | cons t ts =>
    rw [ht] at hnone
    have hne : t.kind ≠ .keyword .else_ := hnone
    simp only [Bind.bind, EStateM.bind, accept, ht, if_neg hne]

/-! ## Recovery -/

/-- The guide does not recover, because it finds no error. -/
theorem Tracks.recover {r : Rule α} {r' : J → Rule α} (h : Tracks F tight V r r') :
    Tracks F tight (fun G => Option.Rel (V G)) (recover r) fun j => recover (r' j) := by
  constructor
  · refine ⟨fun c => ?_⟩
    have hends := h.moves.ends c
    unfold Ends Rule.recover at *
    cases hr : r c with
    | ok a c' =>
      rw [hr] at hends
      exact hends
    | error halt c' =>
      rw [hr] at hends
      cases halt with
      | unwound =>
        obtain ⟨htokens, herrors⟩ := hends rfl
        exact ⟨(resume_suffix _).trans htokens, Nat.le_of_lt herrors⟩
      | starved => exact fun hunwound => by cases hunwound
  · intro c hoff a c' hrun hclean
    unfold Rule.recover at hrun
    cases hr : r c with
    | error halt c₁ =>
      rw [hr] at hrun
      cases halt with
      | unwound =>
        obtain ⟨-, rfl⟩ := EStateM.Result.ok.inj hrun
        obtain ⟨-, hgrown⟩ := (h.moves.ends c).of_error hr rfl
        dsimp only at hclean
        omega
      | starved => cases hrun
    | ok x c₁ =>
      rw [hr] at hrun
      obtain ⟨rfl, rfl⟩ := EStateM.Result.ok.inj hrun
      refine Tracked.imp (h.off hoff hr hclean) fun j d _ hyields => ?_
      rcases hyields with ⟨d', hd'⟩ | ⟨b, d', hd', hV, hrest⟩
      · exact .inl ⟨d', by simp only [Rule.recover, hd']⟩
      · exact .inr ⟨some b, d', by simp only [Rule.recover, hd'], .some hV, hrest⟩

/-! ## What all rules do -/

/-- What a block does, which starts before the hole or at it. -/
structure TracksThrough (F : J → Filling H) (V : Filling H → α → α → Prop) (r : Rule α) (r' : J → Rule α) :
    Prop extends Tracks F true V r r' where
  «at» : TracksAt F true V r r'

/-- From the result of a block another one is built. -/
theorem TracksThrough.andPure {r : Rule α} {r' : J → Rule α} {f : α → β} {f' : J → α → β}
    (h : TracksThrough F V r r') (hf : ∀ a b j, V (F j) a b → W (F j) (f a) (f' j b)) :
    TracksThrough F W (r >>= fun a => pure (f a)) fun j => r' j >>= fun b => pure (f' j b) where
  toTracks := h.bind (fun _ _ _ _ hV => tracksAt_pure fun i => hf _ _ _ (hV i))
    fun _ _ _ _ hV => tracks_pure fun i => hf _ _ _ (hV i)
  «at» := h.at.bind h.moves (fun _ _ _ _ hV => tracks_pure fun i => hf _ _ _ (hV i))
    (fun _ _ _ _ hV => tracksAt_pure fun i => hf _ _ _ (hV i)) nofun

theorem tracksThrough_starve {r' : J → Rule α} : TracksThrough F V starve r' :=
  ⟨tracks_starve, fun _ _ _ _ hrun => by cases hrun⟩

/-- What all rules do in a number of steps of the guide. -/
structure Tracking (H : Hole) (fuel : Nat) : Prop where
  expression : ∀ {J : Type} {F : J → Filling H} {g : J → Nat} (p : Place),
    Tracks F false Filling.SameExpr (expression fuel p) fun j => expression (g j) p
  assignment : ∀ {J : Type} {F : J → Filling H} {g : J → Nat} (p : Place),
    Tracks F false Filling.SameExpr (assignment fuel p) fun j => assignment (g j) p
  operation : ∀ {J : Type} {F : J → Filling H} {g : J → Nat} (p : Place) (level : Level),
    Tracks F false Filling.SameExpr (operation fuel p level) fun j => operation (g j) p level
  chain : ∀ {J : Type} {F : J → Filling H} {g : J → Nat} (p : Place) (level : Level) {left : Expr}
    {left' : J → Expr}, (∀ j, (F j).SameExpr left (left' j)) →
      Tracks F false Filling.SameExpr (chain fuel p level left) fun j => chain (g j) p level (left' j)
  operand : ∀ {J : Type} {F : J → Filling H} {g : J → Nat} (p : Place) (level : Level),
    Tracks F false Filling.SameExpr (operand fuel p level) fun j => operand (g j) p level
  unary : ∀ {J : Type} {F : J → Filling H} {g : J → Nat} (p : Place),
    Tracks F false Filling.SameExpr (unary fuel p) fun j => unary (g j) p
  calls : ∀ {J : Type} {F : J → Filling H} {g : J → Nat} (p : Place) {callee : Expr}
    {callee' : J → Expr}, (∀ j, (F j).SameExpr callee (callee' j)) →
      Tracks F false Filling.SameExpr (calls fuel p callee) fun j => calls (g j) p (callee' j)
  argumentList : ∀ {J : Type} {F : J → Filling H} {g : J → Nat} (p : Place),
    Tracks F false (fun G a b => b.map Outline.expr = a.map G.cut.expr) (argumentList fuel p)
      fun j => argumentList (g j) p
  arguments : ∀ {J : Type} {F : J → Filling H} {g : J → Nat} (p : Place) {done : Array Expr}
    {done' : J → Array Expr}, (∀ j, Each (F j).SameExpr done (done' j)) →
      Tracks F false (fun G => Each G.SameExpr) (arguments fuel p done) fun j => arguments (g j) p (done' j)
  primary : ∀ {J : Type} {F : J → Filling H} {g : J → Nat} (p : Place),
    Tracks F false Filling.SameExpr (primary fuel p) fun j => primary (g j) p
  parameters : ∀ {J : Type} {F : J → Filling H} {g : J → Nat} {done : Array Ident}
    {done' : J → Array Ident}, (∀ j, Each SameName done (done' j)) →
      Tracks F false (fun _ => Each SameName) (parameters fuel done) fun j => parameters (g j) (done' j)
  functionTail : ∀ {J : Type} {F : J → Filling H} {g : J → Nat} (p : Place) (start : Span)
    (start' : J → Span) (role : Role),
      Tracks F true Filling.SameLambda (functionTail fuel p start role)
        fun j => functionTail (g j) p (start' j) role
  namedFunction : ∀ {J : Type} {F : J → Filling H} {g : J → Nat} (p : Place) (role : Role),
    Tracks F true Filling.SameMethod (namedFunction fuel p role) fun j => namedFunction (g j) p role
  block : ∀ {J : Type} {F : J → Filling H} {g : J → Nat} (p : Place),
    TracksThrough F Filling.SameBody (block fuel p) fun j => block (g j) p
  declarations : ∀ {J : Type} {F : J → Filling H} {g : J → Nat} (p : Place) {done : Array Stmt}
    {done' : J → Array Stmt}, (∀ j, (F j).SameStmts done (done' j)) →
      TracksThrough F Filling.SameStmts (declarations fuel p done)
        fun j => declarations (g j) p (done' j)
  declaration : ∀ {J : Type} {F : J → Filling H} {g : J → Nat} (p : Place),
    Tracks F true (fun G => Option.Rel G.SameStmt) (declaration fuel p) fun j => declaration (g j) p
  declared : ∀ {J : Type} {F : J → Filling H} {g : J → Nat} (p : Place),
    Tracks F true Filling.SameStmt (declared fuel p) fun j => declared (g j) p
  classDeclaration : ∀ {J : Type} {F : J → Filling H} {g : J → Nat} (p : Place),
    Tracks F true Filling.SameStmt (classDeclaration fuel p) fun j => classDeclaration (g j) p
  methods : ∀ {J : Type} {F : J → Filling H} {g : J → Nat} (p : Place) {done : Array Method}
    {done' : J → Array Method}, (∀ j, Each (F j).SameMethod done (done' j)) →
      Tracks F true (fun G => Each G.SameMethod) (methods fuel p done) fun j => methods (g j) p (done' j)
  varDeclaration : ∀ {J : Type} {F : J → Filling H} {g : J → Nat} (p : Place),
    Tracks F true Filling.SameStmt (varDeclaration fuel p) fun j => varDeclaration (g j) p
  statement : ∀ {J : Type} {F : J → Filling H} {g : J → Nat} (p : Place),
    Tracks F true Filling.SameStmt (statement fuel p) fun j => statement (g j) p
  statementBody : ∀ {J : Type} {F : J → Filling H} {g : J → Nat} (p : Place),
    Tracks F true Filling.SameStmt (statementBody fuel p) fun j => statementBody (g j) p
  expressionStatement : ∀ {J : Type} {F : J → Filling H} {g : J → Nat} (p : Place),
    Tracks F true Filling.SameStmt (expressionStatement fuel p) fun j => expressionStatement (g j) p
  forStatement : ∀ {J : Type} {F : J → Filling H} {g : J → Nat} (p : Place) (keyword : Span)
    (keyword' : J → Span),
      Tracks F true Filling.SameStmt (forStatement fuel p keyword)
        fun j => forStatement (g j) p (keyword' j)
  forInitializer : ∀ {J : Type} {F : J → Filling H} {g : J → Nat} (p : Place),
    Tracks F true (fun G => Option.Rel G.SameStmt) (forInitializer fuel p) fun j => forInitializer (g j) p
  optionalExpression : ∀ {J : Type} {F : J → Filling H} {g : J → Nat} (p : Place)
    (closing : Symbol),
      Tracks F false (fun G => Option.Rel G.SameExpr) (optionalExpression fuel p closing)
        fun j => optionalExpression (g j) p closing
  ifStatement : ∀ {J : Type} {F : J → Filling H} {g : J → Nat} (p : Place),
    Tracks F true Filling.SameStmt (ifStatement fuel p) fun j => ifStatement (g j) p
  whileStatement : ∀ {J : Type} {F : J → Filling H} {g : J → Nat} (p : Place),
    Tracks F true Filling.SameStmt (whileStatement fuel p) fun j => whileStatement (g j) p
  returnStatement : ∀ {J : Type} {F : J → Filling H} {g : J → Nat} (p : Place) (keyword : Span)
    (keyword' : J → Span),
      Tracks F true Filling.SameStmt (returnStatement fuel p keyword)
        fun j => returnStatement (g j) p (keyword' j)

end Lox.Grammar
