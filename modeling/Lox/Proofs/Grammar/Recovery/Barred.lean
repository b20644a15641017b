import Lox.Proofs.Grammar.Recovery.Tracking

/-! # What a class bars

No rule but that for declarations reads on where a class stands, and none does
where a class stands behind `fun`. The rules that build expressions and
statements unwind there. Those that look for more of an expression end. -/

namespace Lox.Grammar

open Rule

variable {α β : Type} {H : Hole}

/-- A class stands next, or behind a `fun` that does. -/
def Cursor.Shut (c : Cursor) : Prop :=
  ∃ k ts, k.kind = .keyword .class_ ∧
    (c.tokens = k :: ts ∨ ∃ f, f.kind = .keyword .fun_ ∧ c.tokens = f :: k :: ts)

theorem Hole.At.shut {c : Cursor} (h : H.At c) : c.Shut := ⟨_, _, H.isKeyword, .inl h⟩

/-- A kind of tokens that stands in no such place. -/
def TokenKind.Barring (kind : TokenKind) : Prop := kind ≠ .keyword .class_ ∧ kind ≠ .keyword .fun_

instance (kind : TokenKind) : Decidable (TokenKind.Barring kind) :=
  inferInstanceAs (Decidable (_ ∧ _))

/-- A rule has no result where a class bars the way. -/
def Barred (r : Rule α) : Prop := ∀ c, c.Shut → ∀ a c', r c ≠ .ok a c'

/-- A rule takes nothing where a class bars the way. -/
def Idle (r : Rule α) : Prop := ∀ c, c.Shut → ∀ a c', r c = .ok a c' → c'.tokens = c.tokens

theorem Barred.stuck {r : Rule α} {tight : Bool} (h : Barred r) : Stuck H tight r :=
  fun _ hat _ _ hrun => absurd hrun (h _ hat.shut _ _)

theorem Idle.stuck {r : Rule α} (h : Idle r) : Stuck H false r :=
  fun _ hat _ _ hrun => ⟨(h _ hat.shut _ _ hrun).trans hat, rfl⟩

theorem Barred.idle {r : Rule α} (h : Barred r) : Idle r :=
  fun c hc a c' hrun => absurd hrun (h c hc a c')

/-! ## Steps -/

/-- The token that stands next where a class bars the way. -/
theorem Cursor.Shut.head {c : Cursor} (h : c.Shut) : ∃ t ts, c.tokens = t :: ts ∧
    (t.kind = .keyword .class_ ∨ t.kind = .keyword .fun_) := by
  obtain ⟨k, ts, hk, hts | ⟨f, hf, hts⟩⟩ := h
  · exact ⟨k, ts, hts, .inl hk⟩
  · exact ⟨f, k :: ts, hts, .inr hf⟩

theorem barred_starve : Barred (starve : Rule α) := fun _ _ _ _ hrun => by cases hrun

theorem barred_refuse {error : GrammarError} : Barred (refuse error : Rule α) :=
  fun _ _ _ _ hrun => by cases hrun

theorem idle_pure (a : α) : Idle (pure a) := by
  intro c _ a' c' hrun
  obtain ⟨-, rfl⟩ := EStateM.Result.ok.inj hrun
  rfl

theorem idle_fresh {k : Nat → Rule α} (h : ∀ id, Idle (k id)) : Idle (fresh >>= k) := by
  intro c hc a c' hrun
  exact h c.nextId { c with nextId := c.nextId + 1 } hc a c' hrun

theorem Barred.bind {r : Rule α} {k : α → Rule β} (h : Barred r) : Barred (r >>= k) := by
  intro c hc b c' hrun
  cases hr : r c with
  | ok a c₁ => exact h c hc a c₁ hr
  | error halt c₁ =>
    rw [bind_of_error hr] at hrun
    cases hrun

theorem Barred.map {r : Rule α} {f : α → β} (h : Barred r) : Barred (f <$> r) := by
  rw [map_eq_pure_bind]
  exact h.bind

theorem barred_nested {p : Place} {r : Place → Rule α} (h : Barred (r p.deeper)) :
    Barred (nested p r) := by
  unfold nested
  split
  · exact barred_refuse
  · exact h

section

variable {k : Option Token → Rule β} {kind : TokenKind}

theorem accept_none {c : Cursor} (hc : c.Shut) (hkind : TokenKind.Barring kind) :
    (accept kind >>= k) c = k none c := by
  obtain ⟨t, ts, hts, ht⟩ := hc.head
  have hne : t.kind ≠ kind := by
    rcases ht with ht | ht <;> rw [ht]
    · exact hkind.1.symm
    · exact hkind.2.symm
  simp only [Bind.bind, EStateM.bind, accept, hts, if_neg hne]

theorem barred_accept (hkind : TokenKind.Barring kind) (h : Barred (k none)) :
    Barred (accept kind >>= k) := by
  intro c hc
  rw [accept_none hc hkind]
  exact h c hc

theorem idle_accept (hkind : TokenKind.Barring kind) (h : Idle (k none)) :
    Idle (accept kind >>= k) := by
  intro c hc
  rw [accept_none hc hkind]
  exact h c hc

/-- Where `fun` is taken, the class stands next. -/
theorem barred_acceptFun (hnone : Barred (k none)) (hsome : ∀ t, Barred (k (some t))) :
    Barred (accept (.keyword .fun_) >>= k) := by
  intro c hc a c' hrun
  obtain ⟨t, ts, ht, hts | ⟨f, hf, hts⟩⟩ := hc
  · have hne : t.kind ≠ .keyword .fun_ := by simp [ht]
    simp only [Bind.bind, EStateM.bind, accept, hts, if_neg hne] at hrun
    exact hnone c ⟨t, ts, ht, .inl hts⟩ a c' hrun
  · simp only [Bind.bind, EStateM.bind, accept, hts, if_pos hf] at hrun
    exact hsome f _ ⟨t, ts, ht, .inl rfl⟩ a c' hrun

theorem barred_expect {what : String} (hkind : TokenKind.Barring kind) :
    Barred (expect kind what) := barred_accept hkind barred_refuse

theorem barred_name {what : String} : Barred (name what) :=
  (barred_expect (by decide)).bind

end

section

variable {γ : Type} {select : TokenKind → Option γ} {k : Option (γ × Token) → Rule β}

theorem takeIf_none {c : Cursor} (hc : c.Shut) (hclass : select (.keyword .class_) = none)
    (hfun : select (.keyword .fun_) = none) : (takeIf select >>= k) c = k none c := by
  obtain ⟨t, ts, hts, ht⟩ := hc.head
  have hnone : select t.kind = none := by
    rcases ht with ht | ht <;> rw [ht] <;> assumption
  simp only [Bind.bind, EStateM.bind, takeIf, hts, hnone]

theorem barred_takeIf (hclass : select (.keyword .class_) = none)
    (hfun : select (.keyword .fun_) = none) (h : Barred (k none)) : Barred (takeIf select >>= k) := by
  intro c hc
  rw [takeIf_none hc hclass hfun]
  exact h c hc

theorem idle_takeIf (hclass : select (.keyword .class_) = none)
    (hfun : select (.keyword .fun_) = none) (h : Idle (k none)) : Idle (takeIf select >>= k) := by
  intro c hc
  rw [takeIf_none hc hclass hfun]
  exact h c hc

end

theorem Cursor.Shut.sees {c : Cursor} (hc : c.Shut) {kind : TokenKind}
    (hkind : TokenKind.Barring kind) : c.sees kind = false := by
  obtain ⟨t, ts, hts, ht⟩ := hc.head
  unfold Cursor.sees
  rw [hts]
  rcases ht with ht | ht
  · exact decide_eq_false fun h => hkind.1 (h.symm.trans ht)
  · exact decide_eq_false fun h => hkind.2 (h.symm.trans ht)

/-- No named function is declared where a class bars the way. -/
theorem Cursor.Shut.seesBoth {c : Cursor} (hc : c.Shut) :
    c.seesBoth (.keyword .fun_) .identifier = false := by
  obtain ⟨k, ts, hk, hts | ⟨f, -, hts⟩⟩ := hc
  · cases ts <;> simp [Cursor.seesBoth, hts, hk]
  · simp [Cursor.seesBoth, hts, hk]

theorem Cursor.Shut.not_atEnd {c : Cursor} (hc : c.Shut) : c.atEnd = false := by
  obtain ⟨t, ts, hts, -⟩ := hc.head
  unfold Cursor.atEnd
  rw [hts]
  rfl

theorem barred_test {f : Cursor → Bool} {k : Bool → Rule β} (seen : Bool)
    (hf : ∀ c : Cursor, c.Shut → f c = seen) (h : Barred (k seen)) : Barred (test f >>= k) := by
  intro c hc a c' hrun
  have hrun : k (f c) c = .ok a c' := hrun
  rw [hf c hc] at hrun
  exact h c hc a c' hrun

theorem barred_noteIf {reason : Prop} [Decidable reason] {mark : Rule PUnit} {k : PUnit → Rule β}
    (hmark : ∀ c, Ends mark c (fun _ c' => c'.tokens = c.tokens ∧ c.errors.size < c'.errors.size)
      fun _ _ => False) (h : Barred (k ⟨⟩)) :
    Barred (if reason then mark >>= k else k ⟨⟩) := by
  split
  · intro c hc a c' hrun
    cases hm : mark c with
    | ok u c₁ =>
      rw [bind_of_ok hm] at hrun
      have hshut : c₁.Shut := by
        unfold Cursor.Shut
        rw [((hmark c).of_ok hm).1]
        exact hc
      exact h c₁ hshut a c' hrun
    | error halt c₁ => exact (hmark c).of_error hm
  · exact h

theorem ends_note {error : GrammarError} {span : Span} (c : Cursor) :
    Ends (note error span) c (fun _ c' => c'.tokens = c.tokens ∧ c.errors.size < c'.errors.size)
      fun _ _ => False := by
  refine ⟨rfl, ?_⟩
  simp [Cursor.note]

theorem ends_noteHere {error : GrammarError} (c : Cursor) :
    Ends (noteHere error) c (fun _ c' => c'.tokens = c.tokens ∧ c.errors.size < c'.errors.size)
      fun _ _ => False := by
  refine ⟨rfl, ?_⟩
  simp [Cursor.note]

/-! ## Rules of expressions -/

theorem barred_parameters : ∀ (fuel : Nat) (done : Array Ident), Barred (parameters fuel done)
  | 0, _ => barred_starve
  | fuel + 1, done => by
    rw [parameters]
    exact barred_noteIf ends_noteHere barred_name.bind

theorem barred_functionTail (fuel : Nat) (p : Place) (start : Span) (role : Role) :
    Barred (functionTail fuel p start role) := by
  cases fuel with
  | zero => exact barred_starve
  | succ fuel =>
    rw [functionTail]
    exact barred_test false (fun c hc => hc.sees (by decide))
      (barred_parameters fuel #[]).bind

theorem barred_primary (fuel : Nat) (p : Place) : Barred (primary fuel p) := by
  cases fuel with
  | zero => exact barred_starve
  | succ fuel =>
    rw [primary]
    refine barred_takeIf rfl rfl (barred_accept (by decide) (barred_accept (by decide)
      (barred_accept (by decide) (barred_accept (by decide) ?_))))
    exact barred_acceptFun barred_refuse fun _ => (barred_expect (by decide)).bind

theorem barred_unary (fuel : Nat) (p : Place) : Barred (unary fuel p) := by
  cases fuel with
  | zero => exact barred_starve
  | succ fuel =>
    rw [unary]
    exact barred_takeIf rfl rfl (barred_primary fuel p).bind

mutual

theorem barred_operation : ∀ (fuel : Nat) (p : Place) (level : Level),
    Barred (operation fuel p level)
  | 0, _, _ => barred_starve
  | fuel + 1, p, level => by
    rw [operation]
    exact (barred_operand fuel p level).bind

theorem barred_operand : ∀ (fuel : Nat) (p : Place) (level : Level), Barred (operand fuel p level)
  | 0, _, _ => barred_starve
  | fuel + 1, p, level => by
    rw [operand]
    split
    · exact barred_operation fuel p _
    · exact barred_unary fuel p

end

theorem barred_assignment (fuel : Nat) (p : Place) : Barred (assignment fuel p) := by
  cases fuel with
  | zero => exact barred_starve
  | succ fuel =>
    rw [assignment]
    exact (barred_operation fuel p .or).bind

theorem barred_expression (fuel : Nat) (p : Place) : Barred (expression fuel p) := by
  cases fuel with
  | zero => exact barred_starve
  | succ fuel =>
    rw [expression]
    exact barred_nested (barred_assignment fuel p.deeper)

theorem barred_arguments (fuel : Nat) (p : Place) (done : Array Expr) :
    Barred (arguments fuel p done) := by
  cases fuel with
  | zero => exact barred_starve
  | succ fuel =>
    rw [arguments]
    exact barred_noteIf ends_noteHere (barred_expression fuel p).bind

theorem barred_argumentList (fuel : Nat) (p : Place) : Barred (argumentList fuel p) := by
  cases fuel with
  | zero => exact barred_starve
  | succ fuel =>
    rw [argumentList]
    refine barred_test false (fun c hc => hc.sees (by decide)) ?_
    exact (barred_arguments fuel p #[]).bind

theorem barred_optionalExpression (fuel : Nat) (p : Place) (closing : Symbol) :
    Barred (optionalExpression fuel p closing) := by
  cases fuel with
  | zero => exact barred_starve
  | succ fuel =>
    rw [optionalExpression]
    refine barred_test false (fun c hc => hc.sees ?_) ?_
    · constructor <;> simp
    · exact (barred_expression fuel p).map

theorem idle_chain (fuel : Nat) (p : Place) (level : Level) (left : Expr) :
    Idle (chain fuel p level left) := by
  cases fuel with
  | zero => exact barred_starve.idle
  | succ fuel =>
    rw [chain]
    exact idle_takeIf (by cases level <;> rfl) (by cases level <;> rfl) (idle_pure left)

theorem idle_calls (fuel : Nat) (p : Place) (callee : Expr) : Idle (calls fuel p callee) := by
  cases fuel with
  | zero => exact barred_starve.idle
  | succ fuel =>
    rw [calls]
    exact idle_accept (by decide) (idle_accept (by decide) (idle_pure callee))

theorem idle_assignTo (target : Expr) (equals : Span) (value : Expr) :
    Idle (assignTo target equals value) := by
  intro c _ a c' hrun
  cases target <;> cases hrun <;> rfl

/-! ## Rules of statements -/

theorem barred_expressionStatement (fuel : Nat) (p : Place) :
    Barred (expressionStatement fuel p) := by
  cases fuel with
  | zero => exact barred_starve
  | succ fuel =>
    rw [expressionStatement]
    exact (barred_expression fuel p).bind

theorem barred_varDeclaration (fuel : Nat) (p : Place) : Barred (varDeclaration fuel p) := by
  cases fuel with
  | zero => exact barred_starve
  | succ fuel =>
    rw [varDeclaration]
    exact barred_name.bind

theorem barred_forInitializer (fuel : Nat) (p : Place) : Barred (forInitializer fuel p) := by
  cases fuel with
  | zero => exact barred_starve
  | succ fuel =>
    rw [forInitializer]
    exact barred_accept (by decide)
      (barred_accept (by decide) (barred_expressionStatement fuel p).map)

theorem barred_forStatement (fuel : Nat) (p : Place) (keyword : Span) :
    Barred (forStatement fuel p keyword) := by
  cases fuel with
  | zero => exact barred_starve
  | succ fuel =>
    rw [forStatement]
    exact (barred_expect (by decide)).bind

theorem barred_ifStatement (fuel : Nat) (p : Place) : Barred (ifStatement fuel p) := by
  cases fuel with
  | zero => exact barred_starve
  | succ fuel =>
    rw [ifStatement]
    exact (barred_expect (by decide)).bind

theorem barred_whileStatement (fuel : Nat) (p : Place) : Barred (whileStatement fuel p) := by
  cases fuel with
  | zero => exact barred_starve
  | succ fuel =>
    rw [whileStatement]
    exact (barred_expect (by decide)).bind

theorem barred_returnStatement (fuel : Nat) (p : Place) (keyword : Span) :
    Barred (returnStatement fuel p keyword) := by
  cases fuel with
  | zero => exact barred_starve
  | succ fuel =>
    rw [returnStatement]
    exact (barred_optionalExpression fuel p .semicolon).bind

theorem barred_breakStatement (p : Place) (keyword : Span) : Barred (breakStatement p keyword) := by
  unfold breakStatement
  exact barred_noteIf ends_note (barred_expect (by decide)).bind

theorem barred_statement (fuel : Nat) (p : Place) : Barred (statement fuel p) := by
  cases fuel with
  | zero => exact barred_starve
  | succ fuel =>
    rw [statement]
    refine barred_nested ?_
    cases fuel with
    | zero => exact barred_starve
    | succ fuel =>
      rw [statementBody]
      refine barred_accept (by decide) (barred_accept (by decide) (barred_accept (by decide)
        (barred_accept (by decide) (barred_accept (by decide) (barred_accept (by decide)
          (barred_accept (by decide) ?_))))))
      exact barred_expressionStatement fuel p.deeper

theorem barred_namedFunction (fuel : Nat) (p : Place) (role : Role) :
    Barred (namedFunction fuel p role) := by
  cases fuel with
  | zero => exact barred_starve
  | succ fuel =>
    rw [namedFunction]
    exact barred_name.bind

theorem barred_methods (fuel : Nat) (p : Place) (done : Array Method) :
    Barred (methods fuel p done) := by
  cases fuel with
  | zero => exact barred_starve
  | succ fuel =>
    rw [methods]
    refine barred_test false (fun c hc => ?_) (barred_namedFunction fuel p .method).bind
    rw [hc.not_atEnd, hc.sees (by decide)]
    rfl

theorem barred_superclassClause {k : Option Reference → Rule β} (h : Barred (k none)) :
    Barred (superclassClause >>= k) := by
  unfold superclassClause
  rw [bind_assoc]
  exact barred_accept (by decide) h

theorem barred_classDeclaration (fuel : Nat) (p : Place) : Barred (classDeclaration fuel p) := by
  cases fuel with
  | zero => exact barred_starve
  | succ fuel =>
    rw [classDeclaration]
    exact barred_name.bind

end Lox.Grammar
