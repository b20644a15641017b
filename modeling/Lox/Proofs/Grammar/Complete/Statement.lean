import Lox.Proofs.Grammar.Complete.Expression

/-! # Completeness of the rules of statements and declarations -/

namespace Lox.Grammar

open Rule

variable {fuel : Nat}

theorem gives_parameters {params : List Ident} {ts rest : List Token} {finish n : Nat}
    {errors : Array Diagnostic} (h : Names ts params) (hnext : Next .rightParen rest) :
    ∀ (fuel : Nat) (done : Array Ident), done.size + params.length ≤ maxArity →
      Gives (parameters fuel done) ⟨ts ++ rest, finish, n, errors⟩ (done ++ params.toArray)
        ⟨rest, finish, n, errors⟩ := by
  induction h with
  | last name =>
    obtain ⟨r, us, rfl, hr⟩ := hnext
    rintro (_ | fuel) done hfew
    · exact gives_starve
    · rw [parameters]
      refine gives_noteIf (by simp at hfew; omega) (gives_name name ?_)
      refine gives_accept_none (by simp [Stops, hr]) ?_
      rw [← Array.push_eq_append]
      exact gives_pure
  | more name comma rest ih =>
    rintro (_ | fuel) done hfew
    · exact gives_starve
    · rw [parameters]
      refine gives_noteIf (by simp at hfew; omega) (gives_name name (gives_accept comma ?_))
      rw [append_cons]
      exact ih fuel _ (by simp at hfew ⊢; omega)

theorem gives_functionTail (ih : Complete fuel) (p : Place) (start : Span) (role : Role) :
    CompletesAfter (.closure start) p (fun _ => functionTail (fuel + 1) p start role)
      fun _ => True := by
  intro n k ts fn n' rest finish errors h _
  rw [functionTail]
  cases h with
  | @closure _ _ _ _ us params r vs _ _ opening names few closing body =>
    obtain ⟨b, ws, rfl, hb⟩ : ∃ b ws, vs = b :: ws ∧ b.kind = .symbol .leftBrace := by
      cases body with
      | braces _ opening => exact ⟨_, _, rfl, opening⟩
    simp only [List.append_assoc, List.cons_append]
    cases names with
    | none =>
      have hsees : Cursor.sees ⟨r :: b :: (ws ++ rest), finish, n, errors⟩ (.symbol .rightParen) =
          true := decide_eq_true closing
      refine gives_test hsees (gives_expect closing (gives_expect hb ?_))
      exact (ih.block p.function body trivial).bind gives_pure
    | some names =>
      have hsees : Cursor.sees ⟨us ++ r :: b :: (ws ++ rest), finish, n, errors⟩
          (.symbol .rightParen) = false := by
        cases names with
        | last name => simp [Cursor.sees, name]
        | more name => simp [Cursor.sees, name]
      refine gives_test hsees ?_
      refine (gives_parameters names ⟨r, _, rfl, closing⟩ fuel #[] (by simpa using few)).bind ?_
      refine gives_expect closing (gives_expect hb ?_)
      refine (ih.block p.function body trivial).bind ?_
      rw [Array.empty_append]
      exact gives_pure

theorem gives_namedFunction (ih : Complete fuel) (p : Place) (role : Role) :
    Completes .function p (namedFunction (fuel + 1) p role) fun _ => True := by
  intro n ts m n' rest finish errors h _
  rw [namedFunction]
  cases h with
  | named name closure =>
    obtain ⟨l, us, rfl, hl⟩ := closure.starts
    refine gives_name name (gives_expect hl ?_)
    exact (ih.functionTail p _ role closure trivial).bind gives_pure

theorem gives_block (ih : Complete fuel) (p : Place) :
    CompletesAfter .block p (fun _ => block (fuel + 1) p) fun _ => True := by
  intro n k ts b n' rest finish errors h _
  rw [block]
  cases h with
  | braces room opening body closing =>
    simp only [List.append_assoc, List.cons_append, List.nil_append]
    refine gives_nested room ?_
    refine (ih.declarations body (by simp [Stops, closing])).bind ?_
    rw [Array.empty_append]
    exact gives_expect closing gives_pure

/-- What follows a declaration among others does not continue it. -/
theorem stops_declarations {p : Place} {n n' : Nat} {ts rest : List Token} {ss : List Stmt}
    (h : Derives .declarations p n ts ss n') (hfollow : Stops (· = .keyword .else_) rest) :
    Stops (· = .keyword .else_) (ts ++ rest) := by
  cases h with
  | noDeclaration => exact hfollow
  | declarations first more =>
    obtain ⟨t, us, rfl, hstarts⟩ := first.starts
    intro helse
    rw [helse] at hstarts
    cases hstarts

theorem gives_declarations (ih : Complete fuel) {p : Place} {n n' finish : Nat}
    {ts rest : List Token} {ss : List Stmt} {errors : Array Diagnostic} {done : Array Stmt}
    (h : Derives .declarations p n ts ss n') (hfollow : Stops (· ≠ .symbol .rightBrace) rest) :
    Gives (declarations (fuel + 1) p done) ⟨ts ++ rest, finish, n, errors⟩ (done ++ ss.toArray)
      ⟨rest, finish, n', errors⟩ := by
  rw [declarations]
  cases h with
  | noDeclaration =>
    have hover : (Cursor.atEnd ⟨[] ++ rest, finish, n, errors⟩ ||
        Cursor.sees ⟨[] ++ rest, finish, n, errors⟩ (.symbol .rightBrace)) = true := by
      cases rest with
      | nil => rfl
      | cons t us => simpa [Stops, Cursor.sees, Cursor.atEnd] using hfollow
    refine gives_test hover ?_
    rw [Array.append_empty]
    exact gives_pure
  | @declarations _ _ us s _ vs more _ first following =>
    have helse : Stops (· = .keyword .else_) rest := hfollow.imp fun kind hkind => by
      rw [hkind]
      exact TokenKind.noConfusion
    have hfollowing := stops_declarations following helse
    rw [List.append_assoc, append_cons]
    have hmore : (Cursor.atEnd ⟨us ++ (vs ++ rest), finish, n, errors⟩ ||
        Cursor.sees ⟨us ++ (vs ++ rest), finish, n, errors⟩ (.symbol .rightBrace)) = false := by
      obtain ⟨t, ws, rfl, hstarts⟩ := first.starts
      refine decide_eq_false fun hkind => ?_
      rw [hkind] at hstarts
      cases hstarts
    refine gives_test hmore ?_
    refine (ih.declaration first hfollowing).bind ?_
    exact ih.declarations following hfollow

theorem gives_declaration (ih : Complete fuel) {p : Place} {n n' finish : Nat}
    {ts rest : List Token} {s : Stmt} {errors : Array Diagnostic}
    (h : Derives .declaration p n ts s n') (hfollow : Stops (· = .keyword .else_) rest) :
    Gives (declaration (fuel + 1) p) ⟨ts ++ rest, finish, n, errors⟩ (some s)
      ⟨rest, finish, n', errors⟩ := by
  rw [declaration]
  exact (ih.declared p h hfollow).recover

theorem gives_declared (ih : Complete fuel) (p : Place) :
    Completes .declaration p (declared (fuel + 1) p) (Stops (· = .keyword .else_)) := by
  intro n ts s n' rest finish errors h hfollow
  rw [declared]
  cases h with
  | classDeclaration declaration =>
    obtain ⟨k, us, rfl, hk⟩ := declaration.starts
    exact gives_accept hk (ih.classDeclaration p declaration trivial)
  | @function _ _ k us m _ keyword function =>
    obtain ⟨t, vs, rfl, ht⟩ := function.starts
    refine gives_accept_none (by simp [Stops, keyword]) ?_
    have hboth : Cursor.seesBoth ⟨(k :: t :: vs) ++ rest, finish, n, errors⟩ (.keyword .fun_)
        .identifier = true := by
      simp [Cursor.seesBoth, keyword, ht]
    refine gives_test hboth (gives_accept keyword ?_)
    exact (ih.namedFunction p .function function trivial).bind gives_pure
  | varDeclaration declaration =>
    obtain ⟨k, us, rfl, hk⟩ := declaration.starts
    refine gives_accept_none (by simp [Stops, hk]) ?_
    have hboth : Cursor.seesBoth ⟨(k :: us) ++ rest, finish, n, errors⟩ (.keyword .fun_)
        .identifier = false := by
      unfold Cursor.seesBoth
      split <;> simp_all
    exact gives_test hboth (gives_accept hk (ih.varDeclaration p declaration trivial))
  | @statement _ _ opened _ _ _ statement =>
    obtain ⟨t, us, rfl, hstarts, hfun⟩ := statement.starts
    have hkind (kind : TokenKind) (h : startsAnyStatement kind = false) : t.kind ≠ kind := by
      rintro rfl
      rw [hstarts] at h
      cases h
    refine gives_accept_none (hkind _ rfl) ?_
    have hboth : Cursor.seesBoth ⟨(t :: us) ++ rest, finish, n, errors⟩ (.keyword .fun_)
        .identifier = false := by
      by_cases hfun_ : t.kind = .keyword .fun_
      · obtain ⟨l, vs, rfl, hl⟩ := hfun hfun_
        simp [Cursor.seesBoth, hl]
      · unfold Cursor.seesBoth
        split <;> simp_all
    refine gives_test hboth (gives_accept_none (hkind _ rfl) ?_)
    exact ih.statement p opened statement fun _ => hfollow

theorem gives_superclassClause {n n' finish : Nat} {ts rest : List Token}
    {parent : Option Reference} {errors : Array Diagnostic} (h : Superclass n ts parent n')
    (hnext : Next .leftBrace rest) :
    Gives superclassClause ⟨ts ++ rest, finish, n, errors⟩ parent ⟨rest, finish, n', errors⟩ := by
  rw [superclassClause]
  cases h with
  | none =>
    obtain ⟨l, us, rfl, hl⟩ := hnext
    exact gives_accept_none (by simp [Stops, hl]) gives_pure
  | some less name => exact gives_accept less (gives_name name (gives_fresh gives_pure))

theorem gives_classDeclaration (ih : Complete fuel) (p : Place) :
    CompletesAfter .classDeclaration p (fun _ => classDeclaration (fuel + 1) p)
      fun _ => True := by
  intro n k ts s n' rest finish errors h _
  rw [classDeclaration]
  cases h with
  | class_ keyword name superclass opening methods closing =>
    simp only [List.append_assoc, List.cons_append, List.nil_append]
    refine gives_name name ?_
    refine (gives_superclassClause superclass ⟨_, _, rfl, opening⟩).bind ?_
    refine gives_expect opening ?_
    refine (ih.methods methods ⟨_, _, rfl, closing⟩).bind ?_
    rw [Array.empty_append]
    exact gives_expect closing gives_pure

theorem gives_methods (ih : Complete fuel) {p : Place} {n n' finish : Nat}
    {ts rest : List Token} {ms : List Method} {errors : Array Diagnostic} {done : Array Method}
    (h : Derives .methods p n ts ms n') (hnext : Next .rightBrace rest) :
    Gives (methods (fuel + 1) p done) ⟨ts ++ rest, finish, n, errors⟩ (done ++ ms.toArray)
      ⟨rest, finish, n', errors⟩ := by
  rw [methods]
  cases h with
  | noMethod =>
    obtain ⟨r, us, rfl, hr⟩ := hnext
    have hover : (Cursor.atEnd ⟨[] ++ r :: us, finish, n, errors⟩ ||
        Cursor.sees ⟨[] ++ r :: us, finish, n, errors⟩ (.symbol .rightBrace)) = true := by
      simp [Cursor.sees, hr]
    refine gives_test hover ?_
    rw [Array.append_empty]
    exact gives_pure
  | @methods _ _ us m _ vs more _ first following =>
    rw [List.append_assoc, append_cons]
    have hmore : (Cursor.atEnd ⟨us ++ (vs ++ rest), finish, n, errors⟩ ||
        Cursor.sees ⟨us ++ (vs ++ rest), finish, n, errors⟩ (.symbol .rightBrace)) = false := by
      obtain ⟨t, ws, rfl, ht⟩ := first.starts
      simp [Cursor.sees, Cursor.atEnd, ht]
    refine gives_test hmore ?_
    refine (ih.namedFunction p .method first trivial).bind ?_
    exact ih.methods following hnext

theorem gives_varDeclaration (ih : Complete fuel) (p : Place) :
    CompletesAfter .varDeclaration p (fun _ => varDeclaration (fuel + 1) p) fun _ => True := by
  intro n k ts s n' rest finish errors h _
  rw [varDeclaration]
  cases h with
  | uninitialized keyword name ending =>
    refine gives_name name (gives_accept_none (by simp [Stops, ending]) ?_)
    exact gives_expect ending gives_pure
  | initialized keyword name equal value ending =>
    simp only [List.append_assoc, List.cons_append, List.nil_append]
    refine gives_name name (gives_accept equal ?_)
    refine (ih.expression p value (stops_closing ending (.inr (.inl rfl)))).map.bind ?_
    exact gives_expect ending gives_pure

theorem gives_statement (ih : Complete fuel) (p : Place) (opened : Bool) :
    Completes (.statement opened) p (statement (fuel + 1) p) (NoElse opened) := by
  intro n ts s n' rest finish errors h hfollow
  rw [statement]
  cases h with
  | nested room body => exact gives_nested room (ih.statementBody p.deeper opened body hfollow)

theorem gives_expressionStatement (ih : Complete fuel) (p : Place) :
    Completes .expressionStatement p (expressionStatement (fuel + 1) p) fun _ => True := by
  intro n ts s n' rest finish errors h _
  rw [expressionStatement]
  cases h with
  | terminated value ending =>
    simp only [List.append_assoc, List.cons_append, List.nil_append]
    refine (ih.expression p value (stops_closing ending (.inr (.inl rfl)))).bind ?_
    exact gives_expect ending gives_pure

end Lox.Grammar

/-! # Completeness of the rules of branches, loops and returns -/

namespace Lox.Grammar

open Rule

variable {fuel : Nat}

theorem gives_optionalExpression (ih : Complete fuel) (p : Place) (symbol : Symbol)
    (hcloses : Closes symbol) : Completes .optionalExpression p
      (optionalExpression (fuel + 1) p symbol) (Next symbol) := by
  intro n ts e n' rest finish errors h hnext
  obtain ⟨r, us, rfl, hr⟩ := hnext
  rw [optionalExpression]
  cases h with
  | noExpression =>
    have hsees : Cursor.sees ⟨[] ++ r :: us, finish, n, errors⟩ (.symbol symbol) = true :=
      decide_eq_true hr
    exact gives_test hsees gives_pure
  | someExpression value =>
    have hsees : Cursor.sees ⟨ts ++ r :: us, finish, n, errors⟩ (.symbol symbol) = false := by
      obtain ⟨t, ws, rfl, hstarts, -⟩ := value.starts
      refine decide_eq_false fun hkind => ?_
      rw [hkind] at hstarts
      rcases hcloses with rfl | rfl | rfl <;> cases hstarts
    refine gives_test hsees ?_
    exact (ih.expression p value (stops_closing hr hcloses)).map

theorem gives_forInitializer (ih : Complete fuel) (p : Place) :
    Completes .initializer p (forInitializer (fuel + 1) p) fun _ => True := by
  intro n ts start n' rest finish errors h _
  rw [forInitializer]
  cases h with
  | noInitializer ending => exact gives_accept ending gives_pure
  | declaring declaration =>
    obtain ⟨k, us, rfl, hk⟩ := declaration.starts
    refine gives_accept_none (by simp [Stops, hk]) (gives_accept hk ?_)
    exact (ih.varDeclaration p declaration trivial).map
  | evaluating statement =>
    obtain ⟨t, us, rfl, hstarts, -⟩ := statement.starts
    have hkind (kind : TokenKind) (h : startsExpression kind = false) : t.kind ≠ kind := by
      rintro rfl
      rw [hstarts] at h
      cases h
    refine gives_accept_none (hkind _ rfl) (gives_accept_none (hkind _ rfl) ?_)
    exact (ih.expressionStatement p statement trivial).map

theorem gives_forStatement (ih : Complete fuel) (p : Place) (opened : Bool) :
    CompletesAfter (.forStatement opened) p (fun k => forStatement (fuel + 1) p k.span)
      (NoElse opened) := by
  intro n k ts s n' rest finish errors h hfollow
  dsimp only
  rw [forStatement]
  cases h with
  | for_ keyword opening start condition ending step closing body =>
    simp only [List.append_assoc, List.cons_append]
    refine gives_expect opening ?_
    refine (ih.forInitializer p start trivial).bind ?_
    refine (ih.optionalExpression p .semicolon (.inr (.inl rfl)) condition
      ⟨_, _, rfl, ending⟩).bind ?_
    refine gives_expect ending ?_
    refine (ih.optionalExpression p .rightParen (.inl rfl) step ⟨_, _, rfl, closing⟩).bind ?_
    refine gives_expect closing ?_
    exact (ih.statement p.loop opened body hfollow).bind gives_pure

theorem gives_ifStatement (ih : Complete fuel) (p : Place) (opened : Bool) :
    CompletesAfter (.ifStatement opened) p (fun _ => ifStatement (fuel + 1) p)
      (NoElse opened) := by
  intro n k ts s n' rest finish errors h hfollow
  rw [ifStatement]
  cases h with
  | @ifThen _ _ _ _ _ _ _ _ _ inner _ _ keyword opening condition closing branch =>
    have hnoElse := hfollow rfl
    simp only [List.append_assoc, List.cons_append]
    refine gives_expect opening ?_
    refine (ih.expression p condition (stops_closing closing (.inl rfl))).bind ?_
    refine gives_expect closing ?_
    refine (ih.statement p inner branch fun _ => hnoElse).bind ?_
    exact gives_accept_none hnoElse gives_pure
  | ifElse keyword opening condition closing thenBranch otherwise elseBranch =>
    simp only [List.append_assoc, List.cons_append]
    refine gives_expect opening ?_
    refine (ih.expression p condition (stops_closing closing (.inl rfl))).bind ?_
    refine gives_expect closing ?_
    refine (ih.statement p false thenBranch nofun).bind ?_
    refine gives_accept otherwise ?_
    exact (ih.statement p opened elseBranch hfollow).bind gives_pure

theorem gives_whileStatement (ih : Complete fuel) (p : Place) (opened : Bool) :
    CompletesAfter (.whileStatement opened) p (fun _ => whileStatement (fuel + 1) p)
      (NoElse opened) := by
  intro n k ts s n' rest finish errors h hfollow
  rw [whileStatement]
  cases h with
  | while_ keyword opening condition closing body =>
    simp only [List.append_assoc, List.cons_append]
    refine gives_expect opening ?_
    refine (ih.expression p condition (stops_closing closing (.inl rfl))).bind ?_
    refine gives_expect closing ?_
    exact (ih.statement p.loop opened body hfollow).bind gives_pure

theorem gives_returnStatement (ih : Complete fuel) (p : Place) :
    CompletesAfter .returnStatement p (fun k => returnStatement (fuel + 1) p k.span)
      fun _ => True := by
  intro n k ts s n' rest finish errors h _
  dsimp only
  rw [returnStatement]
  cases h with
  | return_ keyword value ending =>
    simp only [List.append_assoc, List.cons_append, List.nil_append]
    refine (ih.optionalExpression p .semicolon (.inr (.inl rfl)) value
      ⟨_, _, rfl, ending⟩).bind ?_
    exact gives_expect ending gives_pure

/-- A statement is told by its keyword. -/
theorem gives_statementBody (ih : Complete fuel) (p : Place) (opened : Bool) :
    Completes (.statementBody opened) p (statementBody (fuel + 1) p) (NoElse opened) := by
  intro n ts s n' rest finish errors h hfollow
  rw [statementBody]
  have hskip {t : Token} {us : List Token} {kind kind' : TokenKind}
      {k : Option Token → Rule Stmt} {c' : Cursor} (ht : t.kind = kind') (hne : kind' ≠ kind)
      (hk : Gives (k none) ⟨t :: us, finish, n, errors⟩ s c') :
      Gives (accept kind >>= k) ⟨t :: us, finish, n, errors⟩ s c' :=
    gives_accept_none (fun h => hne (ht.symm.trans h)) hk
  cases h with
  | forStatement statement =>
    obtain ⟨k, us, rfl, hk⟩ : ∃ k us, ts = k :: us ∧ k.kind = .keyword .for_ := by
      cases statement with
      | for_ keyword => exact ⟨_, _, rfl, keyword⟩
    exact gives_accept hk (ih.forStatement p opened statement hfollow)
  | ifStatement statement =>
    obtain ⟨k, us, rfl, hk⟩ : ∃ k us, ts = k :: us ∧ k.kind = .keyword .if_ := by
      cases statement with
      | ifThen keyword => exact ⟨_, _, rfl, keyword⟩
      | ifElse keyword => exact ⟨_, _, rfl, keyword⟩
    refine hskip hk nofun ?_
    exact gives_accept hk (ih.ifStatement p opened statement hfollow)
  | whileStatement statement =>
    obtain ⟨k, us, rfl, hk⟩ : ∃ k us, ts = k :: us ∧ k.kind = .keyword .while_ := by
      cases statement with
      | while_ keyword => exact ⟨_, _, rfl, keyword⟩
    refine hskip hk nofun (hskip hk nofun ?_)
    exact gives_accept hk (ih.whileStatement p opened statement hfollow)
  | breakStatement statement =>
    cases statement with
    | break_ keyword inside ending =>
      refine hskip keyword nofun (hskip keyword nofun (hskip keyword nofun ?_))
      refine gives_accept keyword ?_
      unfold breakStatement
      refine gives_noteIf (by simp [inside]) ?_
      exact gives_expect ending gives_pure
  | returnStatement statement =>
    obtain ⟨k, us, rfl, hk⟩ : ∃ k us, ts = k :: us ∧ k.kind = .keyword .return_ := by
      cases statement with
      | return_ keyword => exact ⟨_, _, rfl, keyword⟩
    refine hskip hk nofun (hskip hk nofun (hskip hk nofun (hskip hk nofun ?_)))
    exact gives_accept hk (ih.returnStatement p statement trivial)
  | block block =>
    obtain ⟨l, us, rfl, hl⟩ : ∃ l us, ts = l :: us ∧ l.kind = .symbol .leftBrace := by
      cases block with
      | braces _ opening => exact ⟨_, _, rfl, opening⟩
    refine hskip hl nofun (hskip hl nofun (hskip hl nofun (hskip hl nofun (hskip hl nofun ?_))))
    refine gives_accept hl ?_
    exact (ih.block p block trivial).bind gives_pure
  | printStatement statement =>
    cases statement with
    | print keyword value ending =>
      simp only [List.append_assoc, List.cons_append, List.nil_append]
      refine hskip keyword nofun (hskip keyword nofun (hskip keyword nofun (hskip keyword nofun
        (hskip keyword nofun (hskip keyword nofun ?_)))))
      refine gives_accept keyword ?_
      refine (ih.expression p value (stops_closing ending (.inr (.inl rfl)))).bind ?_
      exact gives_expect ending gives_pure
  | @expressionStatement _ _ _ s _ statement =>
    obtain ⟨t, us, rfl, hstarts, -⟩ := statement.starts
    have hpass {kind : TokenKind} {k : Option Token → Rule Stmt} {c' : Cursor}
        (h : startsExpression kind = false)
        (hk : Gives (k none) ⟨(t :: us) ++ rest, finish, n, errors⟩ s c') :
        Gives (accept kind >>= k) ⟨(t :: us) ++ rest, finish, n, errors⟩ s c' := by
      refine gives_accept_none ?_ hk
      rintro rfl
      rw [hstarts] at h
      cases h
    refine hpass rfl (hpass rfl (hpass rfl (hpass rfl (hpass rfl (hpass rfl (hpass rfl ?_))))))
    exact ih.expressionStatement p statement trivial

end Lox.Grammar
