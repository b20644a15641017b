import Lox.Proofs.Grammar.Sound.Expression
import Lox.Proofs.Grammar.Sound.Statement

/-! # Soundness of the rules of branches, loops and returns -/

namespace Lox.Grammar

open Rule

variable {fuel : Nat}

theorem reads_optionalExpression (ih : Sound fuel) (p : Place) (closing : Symbol) (c : Cursor)
    (hfuel : 40 * c.tokens.length + 17 ≤ fuel + 1) :
    Reads (optionalExpression (fuel + 1) p closing) c fun e c' =>
      c.Reaches c' fun ts => Derives .optionalExpression p c.nextId ts e c'.nextId := by
  rw [optionalExpression]
  refine reads_test ?_
  split
  · exact reads_pure fun _ => ⟨[], rfl, .noExpression⟩
  · refine ((ih.expression p c (by omega)).imp ?_).map
    rintro e c₁ - ⟨-, hvalue⟩ hclean
    obtain ⟨ts, hts, hd⟩ := hvalue hclean
    exact ⟨ts, hts, .someExpression hd⟩

theorem reads_forInitializer (ih : Sound fuel) (p : Place) (c : Cursor)
    (hfuel : 40 * c.tokens.length + 18 ≤ fuel + 1) :
    Reads (forInitializer (fuel + 1) p) c (Builds .initializer p [] c) := by
  rw [forInitializer]
  refine reads_accept ?_ fun _ => reads_accept ?_ fun _ => ?_
  · intro e c₁ he hending
    refine reads_pure (builds_token he rfl ?_)
    rw [he.nextId]
    exact .noInitializer hending
  · rintro k c₁ ⟨htokens₁, hshorter₁, hnext₁, herrors₁⟩ hkeyword
    refine ((ih.varDeclaration p k c₁ hkeyword (by omega)).imp ?_).map
    rintro s c₂ - ⟨hshort, hvariable⟩
    refine ⟨by omega, fun hclean => ?_⟩
    obtain ⟨ts, hts, hd⟩ := hvariable (by omega)
    rw [hnext₁] at hd
    exact ⟨k :: ts, by simp [htokens₁, hts], .declaring hd⟩
  · refine ((ih.expressionStatement p c (by omega)).imp ?_).map
    rintro s c₁ - ⟨hshort, hstatement⟩
    refine ⟨hshort, fun hclean => ?_⟩
    obtain ⟨ts, hts, hd⟩ := hstatement hclean
    exact ⟨ts, hts, .evaluating hd⟩

theorem reads_forStatement (ih : Sound fuel) (p : Place) (k : Token) (c : Cursor)
    (hkeyword : k.kind = .keyword .for_) (hfuel : 40 * c.tokens.length + 1 ≤ fuel + 1) :
    Reads (forStatement (fuel + 1) p k.span) c fun s c' =>
      BuildsStatement (fun o ts => Derives (.forStatement o) p c.nextId (k :: ts) s c'.nextId)
        c c' := by
  rw [forStatement]
  refine reads_expect ?_
  rintro l c₁ ⟨htokens₁, hshorter₁, hnext₁, herrors₁⟩ hopening
  refine (ih.forInitializer p c₁ (by omega)).bind ?_
  rintro start c₂ ⟨htokens₂, herrors₂⟩ ⟨-, hstart⟩
  refine (ih.optionalExpression p .semicolon c₂ (by omega)).bind ?_
  rintro condition c₃ ⟨htokens₃, herrors₃⟩ hcondition
  refine reads_expect ?_
  rintro e c₄ ⟨htokens₄, hshorter₄, hnext₄, herrors₄⟩ hending
  refine (ih.optionalExpression p .rightParen c₄ (by omega)).bind ?_
  rintro step c₅ ⟨htokens₅, herrors₅⟩ hstep
  refine reads_expect ?_
  rintro r c₆ ⟨htokens₆, hshorter₆, hnext₆, herrors₆⟩ hclosing
  refine (ih.statement p.loop c₆ (by omega)).bind ?_
  rintro body c₇ ⟨htokens₇, herrors₇⟩ ⟨-, hbody⟩
  refine reads_pure ⟨by omega, fun hclean => ?_⟩
  obtain ⟨ts, hts, hstart⟩ := hstart (by omega)
  obtain ⟨us, hus, hcondition⟩ := hcondition (by omega)
  obtain ⟨vs, hvs, hstep⟩ := hstep (by omega)
  obtain ⟨ws, hws, opened, hbody, helse⟩ := hbody (by omega)
  refine ⟨l :: (ts ++ (us ++ e :: (vs ++ r :: ws))), ?_, opened, ?_, helse⟩
  · simp [htokens₁, hts, hus, htokens₄, hvs, htokens₆, hws]
  · rw [hnext₁] at hstart
    rw [hnext₄] at hstep
    rw [hnext₆] at hbody
    exact .for_ hkeyword hopening hstart hcondition hending hstep hclosing hbody

theorem reads_ifStatement (ih : Sound fuel) (p : Place) (k : Token) (c : Cursor)
    (hkeyword : k.kind = .keyword .if_) (hfuel : 40 * c.tokens.length + 1 ≤ fuel + 1) :
    Reads (ifStatement (fuel + 1) p) c fun s c' =>
      BuildsStatement (fun o ts => Derives (.ifStatement o) p c.nextId (k :: ts) s c'.nextId)
        c c' := by
  rw [ifStatement]
  refine reads_expect ?_
  rintro l c₁ ⟨htokens₁, hshorter₁, hnext₁, herrors₁⟩ hopening
  refine (ih.expression p c₁ (by omega)).bind ?_
  rintro condition c₂ ⟨htokens₂, herrors₂⟩ ⟨-, hcondition⟩
  refine reads_expect ?_
  rintro r c₃ ⟨htokens₃, hshorter₃, hnext₃, herrors₃⟩ hclosing
  refine (ih.statement p c₃ (by omega)).bind ?_
  rintro thenBranch c₄ ⟨htokens₄, herrors₄⟩ ⟨-, hthen⟩
  refine reads_accept ?_ fun hsees => ?_
  · rintro x c₅ ⟨htokens₅, hshorter₅, hnext₅, herrors₅⟩ hotherwise
    refine (ih.statement p c₅ (by omega)).bind ?_
    rintro elseBranch c₆ ⟨htokens₆, herrors₆⟩ ⟨-, helse⟩
    refine reads_pure ⟨by omega, fun hclean => ?_⟩
    obtain ⟨ts, hts, hcondition⟩ := hcondition (by omega)
    obtain ⟨us, hus, opened, hthen, hlast⟩ := hthen (by omega)
    obtain ⟨vs, hvs, opened', helse, hlast'⟩ := helse (by omega)
    -- the `else` that follows shows that the branch before it is not opened
    have hopened : opened = false := by
      cases opened with
      | false => rfl
      | true =>
        have hsees := hlast rfl
        simp [Cursor.sees, htokens₅, hotherwise] at hsees
    subst hopened
    refine ⟨l :: (ts ++ r :: (us ++ x :: vs)), ?_, opened', ?_, hlast'⟩
    · simp [htokens₁, hts, htokens₃, hus, htokens₅, hvs]
    · rw [hnext₁] at hcondition
      rw [hnext₃] at hthen
      rw [hnext₅] at helse
      exact .ifElse hkeyword hopening hcondition hclosing hthen hotherwise helse
  · refine reads_pure ⟨by omega, fun hclean => ?_⟩
    obtain ⟨ts, hts, hcondition⟩ := hcondition (by omega)
    obtain ⟨us, hus, opened, hthen, -⟩ := hthen (by omega)
    refine ⟨l :: (ts ++ r :: us), by simp [htokens₁, hts, htokens₃, hus], true, ?_, fun _ => hsees⟩
    rw [hnext₁] at hcondition
    rw [hnext₃] at hthen
    exact .ifThen hkeyword hopening hcondition hclosing hthen

theorem reads_whileStatement (ih : Sound fuel) (p : Place) (k : Token) (c : Cursor)
    (hkeyword : k.kind = .keyword .while_) (hfuel : 40 * c.tokens.length + 1 ≤ fuel + 1) :
    Reads (whileStatement (fuel + 1) p) c fun s c' =>
      BuildsStatement (fun o ts => Derives (.whileStatement o) p c.nextId (k :: ts) s c'.nextId)
        c c' := by
  rw [whileStatement]
  refine reads_expect ?_
  rintro l c₁ ⟨htokens₁, hshorter₁, hnext₁, herrors₁⟩ hopening
  refine (ih.expression p c₁ (by omega)).bind ?_
  rintro condition c₂ ⟨htokens₂, herrors₂⟩ ⟨-, hcondition⟩
  refine reads_expect ?_
  rintro r c₃ ⟨htokens₃, hshorter₃, hnext₃, herrors₃⟩ hclosing
  refine (ih.statement p.loop c₃ (by omega)).bind ?_
  rintro body c₄ ⟨htokens₄, herrors₄⟩ ⟨-, hbody⟩
  refine reads_pure ⟨by omega, fun hclean => ?_⟩
  obtain ⟨ts, hts, hcondition⟩ := hcondition (by omega)
  obtain ⟨us, hus, opened, hbody, helse⟩ := hbody (by omega)
  refine ⟨l :: (ts ++ r :: us), by simp [htokens₁, hts, htokens₃, hus], opened, ?_, helse⟩
  rw [hnext₁] at hcondition
  rw [hnext₃] at hbody
  exact .while_ hkeyword hopening hcondition hclosing hbody

theorem reads_returnStatement (ih : Sound fuel) (p : Place) (k : Token) (c : Cursor)
    (hkeyword : k.kind = .keyword .return_) (hfuel : 40 * c.tokens.length + 18 ≤ fuel + 1) :
    Reads (returnStatement (fuel + 1) p k.span) c (Builds .returnStatement p [k] c) := by
  rw [returnStatement]
  refine (ih.optionalExpression p .semicolon c (by omega)).bind ?_
  rintro value c₁ ⟨htokens₁, herrors₁⟩ hvalue
  refine reads_expect ?_
  rintro e c₂ ⟨htokens₂, hshorter₂, hnext₂, herrors₂⟩ hending
  refine reads_pure ⟨by omega, fun hclean => ?_⟩
  obtain ⟨ts, hts, hd⟩ := hvalue (by omega)
  refine ⟨ts ++ [e], by simp [hts, htokens₂], ?_⟩
  rw [hnext₂]
  exact .return_ hkeyword hd hending

end Lox.Grammar

/-! # What a text without errors derives from

The rules are sound for any number of steps, and the bound that a parse starts
with is enough for a whole text. -/

namespace Lox.Grammar

open Rule

theorem sound : ∀ fuel, Sound fuel
  | 0 => by constructor <;> intros <;> omega
  | fuel + 1 => by
    have ih := sound fuel
    exact {
      expression := reads_expression ih
      assignment := reads_assignment ih
      operation := reads_operation ih
      chain := reads_chain ih
      operand := reads_operand ih
      unary := reads_unary ih
      calls := reads_calls ih
      argumentList := reads_argumentList ih
      arguments := reads_arguments ih
      primary := reads_primary ih
      functionTail := reads_functionTail ih
      namedFunction := reads_namedFunction ih
      block := reads_block ih
      declarations := reads_declarations ih
      declaration := reads_declaration ih
      declared := reads_declared ih
      classDeclaration := reads_classDeclaration ih
      methods := reads_methods ih
      varDeclaration := reads_varDeclaration ih
      statement := reads_statement ih
      statementBody := reads_statementBody ih
      expressionStatement := reads_expressionStatement ih
      forStatement := reads_forStatement ih
      forInitializer := reads_forInitializer ih
      optionalExpression := reads_optionalExpression ih
      ifStatement := reads_ifStatement ih
      whileStatement := reads_whileStatement ih
      returnStatement := reads_returnStatement ih }

/-- A program is read to its end. -/
theorem reads_program : ∀ (fuel : Nat) (done : Array Stmt) (c : Cursor),
    40 * c.tokens.length + 22 ≤ fuel →
    Reads (program fuel done) c fun all c' => c'.tokens = [] ∧ c.Reaches c' fun ts =>
      ∃ more, all.toList = done.toList ++ more ∧
        Derives .declarations .top c.nextId ts more c'.nextId
  | 0, _, _, hfuel => absurd hfuel (by omega)
  | fuel + 1, done, c, hfuel => by
    rw [program]
    refine reads_test ?_
    split
    · rename_i hend
      refine reads_pure ⟨List.isEmpty_iff.mp hend, fun _ => ⟨[], rfl, [], by simp, ?_⟩⟩
      exact .noDeclaration
    · rename_i hmore
      have hsome : 0 < c.tokens.length := by
        rw [List.length_pos_iff]
        rintro hnil
        simp [Cursor.atEnd, hnil] at hmore
      refine ((sound fuel).declaration .top c (by omega)).bind ?_
      rintro (_ | s) c₁ hon₁ hresult
      · obtain ⟨herrors₁, hshort⟩ := hresult
        refine (reads_program fuel done c₁ (by have := hshort hsome; omega)).imp ?_
        rintro all c₂ ⟨-, herrors₂⟩ ⟨hend, -⟩
        exact ⟨hend, fun hclean => by omega⟩
      · refine (reads_program fuel (done.push s) c₁ (by have := hresult.1; omega)).imp ?_
        rintro all c₂ hon₂ ⟨hend, hrest⟩
        exact ⟨hend, reaches_declarations hon₁ hon₂ hresult hrest⟩

theorem reads_start (stream : TokenStream) (first : Nat) :
    Reads (program (stepBound stream.tokens.length) #[]) (.start stream first) fun all c' =>
      c'.tokens = [] ∧ (Cursor.start stream first).Reaches c' fun ts =>
        Derives .declarations .top first ts all.toList c'.nextId := by
  refine (reads_program _ #[] _ ?_).imp ?_
  · simp only [Cursor.start, stepBound]
    omega
  · rintro all c' - ⟨hend, hderives⟩
    refine ⟨hend, fun hclean => ?_⟩
    obtain ⟨ts, hts, more, hmore, hd⟩ := hderives hclean
    rw [Array.toList_empty, List.nil_append] at hmore
    rw [hmore]
    exact ⟨ts, hts, hd⟩

/-- A text in which no error is found is a program of the grammar. -/
theorem derivesProgram_of_parseProgram {stream : TokenStream} {first : Nat}
    (h : (parseProgram stream first).errors = #[]) :
    DerivesProgram first stream.tokens (parseProgram stream first).value
      (parseProgram stream first).nextId := by
  have hreads := reads_start stream first
  unfold Reads Ends at hreads
  unfold parseProgram parse at h ⊢
  cases hrule : program (stepBound stream.tokens.length) #[] (.start stream first) with
  | ok all c =>
    rw [hrule] at hreads h
    obtain ⟨-, hend, hderives⟩ := hreads
    have hclean : c.errors = #[] := h
    obtain ⟨ts, hts, hd⟩ := hderives (by rw [hclean]; rfl)
    rw [hend, List.append_nil] at hts
    rw [← hts] at hd
    exact hd
  | error halt c =>
    rw [hrule] at hreads h
    obtain ⟨-, -, herrors⟩ := hreads
    have hclean : c.errors = #[] := h
    rw [hclean] at herrors
    exact absurd herrors (Nat.not_lt_zero _)

/-- What the rule for expressions reads to the end of a text without noting an error is an
expression. -/
theorem derives_of_expression {stream : TokenStream} {first : Nat} {p : Place} {e : Expr}
    {c : Cursor}
    (h : expression (stepBound stream.tokens.length) p (.start stream first) = .ok e c)
    (hend : c.tokens = []) (hclean : c.errors = #[]) :
    Derives .expression p first stream.tokens e c.nextId := by
  have hreads := (sound (stepBound stream.tokens.length)).expression p (.start stream first)
    (by simp only [Cursor.start, stepBound]; omega)
  obtain ⟨-, -, hreaches⟩ := Ends.of_ok hreads h
  obtain ⟨ts, hts, hd⟩ := hreaches (by rw [hclean]; rfl)
  rw [hend, List.append_nil] at hts
  rw [← hts] at hd
  exact hd

/-- A text in which no error is found, and in which an expression is, is that expression. -/
theorem derives_of_parseExpression {stream : TokenStream} {first : Nat} {e : Expr}
    (hvalue : (parseExpression stream first).value = some e)
    (h : (parseExpression stream first).errors = #[]) :
    Derives .expression .top first stream.tokens e (parseExpression stream first).nextId := by
  unfold parseExpression parse wholeExpression at hvalue h ⊢
  cases hrule : expression (stepBound stream.tokens.length) .top (.start stream first) with
  | ok found c =>
    simp only [hrule] at hvalue h ⊢
    obtain rfl : found = e := Option.some.inj hvalue
    split at h
    · next hend =>
      simp only [if_pos hend]
      exact derives_of_expression hrule (List.isEmpty_iff.mp hend) h
    · exact absurd h (by simp [Cursor.note])
  | error halt c =>
    rw [hrule] at hvalue
    cases hvalue

end Lox.Grammar
