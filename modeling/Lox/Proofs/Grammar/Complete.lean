import Lox.Proofs.Grammar.Complete.Statement
import Lox.Proofs.Grammar.Sound

/-! # A parse accepts exactly the programs of the grammar -/

namespace Lox.Grammar

open Rule

theorem complete : ∀ fuel, Complete fuel
  | 0 => by
    have hnone (phrase : Phrase) (p : Place) (follow : List Token → Prop) :
        Completes phrase p starve follow := fun _ _ => gives_starve
    have hnoneAfter (phrase : Phrase) (p : Place) (follow : List Token → Prop) :
        CompletesAfter phrase p (fun _ => starve) follow := fun _ _ => gives_starve
    constructor <;> intros <;>
      first | apply hnone | apply hnoneAfter | exact gives_starve
  | fuel + 1 => by
    have ih := complete fuel
    exact {
      expression := gives_expression ih
      assignment := gives_assignment ih
      operation := gives_operation ih
      chain := gives_chain ih
      operand := gives_operand ih
      unary := gives_unary ih
      calls := gives_calls ih
      argumentList := gives_argumentList ih
      arguments := gives_arguments ih
      primary := gives_primary ih
      functionTail := gives_functionTail ih
      namedFunction := gives_namedFunction ih
      block := gives_block ih
      declarations := gives_declarations ih
      declaration := gives_declaration ih
      declared := gives_declared ih
      classDeclaration := gives_classDeclaration ih
      methods := gives_methods ih
      varDeclaration := gives_varDeclaration ih
      statement := gives_statement ih
      statementBody := gives_statementBody ih
      expressionStatement := gives_expressionStatement ih
      forStatement := gives_forStatement ih
      forInitializer := gives_forInitializer ih
      optionalExpression := gives_optionalExpression ih
      ifStatement := gives_ifStatement ih
      whileStatement := gives_whileStatement ih
      returnStatement := gives_returnStatement ih }

theorem gives_program {ss : List Stmt} : ∀ {ts : List Token} {n n' finish : Nat}
    {errors : Array Diagnostic} (fuel : Nat) (done : Array Stmt),
    Derives .declarations .top n ts ss n' →
    Gives (program fuel done) ⟨ts, finish, n, errors⟩ (done ++ ss.toArray)
      ⟨[], finish, n', errors⟩ := by
  induction ss with
  | nil =>
    rintro ts n n' finish errors (_ | fuel) done h
    · exact gives_starve
    · cases h
      rw [program, Array.append_empty]
      exact gives_test rfl gives_pure
  | cons s ss ih =>
    rintro ts n n' finish errors (_ | fuel) done h
    · exact gives_starve
    · cases h with
      | @declarations _ _ us _ _ vs _ _ first more =>
        rw [program, append_cons]
        have hfollow : Stops (· = .keyword .else_) (vs ++ []) := stops_declarations more trivial
        rw [List.append_nil] at hfollow
        have hmore : Cursor.atEnd ⟨us ++ vs, finish, n, errors⟩ = false := by
          obtain ⟨t, ws, rfl, -⟩ := first.starts
          rfl
        refine gives_test hmore ?_
        exact ((complete fuel).declaration first hfollow).bind (ih fuel _ more)

/-- A program of the grammar is parsed into its tree, and no error is found. -/
theorem parseProgram_of_derivesProgram {stream : TokenStream} {first next : Nat}
    {ss : List Stmt} (h : DerivesProgram first stream.tokens ss next) :
    parseProgram stream first = ⟨ss, #[], next⟩ := by
  have hreads := reads_start stream first
  have hgives : Gives (program (stepBound stream.tokens.length) #[]) (.start stream first)
      (#[] ++ ss.toArray) ⟨[], stream.finish, next, #[]⟩ := gives_program _ #[] h
  unfold parseProgram parse
  rcases hgives with hok | ⟨c, hstarved⟩
  · rw [hok]
    simp
  · unfold Reads Ends at hreads
    rw [hstarved] at hreads
    cases hreads.1

/-- A text that is an expression is parsed into its tree, and no error is found. -/
theorem parseExpression_of_derives {stream : TokenStream} {first next : Nat} {e : Expr}
    (h : Derives .expression .top first stream.tokens e next) :
    parseExpression stream first = ⟨some e, #[], next⟩ := by
  have hreads := (sound (stepBound stream.tokens.length)).expression .top (.start stream first)
    (by simp only [Cursor.start, stepBound]; omega)
  have hends : Stops ContinuesExpression [] := trivial
  have hgives : Gives _ ⟨stream.tokens ++ [], stream.finish, first, #[]⟩ e _ :=
    (complete (stepBound stream.tokens.length)).expression .top h hends
  rw [List.append_nil] at hgives
  unfold parseExpression parse wholeExpression
  rcases hgives with hok | ⟨c, hstarved⟩
  · have hstart : expression (stepBound stream.tokens.length) .top (.start stream first) =
        .ok e ⟨[], stream.finish, next, #[]⟩ := hok
    rw [hstart]
    rfl
  · cases (Ends.of_error hreads hstarved).1

/-- A parse finds no error exactly in the programs of the grammar, and what it builds of
them is their tree. -/
theorem parseProgram_accepts_grammar (stream : TokenStream) (first : Nat) :
    ((parseProgram stream first).errors = #[] ↔
      ∃ ss next, DerivesProgram first stream.tokens ss next) ∧
    ∀ ss next, DerivesProgram first stream.tokens ss next ↔
      parseProgram stream first = ⟨ss, #[], next⟩ := by
  have hback (h : (parseProgram stream first).errors = #[]) :=
    derivesProgram_of_parseProgram h
  refine ⟨⟨fun h => ⟨_, _, hback h⟩, ?_⟩, fun ss next => ⟨parseProgram_of_derivesProgram, ?_⟩⟩
  · rintro ⟨ss, next, h⟩
    rw [parseProgram_of_derivesProgram h]
  · intro h
    have hderives := hback (by rw [h])
    rw [h] at hderives
    exact hderives

end Lox.Grammar
