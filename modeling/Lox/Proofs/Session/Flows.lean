import Lox.Proofs.Eval.Flows
import Lox.Proofs.Scope.Resolved
import Lox.Proofs.Session.Readings

/-! # How the statements of an accepted program finish

In a program with which nothing is wrong every `break` is inside a loop and every
`return` inside a function. Its statements finish normally, or they end with an
error. -/

namespace Lox

namespace Grammar

/-- The statements of a phrase hold a `break` only if they stand in a loop. -/
def Phrase.Looped (inLoop : Prop) : (phrase : Phrase) → phrase.Tree → Prop
  | .declarations, ss => Finishing.stmts inLoop True ss
  | .declaration, s | .classDeclaration, s | .varDeclaration, s | .statement _, s
  | .statementBody _, s | .expressionStatement, s | .printStatement, s | .ifStatement _, s
  | .whileStatement _, s | .forStatement _, s | .breakStatement, s | .returnStatement, s =>
    Finishing.stmt inLoop True s
  | .block, b => Finishing.stmts inLoop True b.1
  | .initializer, s => ∀ start, s = some start → Finishing.stmt inLoop True start
  | .methods, _ | .function, _ | .closure _, _ | .optionalExpression, _ | .expression, _
  | .assignment, _ | .operation _, _ | .chain _ _, _ | .operand _, _ | .unary, _ | .call, _
  | .suffixes _, _ | .argumentList, _ | .arguments, _ | .primary, _ => True

theorem looped_desugarFor (k : Span) {inLoop : Prop} {i : Option Stmt} {c j : Option Expr} {s : Stmt}
    (hi : Phrase.initializer.Looped inLoop i) (hs : Finishing.stmt True True s) :
    Finishing.stmt inLoop True (desugarFor k i c j s) := by
  cases i with
  | none =>
    cases j with
    | none => exact hs
    | some step => exact ⟨hs, trivial, trivial⟩
  | some start =>
    refine ⟨hi start rfl, ?_, trivial⟩
    cases j with
    | none => exact hs
    | some step => exact ⟨hs, trivial, trivial⟩

variable {phrase : Phrase} {p : Place} {n n' : Nat} {ts : List Token}

theorem looped_loop {s : Stmt} (h : Finishing.stmt (p.loop.inLoop = true) True s) :
    Finishing.stmt True True s := by
  rwa [show (p.loop.inLoop = true) = True from eq_true rfl] at h

theorem Derives.looped {a : phrase.Tree} (h : Derives phrase p n ts a n') :
    phrase.Looped (p.inLoop = true) a := by
  induction h with
  | declarations _ _ ihfirst ihrest => exact ⟨ihfirst, ihrest⟩
  | classDeclaration _ ih | varDeclaration _ ih | statement _ ih | nested _ _ ih | braces _ _ _ _ ih
  | expressionStatement _ ih | printStatement _ ih | ifStatement _ ih | whileStatement _ ih
  | forStatement _ ih | breakStatement _ ih | returnStatement _ ih | block _ ih => exact ih
  | ifThen _ _ _ _ _ _ ihbranch => exact ihbranch
  | ifElse _ _ _ _ _ _ _ _ ihthen ihelse => exact ⟨ihthen, ihelse⟩
  | while_ _ _ _ _ _ _ ihbody => exact looped_loop ihbody
  | @for_ _ _ k _ _ _ _ _ _ _ _ _ _ _ _ _ _ _ _ _ _ _ _ _ _ _ _ ihstart _ _ ihbody =>
    exact looped_desugarFor k.span ihstart (looped_loop ihbody)
  | break_ _ inside _ => exact inside
  | noInitializer => exact fun _ h => by cases h
  | declaring _ ih | evaluating _ ih =>
    rintro _ ⟨⟩
    exact ih
  | _ => exact trivial

end Grammar

namespace Scope

mutual

/-- Outside of functions there is no `return` where a walk finds no error. -/
theorem returnless_stmt : ∀ (s : Stmt) {w : Walk}, w.function = .none →
    (stmt s w).errors.size = 0 → Finishing.stmt True False s
  | .break_ _, _, _, _ => trivial
  | .return_ keyword none, w, hfunction, hclean => by
    rw [stmt, Walk.checkReturn, if_pos hfunction] at hclean
    exact absurd hclean (size_note _ _ _)
  | .return_ keyword (some value), w, hfunction, hclean => by
    have hwalked := (looked_checkReturnValue (w := w.checkReturn keyword) keyword).trans
      (looked_expr value _)
    have herrors := hwalked.errors
    have hnote := size_note w .returnOutsideFunction keyword
    have hend : (expr value ((w.checkReturn keyword).checkReturnValue keyword)).errors.size = 0 :=
      hclean
    rw [Walk.checkReturn, if_pos hfunction] at herrors hend
    omega
  | .block body, w, hfunction, hclean =>
    returnless_stmts body (w := w.openScope) hfunction hclean
  | .ifElse condition thenBranch none, w, hfunction, hclean =>
    returnless_stmt thenBranch ((looked_expr condition w).function.trans hfunction) hclean
  | .ifElse condition thenBranch (some elseBranch), w, hfunction, hclean => by
    have hthen := walked_stmt thenBranch (expr condition w)
    have helse := walked_stmt elseBranch (stmt thenBranch (expr condition w))
    have hend : (stmt elseBranch (stmt thenBranch (expr condition w))).errors.size = 0 := hclean
    have hcondition := (looked_expr condition w).function.trans hfunction
    have herrors := helse.errors
    exact ⟨returnless_stmt thenBranch hcondition (by omega),
      returnless_stmt elseBranch (hthen.function.trans hcondition) hend⟩
  | .while_ condition body, w, hfunction, hclean =>
    returnless_stmt body ((looked_expr condition w).function.trans hfunction) hclean
  | .expression _, _, _, _ => trivial
  | .print _, _, _, _ => trivial
  | .var .., _, _, _ => trivial
  | .function .., _, _, _ => trivial
  | .class_ .., _, _, _ => trivial

theorem returnless_stmts : ∀ (ss : List Stmt) {w : Walk}, w.function = .none →
    (stmts ss w).errors.size = 0 → Finishing.stmts True False ss
  | [], _, _, _ => trivial
  | s :: ss, w, hfunction, hclean => by
    have hend : (stmts ss (stmt s w)).errors.size = 0 := hclean
    have herrors := (walked_stmts ss (stmt s w)).errors
    exact ⟨returnless_stmt s hfunction (by omega),
      returnless_stmts ss ((walked_stmt s w).function.trans hfunction) hend⟩

end

end Scope

/-- The statements of an accepted program finish normally. -/
theorem finishing_readProgram {source : String} {first : Nat}
    (h : (readProgram source first).report.hadError = false)
    (hclean : (Scope.program (readProgram source first).value).errors = #[]) :
    Finishing.stmts False False (readProgram source first).value := by
  have hstatic := (parseProgram_static first (Lexer.scan source).tokens).2
  have hlooped := (Grammar.derivesProgram_of_parseProgram (Reading.errors_of hstatic h)).looped
  have hbreaks : Finishing.stmts (Grammar.Place.top.inLoop = true) True
    (readProgram source first).value := hlooped
  rw [show (Grammar.Place.top.inLoop = true) = False from eq_false Bool.false_ne_true] at hbreaks
  refine Finishing.stmts_both _ hbreaks (Scope.returnless_stmts _ (w := .start) rfl ?_)
  exact congrArg Array.size hclean

end Lox
