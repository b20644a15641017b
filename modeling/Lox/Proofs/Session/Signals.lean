import Lox.Proofs.Session.Flows
import Lox.Proofs.Session.Rejection
import Lox.Proofs.Session.Traced
import Lox.Proofs.Trace.Settling

/-! # Signals never leak

The parser refuses a `break` outside of loops and the walk over the scopes a
`return` outside of functions. So whatever a session runs, a `break` ends the
innermost loop that it is written in, a `return` the call of the function that it
is written in, and neither goes any further. -/

namespace Lox

/-! ## Accepted inputs are enclosed -/

namespace Enclosed

mutual

/-- Where no `return` is outside of functions, none is needed to be. -/
theorem stmt_both : ∀ (s : Stmt) {breaks returns : Prop}, stmt breaks True s →
    Finishing.stmt True returns s → stmt breaks returns s
  | .break_ _, _, _, h, _ => h
  | .return_ _ none, _, _, _, h' => h'
  | .return_ _ (some _), _, _, h, h' => ⟨h', h.2⟩
  | .block body, _, _, h, h' => stmts_both body h h'
  | .ifElse _ thenBranch none, _, _, h, h' => ⟨h.1, stmt_both thenBranch h.2 h'⟩
  | .ifElse _ thenBranch (some elseBranch), _, _, h, h' =>
    ⟨h.1, stmt_both thenBranch h.2.1 h'.1, stmt_both elseBranch h.2.2 h'.2⟩
  | .while_ _ body, _, _, h, h' => ⟨h.1, stmt_both body h.2 h'⟩
  | .expression _, _, _, h, _ => h
  | .print _, _, _, h, _ => h
  | .var _ none, _, _, _, _ => trivial
  | .var _ (some _), _, _, h, _ => h
  | .function .., _, _, h, _ => h
  | .class_ .., _, _, h, _ => h

theorem stmts_both : ∀ (ss : List Stmt) {breaks returns : Prop}, stmts breaks True ss →
    Finishing.stmts True returns ss → stmts breaks returns ss
  | [], _, _, _, _ => trivial
  | s :: ss, _, _, h, h' => ⟨stmt_both s h.1 h'.1, stmts_both ss h.2 h'.2⟩

end

end Enclosed

variable {source : String} {first : Nat}

theorem enclosed_readProgram (h : (readProgram source first).report.hadError = false)
    (hclean : (Scope.program (readProgram source first).value).errors = #[]) :
    Enclosed.stmts False False (readProgram source first).value := by
  have hstatic := (parseProgram_static first (Lexer.scan source).tokens).2
  have hbreaks : Enclosed.stmts (Grammar.Place.top.inLoop = true) True
      (readProgram source first).value :=
    (Grammar.derivesProgram_of_parseProgram (Reading.errors_of hstatic h)).enclosed
  rw [show (Grammar.Place.top.inLoop = true) = False from eq_false Bool.false_ne_true] at hbreaks
  exact Enclosed.stmts_both _ hbreaks
    (Scope.returnless_stmts _ (w := .start) rfl (congrArg Array.size hclean))

theorem enclosed_readExpression (h : (readExpression source first).report.hadError = false)
    {e : Expr} (he : (readExpression source first).value = some e) : Enclosed.expr e :=
  have hstatic := (parseExpression_static first (Lexer.scan source).tokens).2
  (Grammar.derives_of_parseExpression he (Reading.errors_of hstatic h)).enclosed

namespace Trace

theorem Keeps.map {α β : Type} {w : Traced α} (h : Keeps w) (f : α → β) : Keeps (f <$> w) := by
  rw [map_eq_pure_bind]
  exact h.bind fun a => keeps_pure (f a)

/-- Doing what an accepted input asks for leaves no signal. -/
theorem keeps_task {fuel : Nat} {input : Input} {walk : Scope.Walk}
    (hwalk : (input.draft fuel first).walk = some walk)
    (hread : (input.draft fuel first).report.hadError = false) (hclean : walk.errors = #[]) :
    Keeps (task fuel input first) := by
  cases input with
  | program source =>
    obtain rfl := Option.some.inj hwalk
    exact (keeps_execute fuel (enclosed_readProgram hread hclean)).map _
  | expression source =>
    unfold task
    dsimp only
    cases he : (readExpression source first).value with
    | none => exact keeps_lift Run.makes_exhaust
    | some e => exact ((settlesWithin fuel).expr (enclosed_readExpression hread he)).attempt.map _

end Trace

/-! ## Sessions -/

namespace Session

open Trace

variable {s s' : Session}

/-- The functions that a session holds have enclosed bodies. -/
def Closed (s : Session) : Prop := s.machine.heap.Made Enclosed.lambda

/-- What is done for an input leaves a trace that is right, and a session that holds such functions
again. -/
theorem Closed.traced (hs : s.Closed) (fuel : Nat) (input : Input) :
    Right (s.traced fuel input).2 ∧
      ∀ a s', (s.traced fuel input).1 = some (a, s') → s'.Closed := by
  have hfair := draft_fair fuel s.nextId input
  unfold Session.traced
  dsimp only
  cases hwalk : (input.draft fuel s.nextId).walk with
  | none =>
    refine ⟨right_empty, fun a s' h => ?_⟩
    obtain ⟨-, rfl⟩ := Prod.mk.inj (Option.some.inj h)
    exact hs
  | some walk =>
    dsimp only
    by_cases hread : (input.draft fuel s.nextId).report.hadError = true
    · rw [if_pos hread]
      refine ⟨right_empty, fun a s' h => ?_⟩
      obtain ⟨-, rfl⟩ := Prod.mk.inj (Option.some.inj h)
      exact hs
    rw [if_neg hread]
    by_cases hscope : ((input.draft fuel s.nextId).report.addAll walk.errors).hadError = true
    · rw [if_pos hscope]
      refine ⟨right_empty, fun a s' h => ?_⟩
      obtain ⟨-, rfl⟩ := Prod.mk.inj (Option.some.inj h)
      exact hs
    rw [if_neg hscope]
    have hclean := (Report.clean_of_addAll (hfair.static walk hwalk) (Bool.not_eq_true _ ▸ hscope)).2
    have hkeeps := keeps_task hwalk (Bool.not_eq_true _ ▸ hread) hclean
    have hends := hkeeps.ends ⟨recording s.machine walk, #[]⟩ ⟨hs, right_empty⟩
    cases hr : task fuel input s.nextId ⟨recording s.machine walk, #[]⟩ with
    | ok a t =>
      have hsound := (hends.of_ok hr).sound
      refine ⟨hsound.right, fun a s' h => ?_⟩
      obtain ⟨-, rfl⟩ := Prod.mk.inj (Option.some.inj h)
      exact hsound.made
    | error stop t => exact ⟨(hends.of_error hr).sound.right, fun a s' h => nomatch h⟩

theorem closed_withNatives (natives : List Native) (hs : s.Closed) :
    (s.withNatives natives).Closed := by
  unfold withNatives
  induction natives generalizing s with
  | nil => exact hs
  | cons n rest ih => exact ih (s := s.defineNative n) hs

theorem closed_start (sink : Sink) (reading : Nat → Float) : (start sink reading).Closed := by
  intro f hf
  exact absurd hf (Array.not_mem_empty f)

/-- **Signals never leak.** A session with any functions of the host has taken any inputs, and takes
one more. In the trace of what is done for it, whether or not that comes to an end, every entry is
right: no statement of a program finishes with a signal, the body of a call finishes normally or with
a `return` that stands in it, and each `break` and each `return` is taken up right behind the entry
that raised it, by the innermost loop around it in the same call, or by the call whose body it
stands in. What is traced is what the session does. -/
theorem signals_never_leak {sink : Sink} {reading : Nat → Float} {natives : List Native}
    {inputs : List (Nat × Input)} {as : List Answer}
    (hreached : answers inputs ((start sink reading).withNatives natives) = some (as, s))
    (fuel : Nat) (input : Input) :
    Right (s.traced fuel input).2 ∧ (s.traced fuel input).1 = s.answer fuel input := by
  have hstart := closed_withNatives natives (closed_start sink reading)
  have hclosed : s.Closed := by
    refine answers_induction (fun fuel input s a s' h hs => ?_) inputs hreached hstart
    exact (hs.traced fuel input).2 a s' ((traced_answer fuel input s).trans h)
  exact ⟨(hclosed.traced fuel input).1, traced_answer fuel input s⟩

theorem signals_never_leak_nested :
    let first := "fun f(stop) { while (true) { while (true) break; if (stop) break; return stop; } }"
    let second := "f(true); f(nil);"
    ∃ as s, answers [(30, .program first)] ((start .reliable fun _ => 0).withNatives []) =
        some (as, s) ∧
      ((s.traced 30 (.program second)).2.filter fun entry => entry matches .raise ..).size = 4 ∧
      Right (s.traced 30 (.program second)).2 ∧
      (s.traced 30 (.program second)).1 = s.answer 30 (.program second) := by
  intro first second
  have hruns : (answers [(30, .program first)] ((start .reliable fun _ => 0).withNatives [])).map
      (fun reached => ((reached.2.traced 30 (.program second)).2.filter fun entry =>
        entry matches .raise ..).size) = some 4 := by
    decide +kernel
  obtain ⟨⟨as, s⟩, hreached, hraised⟩ := Option.map_eq_some_iff.mp hruns
  exact ⟨as, s, hreached, hraised, signals_never_leak hreached 30 (.program second)⟩

end Session
end Lox
