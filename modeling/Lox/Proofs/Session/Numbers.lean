import Lox.Proofs.Renumber.Eval
import Lox.Proofs.Renumber.Walk
import Lox.Proofs.Scope.Walk
import Lox.Proofs.Session.Readings

/-! # What the numbers of an input are for

An input that is read with other numbers is walked with the same findings under
the other numbers, and it is executed in the same way. -/

namespace Lox

open Run

variable {ρ : Nat → Nat} {R R' : Resolutions}

/-! ## Execution -/

namespace Run

variable {α β : Type} {fine : α → Prop} {fine' : β → Prop} {r r' : Run α}

theorem Agrees.bind {k k' : α → Run β} (h : Agrees ρ R R' fine r r')
    (hk : ∀ a, fine a → Agrees ρ R R' fine' (k a) (k' a)) :
    Agrees ρ R R' fine' (r >>= k) (r' >>= k') := by
  constructor
  intro m hm
  rw [ends_bind]
  refine (h.ends m hm).imp ?_ ?_
  · intro a t hresult
    obtain ⟨ht, hfine, hr'⟩ := hresult
    rw [bind_of_ok hr']
    exact (hk a hfine).ends t ht
  · intro stop t hstop
    exact ⟨hstop.1, bind_of_error hstop.2⟩

theorem agrees_pure {a : α} (h : fine a) : Agrees ρ R R' fine (pure a) (pure a) :=
  ⟨fun _ hm => ⟨hm, h, rfl⟩⟩

theorem Agrees.map {f : α → β} (h : Agrees ρ R R' fine r r') (hf : ∀ a, fine a → fine' (f a)) :
    Agrees ρ R R' fine' (f <$> r) (f <$> r') := by
  rw [map_eq_pure_bind, map_eq_pure_bind]
  exact h.bind fun a ha => agrees_pure (hf a ha)

end Run

namespace Session

theorem mirrors_echo (hR : ∀ id, R'.find? (ρ id) = R.find? id) (fuel : Nat) (e : Expr) :
    Mirrors ρ R R' id (echo fuel e) (echo fuel (Renumber.expr ρ e)) := by
  refine ((Eval.mirrorsWithin hR fuel).expr e).bind fun v => ?_
  refine (mirrors_ask (f := id) fun m _ => ?_).bind fun text => mirrors_writeLine text
  exact Heap.renumber_describe ρ m.heap v

/-- An outcome that tells of no error of the text. -/
def Outcome.Fine (outcome : Option Diagnostic) : Prop := ∀ d, outcome = some d → d.isStatic = false

theorem bare_of_renumber {ss : List Stmt} {e : Expr}
    (h : Renumber.stmts ρ ss = [.expression e]) : ∃ e', ss = [.expression e'] := by
  rw [Renumber.stmts_eq_map] at h
  obtain ⟨s, rfl, hs⟩ := List.map_eq_singleton_iff.mp h
  cases s with
  | expression value => exact ⟨value, rfl⟩
  | var name initializer => cases initializer <;> cases hs
  | ifElse condition thenBranch elseBranch => cases elseBranch <;> cases hs
  | return_ keyword value => cases value <;> cases hs
  | _ => cases hs

theorem agrees_execute (hR : ∀ id, R'.find? (ρ id) = R.find? id) (fuel : Nat) (ss : List Stmt) :
    Agrees ρ R R' Outcome.Fine (execute fuel ss) (execute fuel (Renumber.stmts ρ ss)) := by
  by_cases hbare : ∃ e, ss = [.expression e]
  · obtain ⟨e, rfl⟩ := hbare
    refine (mirrors_echo hR fuel e).attempt.bind fun outcome hfine => ?_
    cases outcome with
    | ok _ =>
      refine agrees_pure fun d hd => ?_
      cases hd
    | error diagnostic =>
      refine agrees_pure fun d hd => ?_
      cases hd
      exact hfine diagnostic rfl
  · have hss : ∀ e, ss ≠ [.expression e] := fun e he => hbare ⟨e, he⟩
    have hss' : ∀ e, Renumber.stmts ρ ss ≠ [.expression e] := fun e he =>
      hbare (bare_of_renumber he)
    rw [execute_statements fuel hss, execute_statements fuel hss']
    exact (Eval.agrees_program hR fuel ss #[]).bind fun c hfine => agrees_pure hfine

end Session

/-! ## Drafts -/

/-- An answer that tells of no error of the text. -/
def Answer.Fine (a : Answer) : Prop := a.faults.hadError = false

theorem Answer.executed_fine {report : Report} (h : report.hadError = false)
    {outcome : Option Diagnostic} (ho : Session.Outcome.Fine outcome) :
    (Answer.executed report outcome).Fine := by
  cases outcome with
  | none => exact h
  | some d =>
    show (report.add d).hadError = false
    rw [Report.hadError_add (ho d rfl), h]

theorem Answer.evaluated_fine {report : Report} (h : report.hadError = false)
    {outcome : Except Diagnostic Value} (ho : Run.Fine outcome) :
    (Answer.evaluated report outcome).Fine := by
  cases outcome with
  | ok value => rfl
  | error d =>
    show (report.add d).hadError = false
    rw [Report.hadError_add (ho d rfl), h]

/-- Under other numbers a draft with which nothing is wrong is done in the same way. -/
def Draft.Does (ρ : Nat → Nat) (d d' : Draft) : Prop :=
  ∀ walk, d.walk = some walk → (d.report.addAll walk.errors).hadError = false →
    ∀ R R' : Resolutions, (∀ id, R'.find? (ρ id) = R.find? id) →
      Agrees ρ R R' Answer.Fine d.task d'.task

/-- What holds of every draft that is numbered from `first` on. -/
structure Draft.Fair (first : Nat) (d : Draft) : Prop where
  nextId : first ≤ d.nextId
  runtime : d.report.runtime = #[]
  refuse : ∀ told, (d.refuse told).faults = told
  static : ∀ walk, d.walk = some walk → ∀ e ∈ walk.errors, e.isStatic = true
  found : d.report.hadError = false → ∀ walk, d.walk = some walk →
    ∀ entry ∈ walk.found, first ≤ entry.1 ∧ entry.1 < d.nextId
  does : ∀ ρ : Nat → Nat, d.report.hadError = false →
    (∀ id, first ≤ id → id < d.nextId → ρ id = id) → d.Does ρ d

/-- The second draft is the first one, numbered from `k` further on. -/
structure Draft.Ahead (ρ : Nat → Nat) (k : Nat) (d d' : Draft) : Prop where
  report : d'.report = d.report
  nextId : d'.nextId = d.nextId + k
  refuse : d'.refuse = d.refuse
  walk : d'.walk = d.walk.map (Renumber.walk ρ)
  does : d.Does ρ d'

theorem start_static : ∀ e ∈ Scope.Walk.start.errors, e.isStatic = true := by
  intro e he
  cases Array.not_mem_empty e he

/-- A walk from the start finds distances for the numbers of its tree only. -/
theorem Scope.Walked.found_mem {ids : List Nat} {walk : Scope.Walk}
    (h : Scope.Walked ids .start walk) : ∀ entry ∈ walk.found, entry.1 ∈ ids := by
  intro entry hentry
  rcases h.new entry hentry with hmem | hmem
  · cases Array.not_mem_empty entry hmem
  · exact hmem

variable (fuel : Nat) (source : String) (first : Nat)

theorem program_does (ss : List Stmt) :
    ∀ report : Report, report.hadError = false → ∀ R R' : Resolutions,
      (∀ id, R'.find? (ρ id) = R.find? id) → Agrees ρ R R' Answer.Fine
        (Answer.executed report <$> Session.execute fuel ss)
        (Answer.executed report <$> Session.execute fuel (Renumber.stmts ρ ss)) :=
  fun _ hclean _ _ hR => (Session.agrees_execute hR fuel ss).map fun _ ho =>
    Answer.executed_fine hclean ho

theorem expression_does (e : Expr) :
    ∀ report : Report, report.hadError = false → ∀ R R' : Resolutions,
      (∀ id, R'.find? (ρ id) = R.find? id) → Agrees ρ R R' Answer.Fine
        (Answer.evaluated report <$> attempt (Eval.expr fuel e))
        (Answer.evaluated report <$> attempt (Eval.expr fuel (Renumber.expr ρ e))) :=
  fun _ hclean _ _ hR => ((Eval.mirrorsWithin hR fuel).expr e).attempt.map fun _ ho =>
    Answer.evaluated_fine hclean ho

theorem program_fair : (Draft.program fuel source first).Fair first where
  nextId := readProgram_nextId source first
  runtime := readProgram_runtime source first
  refuse _ := rfl
  static walk hwalk := by
    obtain rfl := Option.some.inj hwalk
    exact (Scope.walked_stmts _ _).static start_static
  found hclean walk hwalk entry hentry := by
    obtain rfl := Option.some.inj hwalk
    have hmem := (Scope.walked_stmts _ _).found_mem entry hentry
    exact (readProgram_drawn source first hclean).bounds entry.1 hmem
  does ρ hclean hρ walk hwalk hreport R R' hR := by
    obtain rfl := Option.some.inj hwalk
    have hkeeps : Renumber.Keeps ρ (Nodes.stmts [] (readProgram source first).value) := by
      intro id hid
      have hbounds := (readProgram_drawn source first hclean).bounds id hid
      exact hρ id hbounds.1 hbounds.2
    have h := program_does fuel (readProgram source first).value _ hreport R R' hR
    rw [Renumber.stmts_eq _ hkeeps] at h
    exact h

theorem expression_fair : (Draft.expression fuel source first).Fair first where
  nextId := readExpression_nextId source first
  runtime := readExpression_runtime source first
  refuse _ := rfl
  static walk hwalk := by
    obtain ⟨e, -, rfl⟩ := Option.map_eq_some_iff.mp hwalk
    exact (Scope.looked_expr _ _).static start_static
  found hclean walk hwalk entry hentry := by
    obtain ⟨e, he, rfl⟩ := Option.map_eq_some_iff.mp hwalk
    have hmem := (Scope.looked_expr _ _).toWalked.found_mem entry hentry
    exact (readExpression_drawn source first hclean he).bounds entry.1 hmem
  does ρ hclean hρ walk hwalk hreport R R' hR := by
    obtain ⟨e, he, rfl⟩ := Option.map_eq_some_iff.mp hwalk
    have hkeeps : Renumber.Keeps ρ (Nodes.expr [] e) := by
      intro id hid
      have hbounds := (readExpression_drawn source first hclean he).bounds id hid
      exact hρ id hbounds.1 hbounds.2
    have h := expression_does fuel e _ hreport R R' hR
    rw [Renumber.expr_eq _ hkeeps] at h
    simp only [Draft.expression, he]
    exact h

theorem draft_fair (input : Input) : (input.draft fuel first).Fair first := by
  cases input with
  | program source => exact program_fair fuel source first
  | expression source => exact expression_fair fuel source first

section

variable {n k : Nat} (hρ : ∀ i, n ≤ i → ρ i = i + k) (hfirst : n ≤ first)
include hρ hfirst

theorem program_ahead :
    Draft.Ahead ρ k (.program fuel source first) (.program fuel source (first + k)) := by
  have hread := readProgram_ahead source first hρ hfirst
  unfold Draft.program
  dsimp only
  rw [hread]
  dsimp only
  rw [Renumber.walk_program]
  refine ⟨rfl, rfl, rfl, rfl, ?_⟩
  intro walk hwalk hreport R R' hR
  obtain rfl := Option.some.inj hwalk
  exact program_does fuel _ _ hreport R R' hR

theorem expression_ahead :
    Draft.Ahead ρ k (.expression fuel source first) (.expression fuel source (first + k)) := by
  have hread := readExpression_ahead source first hρ hfirst
  unfold Draft.expression
  dsimp only
  rw [hread]
  dsimp only
  cases (readExpression source first).value with
  | none => exact ⟨rfl, rfl, rfl, rfl, fun _ hwalk => nomatch hwalk⟩
  | some e =>
    dsimp only [Option.map_some]
    rw [Renumber.walk_wholeExpression]
    refine ⟨rfl, rfl, rfl, rfl, ?_⟩
    intro walk hwalk hreport R R' hR
    obtain rfl := Option.some.inj hwalk
    exact expression_does fuel e _ hreport R R' hR

theorem draft_ahead (input : Input) :
    Draft.Ahead ρ k (input.draft fuel first) (input.draft fuel (first + k)) := by
  cases input with
  | program source => exact program_ahead fuel source first hρ hfirst
  | expression source => exact expression_ahead fuel source first hρ hfirst

end

end Lox
