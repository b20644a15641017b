import Lox.Proofs.Diagnostic.Distinct
import Lox.Session

/-! # The inputs of a session

A session takes inputs of two kinds, programs and single expressions, and gives
an answer to each. A run of a session is the list of its inputs, each with the
bound on steps that it is given. -/

namespace Lox

/-- What a session can be given. -/
inductive Input where
  | program (source : String)
  | expression (source : String)
deriving Repr, DecidableEq

/-- What a session answers. -/
inductive Answer where
  /-- To a program: what is wrong with it. -/
  | report (told : Report)
  /-- To an expression: its value, or what is wrong with it. -/
  | result (result : Except Report Value)

/-- What an answer tells to be wrong. -/
def Answer.faults : Answer → Report
  | .report told => told
  | .result (.error told) => told
  | .result (.ok _) => .empty

namespace Session

/-- A session after some functions of the host have been made known to it. -/
def withNatives (natives : List Native) (s : Session) : Session := natives.foldl defineNative s

/-- The answer to an input, and the session after it. -/
def answer (fuel : Nat) : Input → Session → Option (Answer × Session)
  | .program source, s => (s.run fuel source).map fun (report, s) => (.report report, s)
  | .expression source, s => (s.evaluate fuel source).map fun (result, s) => (.result result, s)

/-- The answers to inputs in order, and the session after them. -/
def answers : List (Nat × Input) → Session → Option (List Answer × Session)
  | [], s => some ([], s)
  | (fuel, input) :: rest, s =>
    (s.answer fuel input).bind fun (first, s) =>
      (answers rest s).map fun (more, s) => (first :: more, s)

/-- What every answer keeps, every run keeps. -/
theorem answers_induction {P : Session → Prop}
    (step : ∀ fuel input s a s', answer fuel input s = some (a, s') → P s → P s')
    (inputs : List (Nat × Input)) {s s' : Session} {as : List Answer}
    (h : answers inputs s = some (as, s')) (hs : P s) : P s' := by
  induction inputs generalizing s as with
  | nil =>
    obtain ⟨-, rfl⟩ := Prod.mk.inj (Option.some.inj h)
    exact hs
  | cons head rest ih =>
    obtain ⟨fuel, input⟩ := head
    obtain ⟨⟨a, t⟩, ha, h⟩ := Option.bind_eq_some_iff.mp h
    obtain ⟨⟨more, u⟩, hrest, he⟩ := Option.map_eq_some_iff.mp h
    obtain ⟨-, rfl⟩ := Prod.mk.inj he
    exact ih hrest (step _ _ _ _ _ ha hs)

end Session

/-! ## Inputs that have been read

Programs and single expressions go through a session in the same way: they are
read, walked, and executed, unless something is wrong with them. A draft is an
input that has been read but not yet judged. -/

namespace Report

variable {r : Report} {ds : Array Diagnostic}

theorem addAll_static (h : ∀ d ∈ ds, d.isStatic = true) :
    r.addAll ds = { r with static := r.static ++ ds } := by
  have hstatic : told ds = ds.toList := by
    simpa [told] using h
  have hruntime : ds.toList.filter (fun d => !d.isStatic) = [] := by
    simpa using h
  rw [addAll_eq, hstatic, hruntime]
  simp

theorem runtime_addAll (h : ∀ d ∈ ds, d.isStatic = true) : (r.addAll ds).runtime = r.runtime := by
  rw [addAll_static h]

/-- A report without errors of the text was made of nothing but such reports. -/
theorem clean_of_addAll (h : ∀ d ∈ ds, d.isStatic = true) (hclean : (r.addAll ds).hadError = false) :
    r.hadError = false ∧ ds = #[] := by
  rw [addAll_static h] at hclean
  simpa [hadError] using hclean

theorem hadError_add {d : Diagnostic} (h : d.isStatic = false) : (r.add d).hadError = r.hadError := by
  unfold add
  rw [h]
  rfl

end Report

/-- An input that has been read. -/
structure Draft where
  /-- What is wrong with the text. -/
  report : Report
  /-- The number of the next node. -/
  nextId : Nat
  /-- The walk over what was read, if anything was. -/
  walk : Option Scope.Walk
  /-- The answer that tells only what is wrong. -/
  refuse : Report → Answer
  /-- What is done if nothing is wrong. -/
  task : Run Answer

/-- The answer to a program that has been executed. -/
def Answer.executed (report : Report) (outcome : Option Diagnostic) : Answer :=
  .report (outcome.elim report report.add)

/-- The answer to an expression that has been evaluated. -/
def Answer.evaluated (report : Report) : Except Diagnostic Value → Answer
  | .ok value => .result (.ok value)
  | .error diagnostic => .result (.error (report.add diagnostic))

/-- Reads a program. -/
def Draft.program (fuel : Nat) (source : String) (first : Nat) : Draft :=
  let reading := readProgram source first
  let walk := Scope.program reading.value
  { report := reading.report
    nextId := reading.nextId
    walk := some walk
    refuse := .report
    task := Answer.executed (reading.report.addAll walk.errors) <$>
      Session.execute fuel reading.value }

/-- Reads an expression. -/
def Draft.expression (fuel : Nat) (source : String) (first : Nat) : Draft :=
  let reading := readExpression source first
  { report := reading.report
    nextId := reading.nextId
    walk := reading.value.map Scope.wholeExpression
    refuse := fun told => .result (.error told)
    task := match reading.value with
      | none => Run.exhaust
      | some e => Answer.evaluated (reading.report.addAll (Scope.wholeExpression e).errors) <$>
        Run.attempt (Eval.expr fuel e) }

/-- Reads an input. -/
def Input.draft (fuel : Nat) : Input → Nat → Draft
  | .program source => Draft.program fuel source
  | .expression source => Draft.expression fuel source

namespace Session

/-- A program that is not echoed is executed one statement after the other. -/
theorem execute_statements (fuel : Nat) {ss : List Stmt} (h : ∀ e, ss ≠ [.expression e]) :
    execute fuel ss = Eval.program fuel #[] ss >>= fun c => pure c.error := by
  rw [execute.eq_def]
  split
  · next e => exact absurd rfl (h e)
  · rfl

/-- Judges what was read, and does it if nothing is wrong. -/
def settle (d : Draft) (s : Session) : Option (Answer × Session) :=
  match d.walk with
  | none => some (d.refuse d.report, { s with nextId := d.nextId })
  | some walk =>
    if d.report.hadError then some (d.refuse d.report, { s with nextId := d.nextId })
    else
      let recorded := recording s.machine walk
      let report := d.report.addAll walk.errors
      if report.hadError then
        some (d.refuse report, forgetFrom ⟨recorded, d.nextId⟩ s.nextId)
      else
        match d.task recorded with
        | .ok a machine => some (a, ⟨machine, d.nextId⟩)
        | .error _ _ => none

theorem run_eq_settle (fuel : Nat) (source : String) (s : Session) :
    s.answer fuel (.program source) = settle (.program fuel source s.nextId) s := by
  unfold answer run settle Draft.program
  dsimp only
  split
  · rfl
  · split
    · rfl
    · simp only [Functor.map, EStateM.map]
      cases execute fuel (readProgram source s.nextId).value
        (recording s.machine (Scope.program (readProgram source s.nextId).value)) with
      | ok outcome machine => cases outcome <;> rfl
      | error stop machine => rfl

theorem evaluate_eq_settle (fuel : Nat) (source : String) (s : Session) :
    s.answer fuel (.expression source) = settle (.expression fuel source s.nextId) s := by
  unfold answer evaluate settle Draft.expression
  dsimp only
  cases (readExpression source s.nextId).value with
  | none => rfl
  | some e =>
    dsimp only [Option.map_some]
    split
    · rfl
    · split
      · rfl
      · simp only [Functor.map, EStateM.map]
        cases Run.attempt (Eval.expr fuel e)
          (recording s.machine (Scope.wholeExpression e)) with
        | ok outcome machine => cases outcome <;> rfl
        | error stop machine => rfl

/-- Every input goes through a session in the same way. -/
theorem answer_eq_settle (fuel : Nat) (input : Input) (s : Session) :
    s.answer fuel input = settle (input.draft fuel s.nextId) s := by
  cases input with
  | program source => exact run_eq_settle fuel source s
  | expression source => exact evaluate_eq_settle fuel source s

end Session
end Lox
