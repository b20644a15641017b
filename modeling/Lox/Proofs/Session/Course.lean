import Lox.Proofs.Session.Balance
import Lox.Proofs.Session.Inputs

/-! # The course of a session

A session is watched from input to input. What is known about the functions
that an input has made is there when a later input calls them, and the points
that have been passed stand in the order of the whole session, whether or not
the last input came to an end. -/

namespace Lox

namespace Watch

/-- Turns an error into a result. Only the bound on steps still stops the computation. -/
def attempt {α : Type} (w : Watched α) : Watched (Except Diagnostic α) := fun t =>
  match w t with
  | .ok a t => .ok (.ok a) t
  | .error (.failed diagnostic) t => .ok (.error diagnostic) t
  | .error .outOfFuel t => .error .outOfFuel t

theorem ends_attempt {α : Type} {w : Watched α} {t : Record} {ok : Except Diagnostic α → Record → Prop}
    {stopped : Stop → Record → Prop} :
    Ends (attempt w) t ok stopped ↔
      Ends w t (fun a u => ok (.ok a) u) fun stop u => match stop with
        | .failed d => ok (.error d) u
        | .outOfFuel => stopped .outOfFuel u := by
  unfold Ends attempt
  cases w t with
  | ok a u => rfl
  | error stop u => cases stop <;> rfl

/-- Executes the statements of a program. Their names are global ones, which no scope declares. -/
def program (fuel : Nat) (flows : Array Flow) : List Stmt → Watched Eval.Completion
  | [] => pure ⟨flows, none⟩
  | s :: rest => do
    match ← attempt (stmt fuel .outermost s) with
    | .ok flow => program fuel (flows.push flow) rest
    | .error diagnostic => pure ⟨flows, some diagnostic⟩

/-- Writes the value of an expression. -/
def echo (fuel : Nat) (e : Expr) : Watched Unit := do
  let v ← expr fuel .outermost e
  lift (Run.writeLine (← lift (Run.ask fun m => m.heap.describe v)))

/-- Executes a program that has been accepted. -/
def execute (fuel : Nat) (statements : List Stmt) : Watched (Option Diagnostic) :=
  match statements with
  | [.expression e] => do
    match ← attempt (echo fuel e) with
    | .ok _ => pure none
    | .error diagnostic => pure (some diagnostic)
  | statements => do
    let completion ← program fuel #[] statements
    pure completion.error

/-- What is done with an input if nothing is wrong. -/
def task (fuel : Nat) : Input → Nat → Watched Answer
  | .program source, first =>
    let reading := readProgram source first
    Answer.executed (reading.report.addAll (Scope.program reading.value).errors) <$>
      execute fuel reading.value
  | .expression source, first =>
    let reading := readExpression source first
    match reading.value with
    | none => lift Run.exhaust
    | some e => Answer.evaluated (reading.report.addAll (Scope.wholeExpression e).errors) <$>
      attempt (expr fuel .outermost e)

/-- A session that is being watched. -/
structure Course where
  record : Record
  nextId : Nat

namespace Course

/-- A session of which nothing has been written down yet. -/
def start (s : Session) : Course := ⟨.start s.machine, s.nextId⟩

/-- The session itself. -/
def session (c : Course) : Session := ⟨c.record.machine, c.nextId⟩

/-- The course in which the session has become another one. -/
def become (c : Course) (s : Session) : Course := ⟨{ c.record with machine := s.machine }, s.nextId⟩

/-- Goes on with an input. There is no answer when it does not end within `fuel` steps. -/
def take (fuel : Nat) (input : Input) (c : Course) : Option Answer × Course :=
  let d := input.draft fuel c.nextId
  match d.walk with
  | none => (some (d.refuse d.report), c.become { c.session with nextId := d.nextId })
  | some walk =>
    if d.report.hadError then
      (some (d.refuse d.report), c.become { c.session with nextId := d.nextId })
    else
      let recorded := Session.recording c.record.machine walk
      let report := d.report.addAll walk.errors
      if report.hadError then
        (some (d.refuse report), c.become (Session.forgetFrom ⟨recorded, d.nextId⟩ c.nextId))
      else
        match task fuel input c.nextId { c.record with machine := recorded } with
        | .ok a t => (some a, ⟨t, d.nextId⟩)
        | .error _ t => (none, ⟨t, d.nextId⟩)

/-- Goes on with inputs in order, until there is no answer to one. -/
def takeAll : List (Nat × Input) → Course → Option (List Answer) × Course
  | [], c => (some [], c)
  | (fuel, input) :: rest, c =>
    match c.take fuel input with
    | (some a, c) => ((takeAll rest c).1.map (a :: ·), (takeAll rest c).2)
    | (none, c) => (none, c)

end Course

/-! ## Watching changes nothing -/

variable {α β : Type}

theorem Erases.attempt {w : Watched α} {r : Run α} (h : Erases w r) :
    Erases (attempt w) (Run.attempt r) := by
  constructor
  intro t
  have ht := h.eq t
  unfold Watch.attempt Run.attempt
  rw [← ht]
  cases w t with
  | ok a u => rfl
  | error stop u => cases stop <;> rfl

theorem Erases.map {w : Watched α} {r : Run α} (h : Erases w r) (f : α → β) :
    Erases (f <$> w) (f <$> r) := by
  rw [map_eq_pure_bind, map_eq_pure_bind]
  exact h.bind fun a => erases_pure (f a)

theorem erases_program (fuel : Nat) (ss : List Stmt) (flows : Array Flow) :
    Erases (program fuel flows ss) (Eval.program fuel flows ss) := by
  induction ss generalizing flows with
  | nil => exact erases_pure _
  | cons s rest ih =>
    refine ((erasesWithin fuel).stmt .outermost s).attempt.bind fun outcome => ?_
    cases outcome with
    | ok flow => exact ih (flows.push flow)
    | error diagnostic => exact erases_pure _

theorem erases_echo (fuel : Nat) (e : Expr) : Erases (echo fuel e) (Session.echo fuel e) :=
  ((erasesWithin fuel).expr .outermost e).bind fun _ =>
    (erases_lift _).bind fun _ => erases_lift _

theorem erases_execute (fuel : Nat) (ss : List Stmt) :
    Erases (execute fuel ss) (Session.execute fuel ss) := by
  have hstatements := (erases_program fuel ss #[]).bind fun completion =>
    erases_pure completion.error
  rcases ss with _ | ⟨s, _ | ⟨s', rest⟩⟩
  · exact hstatements
  · cases s with
    | expression e =>
      refine (erases_echo fuel e).attempt.bind fun outcome => ?_
      cases outcome with
      | ok _ => exact erases_pure _
      | error diagnostic => exact erases_pure _
    | _ => exact hstatements
  · cases s <;> exact hstatements

theorem erases_task (fuel : Nat) (input : Input) (first : Nat) :
    Erases (task fuel input first) (input.draft fuel first).task := by
  cases input with
  | program source => exact (erases_execute fuel _).map _
  | expression source =>
    show Erases (task fuel (.expression source) first) (Draft.expression fuel source first).task
    unfold task Draft.expression
    dsimp only
    cases (readExpression source first).value with
    | none => exact erases_lift _
    | some e => exact ((erasesWithin fuel).expr .outermost e).attempt.map _

namespace Course

/-- The answer to an input is that of the session, which goes on in the same way. -/
theorem answer_eq_take (fuel : Nat) (input : Input) (c : Course) :
    c.session.answer fuel input =
      (c.take fuel input).1.map fun a => (a, (c.take fuel input).2.session) := by
  have htask := erases_task fuel input c.nextId
  rw [Session.answer_eq_settle]
  show Session.settle (input.draft fuel c.nextId) c.session = _
  unfold take
  dsimp only
  generalize input.draft fuel c.nextId = d at htask ⊢
  unfold Session.settle
  cases d.walk with
  | none => rfl
  | some walk =>
    have herases := htask.eq
      { c.record with machine := Session.recording c.record.machine walk }
    dsimp only at herases ⊢
    by_cases hread : d.report.hadError = true
    · simp only [if_pos hread]
      rfl
    simp only [if_neg hread]
    by_cases hscope : (d.report.addAll walk.errors).hadError = true
    · simp only [if_pos hscope]
      rfl
    simp only [if_neg hscope]
    have hmachine : c.session.machine = c.record.machine := rfl
    rw [hmachine, ← herases]
    cases task fuel input c.nextId
      { c.record with machine := Session.recording c.record.machine walk } <;> rfl

theorem answers_eq_takeAll (inputs : List (Nat × Input)) (c : Course) :
    Session.answers inputs c.session =
      (c.takeAll inputs).1.map fun as => (as, (c.takeAll inputs).2.session) := by
  induction inputs generalizing c with
  | nil => rfl
  | cons head rest ih =>
    obtain ⟨fuel, input⟩ := head
    rw [Session.answers, answer_eq_take, takeAll]
    cases c.take fuel input with
    | mk a? c' =>
      cases a? with
      | none => rfl
      | some a =>
        dsimp only [Option.map_some, Option.bind_some]
        rw [ih c']
        cases (c'.takeAll rest).1 <;> rfl

end Course
end Watch
end Lox
