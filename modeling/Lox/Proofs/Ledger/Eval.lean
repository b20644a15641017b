import Lox.Eval.Basic
import Lox.Proofs.Outcome
import Lox.Proofs.Session.Inputs

/-! # Keeping a ledger

Along with an evaluation a ledger is kept: of the machines that the evaluation
passes through, and of the fields that it sets. Every step of evaluation and every
Set expression begins at a moment, and a field is booked as soon as it has been set.

Nothing of a ledger is read back by evaluation. -/

namespace Lox.Ledger

/-- What is booked. -/
inductive Entry where
  /-- A step begins on a machine. -/
  | moment (m : Machine)
  /-- A Set expression has given a field of an instance a value. -/
  | set (i : InstanceId) (name : String) (value : Value)

/-- The value that a field was set to last. -/
def lastSet (i : InstanceId) (name : String) : List Entry → Option Value
  | [] => none
  | .moment _ :: entries => lastSet i name entries
  | .set j other value :: entries =>
    (lastSet i name entries).or (if j = i ∧ other = name then some value else none)

/-- What is known of an evaluation along with which a ledger is kept. -/
structure Book where
  machine : Machine
  /-- What has been booked, in order. -/
  entries : List Entry

/-- A computation along with which a ledger is kept. -/
abbrev Booked := EStateM Stop Book

/-- Books an entry. -/
def book (entry : Entry) : Booked Unit := fun t =>
  .ok () { t with entries := t.entries ++ [entry] }

/-- Books the present moment. -/
def mark : Booked Unit := fun t => .ok () { t with entries := t.entries ++ [.moment t.machine] }

/-- Lets a step run as it is, and books the moment at which it begins. -/
def lift {α : Type} (run : Run α) : Booked α := fun t =>
  let entries := t.entries ++ [.moment t.machine]
  match run t.machine with
  | .ok a machine => .ok a { machine, entries }
  | .error stop machine => .error stop { machine, entries }

/-- Runs a computation in another frame, and comes back whatever happens. -/
def within {α : Type} (frame : FrameId) (run : Booked α) : Booked α := fun t =>
  let outside := t.machine.current
  match run { t with machine := { t.machine with current := frame } } with
  | .ok a t => .ok a { t with machine := { t.machine with current := outside } }
  | .error stop t => .error stop { t with machine := { t.machine with current := outside } }

/-- Runs a computation as an active call, which ends whatever happens. -/
def asCall {α : Type} (run : Booked α) : Booked α := fun t =>
  let outside := t.machine.callDepth
  match run { t with machine := { t.machine with callDepth := outside + 1 } } with
  | .ok a t => .ok a { t with machine := { t.machine with callDepth := outside } }
  | .error stop t => .error stop { t with machine := { t.machine with callDepth := outside } }

/-- Turns an error into a result. Only the bound on steps still stops the computation. -/
def attempt {α : Type} (run : Booked α) : Booked (Except Diagnostic α) := fun t =>
  match run t with
  | .ok a t => .ok (.ok a) t
  | .error (.failed diagnostic) t => .ok (.error diagnostic) t
  | .error .outOfFuel t => .error .outOfFuel t

/-- Gives a field of an instance a value. -/
def setField (i : InstanceId) (name : String) (value : Value) : Booked Unit := do
  lift (Run.onHeap fun h => ((), h.setField i name value))
  book (.set i name value)

/-! ## What the steps end in -/

section

variable {α : Type} {t : Book} {ok : α → Book → Prop} {stopped : Stop → Book → Prop}

theorem ends_lift {r : Run α} :
    Ends (lift r) t ok stopped ↔
      Ends r t.machine
        (fun a machine => ok a { machine, entries := t.entries ++ [.moment t.machine] })
        fun stop machine => stopped stop { machine, entries := t.entries ++ [.moment t.machine] } := by
  unfold Ends lift
  dsimp only
  cases r t.machine <;> rfl

theorem ends_within {frame : FrameId} {w : Booked α} :
    Ends (within frame w) t ok stopped ↔
      Ends w { t with machine := { t.machine with current := frame } }
        (fun a u => ok a { u with machine := { u.machine with current := t.machine.current } })
        fun stop u =>
          stopped stop { u with machine := { u.machine with current := t.machine.current } } := by
  unfold Ends within
  dsimp only
  cases w { t with machine := { t.machine with current := frame } } <;> rfl

theorem ends_asCall {w : Booked α} :
    Ends (asCall w) t ok stopped ↔
      Ends w { t with machine := { t.machine with callDepth := t.machine.callDepth + 1 } }
        (fun a u => ok a { u with machine := { u.machine with callDepth := t.machine.callDepth } })
        fun stop u => stopped stop
          { u with machine := { u.machine with callDepth := t.machine.callDepth } } := by
  unfold Ends asCall
  dsimp only
  cases w { t with machine := { t.machine with callDepth := t.machine.callDepth + 1 } } <;> rfl

theorem ends_attempt {w : Booked α} {ok : Except Diagnostic α → Book → Prop} :
    Ends (attempt w) t ok stopped ↔
      Ends w t (fun a u => ok (.ok a) u) fun stop u => match stop with
        | .failed d => ok (.error d) u
        | .outOfFuel => stopped .outOfFuel u := by
  unfold Ends attempt
  cases w t with
  | ok a u => rfl
  | error stop u => cases stop <;> rfl

end

/-! ## Evaluation

The rules of evaluation once more. What a rule does without calling others it does
as before, except that a Set expression books when it begins and what it has set. -/

mutual

/-- Evaluates an expression. -/
def expr : Nat → Expr → Booked Value
  | 0, _ => lift Run.exhaust
  | fuel + 1, e =>
    match e with
    | .literal value _ => pure value.value
    | .grouping inner _ => expr fuel inner
    | .unary op opSpan operand => do
      let v ← expr fuel operand
      lift (Run.orFail (op.apply v) opSpan)
    | .binary left op opSpan right => do
      let a ← expr fuel left
      let b ← expr fuel right
      lift (Run.orFail (op.apply a b) opSpan)
    | .logical left op _ right => do
      let a ← expr fuel left
      if op.settledBy a then pure a else expr fuel right
    | .var target => lift (Eval.readVariable target.id target.name.text target.name.span)
    | .assign target value => do
      let v ← expr fuel value
      lift (Eval.writeVariable target v)
      pure v
    | .call callee paren arguments => do
      let f ← expr fuel callee
      let args ← exprs fuel arguments
      lift (Eval.checkCall f args.length paren)
      asCall (call fuel f args paren)
    | .get object name => do
      let o ← expr fuel object
      lift (Eval.property o name)
    | .set object name value => do
      mark
      let o ← expr fuel object
      let i ← lift (Eval.fieldOwner o name)
      let v ← expr fuel value
      setField i name.text v
      pure v
    | .this id span => lift (Eval.readVariable id "this" span)
    | .super id keyword method => lift (Eval.superMethod id keyword method)
    | .lambda fn => lift (Eval.closure none fn)

/-- Evaluates expressions in order. -/
def exprs : Nat → List Expr → Booked (List Value)
  | 0, _ => lift Run.exhaust
  | _ + 1, [] => pure []
  | fuel + 1, e :: es => do
    let v ← expr fuel e
    let vs ← exprs fuel es
    pure (v :: vs)

/-- Runs what is called. -/
def call : Nat → Value → List Value → Span → Booked Value
  | 0, _, _, _ => lift Run.exhaust
  | fuel + 1, callee, args, paren =>
    match callee with
    | .native n => lift (Run.callNative n args paren)
    | .function f => do
      let object? ← lift (Run.ask fun m => m.heap.function? f)
      let object ← lift (Run.orElseFail object? .notCallable paren)
      callFunction fuel object args
    | .class_ c => construct fuel c args
    | _ => lift (Run.fail .notCallable paren)

/-- Makes an instance, and runs the initializer on it if there is one. -/
def construct : Nat → ClassId → List Value → Booked Value
  | 0, _, _ => lift Run.exhaust
  | fuel + 1, c, args => do
    let i ← lift (Run.onHeap (·.newInstance c))
    match ← lift (Run.ask fun m =>
        (m.heap.findMethod? c initializerName).bind m.heap.function?) with
    | none => pure (.instance_ i)
    | some method =>
      let bound ← lift (Run.onHeap (·.bind method i))
      let _ ← callFunction fuel bound args
      pure (.instance_ i)

/-- Runs the body of a function in a new frame inside the one it closes over. -/
def callFunction : Nat → FunctionObject → List Value → Booked Value
  | 0, _, _ => lift Run.exhaust
  | fuel + 1, f, args => do
    let frame ← lift (Run.onHeap
      (·.newFrame (some f.closure) (Eval.bindParams f.fn.params args)))
    let flow ← within frame (stmts fuel f.fn.body)
    lift (Eval.callResult f flow)

/-- Executes a statement. -/
def stmt : Nat → Stmt → Booked Flow
  | 0, _ => lift Run.exhaust
  | fuel + 1, s =>
    match s with
    | .expression value => do
      let _ ← expr fuel value
      pure .normal
    | .print value => do
      let v ← expr fuel value
      lift (do Run.writeLine (← Run.ask fun m => m.heap.describe v))
      pure .normal
    | .var name none => do
      lift (Run.define name.text .nil)
      pure .normal
    | .var name (some initializer) => do
      let v ← expr fuel initializer
      lift (Run.define name.text v)
      pure .normal
    | .block body => do
      let outer ← lift (Run.ask (·.current))
      let frame ← lift (Run.onHeap (·.newFrame (some outer) .empty))
      within frame (stmts fuel body)
    | .ifElse condition thenBranch elseBranch => do
      let v ← expr fuel condition
      if v.truthy then stmt fuel thenBranch
      else
        match elseBranch with
        | some branch => stmt fuel branch
        | none => pure .normal
    | .while_ condition body => do
      let v ← expr fuel condition
      if v.truthy then
        match ← stmt fuel body with
        | .normal => stmt fuel (.while_ condition body)
        | .break_ => pure .normal
        | .return_ value => pure (.return_ value)
      else pure .normal
    | .break_ _ => pure .break_
    | .return_ _ none => pure (.return_ .nil)
    | .return_ _ (some value) => do
      let v ← expr fuel value
      pure (.return_ v)
    | .function name fn => do
      let v ← lift (Eval.closure (some name.text) fn)
      lift (Run.define name.text v)
      pure .normal
    | .class_ name superclass methods => do
      lift (Eval.declareClass name superclass methods)
      pure .normal

/-- Executes statements in order, until one does not finish normally. -/
def stmts : Nat → List Stmt → Booked Flow
  | 0, _ => lift Run.exhaust
  | _ + 1, [] => pure .normal
  | fuel + 1, s :: rest => do
    match ← stmt fuel s with
    | .normal => stmts fuel rest
    | flow => pure flow

end

/-! ## Inputs -/

/-- Executes the statements of a program. -/
def program (fuel : Nat) (flows : Array Flow) : List Stmt → Booked Eval.Completion
  | [] => pure ⟨flows, none⟩
  | s :: rest => do
    match ← attempt (stmt fuel s) with
    | .ok flow => program fuel (flows.push flow) rest
    | .error diagnostic => pure ⟨flows, some diagnostic⟩

/-- Writes the value of an expression. -/
def echo (fuel : Nat) (e : Expr) : Booked Unit := do
  let v ← expr fuel e
  lift (do Run.writeLine (← Run.ask fun m => m.heap.describe v))

/-- Executes a program that has been accepted. -/
def execute (fuel : Nat) (statements : List Stmt) : Booked (Option Diagnostic) :=
  match statements with
  | [.expression e] => do
    match ← attempt (echo fuel e) with
    | .ok _ => pure none
    | .error diagnostic => pure (some diagnostic)
  | statements => do
    let completion ← program fuel #[] statements
    pure completion.error

/-- What is done with an input if nothing is wrong. -/
def task (fuel : Nat) : Input → Nat → Booked Answer
  | .program source, first =>
    let reading := readProgram source first
    Answer.executed (reading.report.addAll (Scope.program reading.value).errors) <$>
      execute fuel reading.value
  | .expression source, first =>
    let reading := readExpression source first
    match reading.value with
    | none => lift Run.exhaust
    | some e => Answer.evaluated (reading.report.addAll (Scope.wholeExpression e).errors) <$>
      attempt (expr fuel e)

end Lox.Ledger
