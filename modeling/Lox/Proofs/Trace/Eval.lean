import Lox.Eval.Basic
import Lox.Proofs.Outcome
import Lox.Session

/-! # Tracing an evaluation

A trace is the list of what an evaluation does: calls that begin and finish,
rounds of loops, signals that are raised and taken up, lines that are written.
Signals carry the place in the trace at which they were raised, so that the trace
tells which loop or call has taken up which signal.

Nothing of a trace is read back by evaluation. -/

namespace Lox.Trace

/-- Where a statement is executed. -/
structure Spot where
  /-- The entry of the call whose body it stands in. At the top there is none. -/
  call : Option Nat
  /-- The entries of the rounds of the loops around it in that body, innermost first. -/
  rounds : List Nat
deriving DecidableEq

/-- Where the statements of a program are executed. -/
def Spot.top : Spot := ⟨none, []⟩

/-- How a statement finished. A signal knows the entry of the statement that raised it. -/
inductive Signal where
  | normal
  | break_ (raised : Nat)
  | return_ (raised : Nat) (value : Value)
deriving DecidableEq

/-- The flow of a signal. -/
def Signal.flow : Signal → Flow
  | normal => .normal
  | break_ _ => .break_
  | return_ _ value => .return_ value

/-- What an evaluation does. -/
inductive Entry where
  /-- The body of a function begins to run. -/
  | call (fn : Lambda)
  /-- The body of a loop that stands at a spot begins to run once more. -/
  | round (condition : Expr) (body : Stmt) (here : Spot)
  /-- A `break` or a `return` raises its signal. -/
  | raise (s : Stmt) (here : Spot)
  /-- The loop of a round takes up a `break`, and ends. -/
  | leave (round raised : Nat)
  /-- The body of a call has finished. -/
  | finish (call : Nat) (signal : Signal)
  /-- A statement of the program has finished. -/
  | done (signal : Signal)
  /-- A line is about to be written. -/
  | write (text : String) (heap : Heap) (clock : Clock)

/-- What is known of an evaluation that is traced. -/
structure Tape where
  machine : Machine
  entries : Array Entry

/-- A traced computation. -/
abbrev Traced := EStateM Stop Tape

/-- Lets a computation run as it is. -/
def lift {α : Type} (run : Run α) : Traced α := fun t =>
  match run t.machine with
  | .ok a machine => .ok a { t with machine }
  | .error stop machine => .error stop { t with machine }

/-- Makes an entry, and tells where it stands. -/
def note (entry : Entry) : Traced Nat := fun t =>
  .ok t.entries.size { t with entries := t.entries.push entry }

/-- Runs a computation in another frame, and comes back whatever happens. -/
def within {α : Type} (frame : FrameId) (run : Traced α) : Traced α := fun t =>
  let outside := t.machine.current
  match run { t with machine := { t.machine with current := frame } } with
  | .ok a t => .ok a { t with machine := { t.machine with current := outside } }
  | .error stop t => .error stop { t with machine := { t.machine with current := outside } }

/-- Runs a computation as an active call, which ends whatever happens. -/
def asCall {α : Type} (run : Traced α) : Traced α := fun t =>
  let outside := t.machine.callDepth
  match run { t with machine := { t.machine with callDepth := outside + 1 } } with
  | .ok a t => .ok a { t with machine := { t.machine with callDepth := outside } }
  | .error stop t => .error stop { t with machine := { t.machine with callDepth := outside } }

/-- Turns an error into a result. Only the bound on steps still stops the computation. -/
def attempt {α : Type} (run : Traced α) : Traced (Except Diagnostic α) := fun t =>
  match run t with
  | .ok a t => .ok (.ok a) t
  | .error (.failed diagnostic) t => .ok (.error diagnostic) t
  | .error .outOfFuel t => .error .outOfFuel t

/-- Writes the text of a value. -/
def writeValue (v : Value) : Traced Unit := do
  let text ← lift (Run.ask fun m => m.heap.describe v)
  let entry ← lift (Run.ask fun m => Entry.write text m.heap m.clock)
  let _ ← note entry
  lift (Run.writeLine text)

/-! ## What the steps end in -/

variable {α : Type} {t : Tape} {ok : α → Tape → Prop} {stopped : Stop → Tape → Prop}

theorem ends_lift {r : Run α} :
    Ends (lift r) t ok stopped ↔
      Ends r t.machine (fun a machine => ok a { t with machine })
        fun stop machine => stopped stop { t with machine } := by
  unfold Ends lift
  cases r t.machine <;> rfl

theorem ends_ask {β : Type} {f : Machine → β} {k : β → Traced α} :
    Ends (lift (Run.ask f) >>= k) t ok stopped ↔ Ends (k (f t.machine)) t ok stopped := Iff.rfl

theorem ends_note {entry : Entry} {ok : Nat → Tape → Prop} :
    Ends (note entry) t ok stopped ↔
      ok t.entries.size { t with entries := t.entries.push entry } := Iff.rfl

theorem ends_within {frame : FrameId} {w : Traced α} :
    Ends (within frame w) t ok stopped ↔
      Ends w { t with machine := { t.machine with current := frame } }
        (fun a u => ok a { u with machine := { u.machine with current := t.machine.current } })
        fun stop u =>
          stopped stop { u with machine := { u.machine with current := t.machine.current } } := by
  unfold Ends within
  dsimp only
  cases w { t with machine := { t.machine with current := frame } } <;> rfl

theorem ends_asCall {w : Traced α} :
    Ends (asCall w) t ok stopped ↔
      Ends w { t with machine := { t.machine with callDepth := t.machine.callDepth + 1 } }
        (fun a u => ok a { u with machine := { u.machine with callDepth := t.machine.callDepth } })
        fun stop u => stopped stop
          { u with machine := { u.machine with callDepth := t.machine.callDepth } } := by
  unfold Ends asCall
  dsimp only
  cases w { t with machine := { t.machine with callDepth := t.machine.callDepth + 1 } } <;> rfl

theorem ends_attempt {w : Traced α} {ok : Except Diagnostic α → Tape → Prop} :
    Ends (attempt w) t ok stopped ↔
      Ends w t (fun a u => ok (.ok a) u) fun stop u => match stop with
        | .failed d => ok (.error d) u
        | .outOfFuel => stopped .outOfFuel u := by
  unfold Ends attempt
  cases w t with
  | ok a u => rfl
  | error stop u => cases stop <;> rfl

/-- The entry is made before the line is written. -/
theorem ends_writeValue {v : Value} {ok : Unit → Tape → Prop} :
    Ends (writeValue v) t ok stopped ↔
      let text := t.machine.heap.describe v
      let entry := Entry.write text t.machine.heap t.machine.clock
      Ends (lift (Run.writeLine text)) { t with entries := t.entries.push entry } ok stopped :=
  Iff.rfl

end Lox.Trace

/-! # Traced evaluation

The rules of evaluation once more, with the entries that they make. A statement
knows the spot at which it is executed. What a rule does without calling others
it does as before. -/

namespace Lox.Trace

mutual

/-- Evaluates an expression. -/
def expr : Nat → Expr → Traced Value
  | 0, _ => lift Run.exhaust
  | fuel + 1, e =>
    match e with
    | .literal value _ => pure value.value
    | .grouping inner _ => expr fuel inner
    | .unary op opSpan operand => do
      let v ← expr fuel operand
      lift (Run.orFail (op.apply v) opSpan)
    | .binary left op opSpan right => do
      let a ← expr fuel left
      let b ← expr fuel right
      lift (Run.orFail (op.apply a b) opSpan)
    | .logical left op _ right => do
      let a ← expr fuel left
      if op.settledBy a then pure a else expr fuel right
    | .var target => lift (Eval.readVariable target.id target.name.text target.name.span)
    | .assign target value => do
      let v ← expr fuel value
      lift (Eval.writeVariable target v)
      pure v
    | .call callee paren arguments => do
      let f ← expr fuel callee
      let args ← exprs fuel arguments
      lift (Eval.checkCall f args.length paren)
      asCall (call fuel f args paren)
    | .get object name => do
      let o ← expr fuel object
      lift (Eval.property o name)
    | .set object name value => do
      let o ← expr fuel object
      let i ← lift (Eval.fieldOwner o name)
      let v ← expr fuel value
      lift (Run.onHeap fun h => ((), h.setField i name.text v))
      pure v
    | .this id span => lift (Eval.readVariable id "this" span)
    | .super id keyword method => lift (Eval.superMethod id keyword method)
    | .lambda fn => lift (Eval.closure none fn)

/-- Evaluates expressions in order. -/
def exprs : Nat → List Expr → Traced (List Value)
  | 0, _ => lift Run.exhaust
  | _ + 1, [] => pure []
  | fuel + 1, e :: es => do
    let v ← expr fuel e
    let vs ← exprs fuel es
    pure (v :: vs)

/-- Runs what is called. -/
def call : Nat → Value → List Value → Span → Traced Value
  | 0, _, _, _ => lift Run.exhaust
  | fuel + 1, callee, args, paren =>
    match callee with
    | .native n => lift (Run.callNative n args paren)
    | .function f => do
      let object? ← lift (Run.ask fun m => m.heap.function? f)
      let object ← lift (Run.orElseFail object? .notCallable paren)
      callFunction fuel object args
    | .class_ c => construct fuel c args
    | _ => lift (Run.fail .notCallable paren)

/-- Makes an instance, and runs the initializer on it if there is one. -/
def construct : Nat → ClassId → List Value → Traced Value
  | 0, _, _ => lift Run.exhaust
  | fuel + 1, c, args => do
    let i ← lift (Run.onHeap (·.newInstance c))
    match ← lift (Run.ask fun m =>
        (m.heap.findMethod? c initializerName).bind m.heap.function?) with
    | none => pure (.instance_ i)
    | some method =>
      let bound ← lift (Run.onHeap (·.bind method i))
      let _ ← callFunction fuel bound args
      pure (.instance_ i)

/-- Runs the body of a function, which takes up a `return`. -/
def callFunction : Nat → FunctionObject → List Value → Traced Value
  | 0, _, _ => lift Run.exhaust
  | fuel + 1, f, args => do
    let frame ← lift (Run.onHeap
      (·.newFrame (some f.closure) (Eval.bindParams f.fn.params args)))
    let called ← note (.call f.fn)
    let signal ← within frame (stmts fuel ⟨some called, []⟩ f.fn.body)
    let _ ← note (.finish called signal)
    lift (Eval.callResult f signal.flow)

/-- Executes a statement. -/
def stmt : Nat → Spot → Stmt → Traced Signal
  | 0, _, _ => lift Run.exhaust
  | fuel + 1, here, s =>
    match s with
    | .expression value => do
      let _ ← expr fuel value
      pure .normal
    | .print value => do
      let v ← expr fuel value
      writeValue v
      pure .normal
    | .var name none => do
      lift (Run.define name.text .nil)
      pure .normal
    | .var name (some initializer) => do
      let v ← expr fuel initializer
      lift (Run.define name.text v)
      pure .normal
    | .block body => do
      let outer ← lift (Run.ask (·.current))
      let frame ← lift (Run.onHeap (·.newFrame (some outer) .empty))
      within frame (stmts fuel here body)
    | .ifElse condition thenBranch elseBranch => do
      let v ← expr fuel condition
      if v.truthy then stmt fuel here thenBranch
      else
        match elseBranch with
        | some branch => stmt fuel here branch
        | none => pure .normal
    | .while_ condition body => do
      let v ← expr fuel condition
      if v.truthy then
        let round ← note (.round condition body here)
        match ← stmt fuel { here with rounds := round :: here.rounds } body with
        | .normal => stmt fuel here (.while_ condition body)
        | .break_ raised => do
          let _ ← note (.leave round raised)
          pure .normal
        | .return_ raised value => pure (.return_ raised value)
      else pure .normal
    | .break_ keyword => do
      let raised ← note (.raise (.break_ keyword) here)
      pure (.break_ raised)
    | .return_ keyword none => do
      let raised ← note (.raise (.return_ keyword none) here)
      pure (.return_ raised .nil)
    | .return_ keyword (some value) => do
      let v ← expr fuel value
      let raised ← note (.raise (.return_ keyword (some value)) here)
      pure (.return_ raised v)
    | .function name fn => do
      let v ← lift (Eval.closure (some name.text) fn)
      lift (Run.define name.text v)
      pure .normal
    | .class_ name superclass methods => do
      lift (Eval.declareClass name superclass methods)
      pure .normal

/-- Executes statements in order, until one does not finish normally. -/
def stmts : Nat → Spot → List Stmt → Traced Signal
  | 0, _, _ => lift Run.exhaust
  | _ + 1, _, [] => pure .normal
  | fuel + 1, here, s :: rest => do
    match ← stmt fuel here s with
    | .normal => stmts fuel here rest
    | signal => pure signal

end

/-! ## Programs -/

/-- Executes the statements of a program. -/
def program (fuel : Nat) (flows : Array Flow) : List Stmt → Traced Eval.Completion
  | [] => pure ⟨flows, none⟩
  | s :: rest => do
    match ← attempt (stmt fuel .top s) with
    | .ok signal => do
      let _ ← note (.done signal)
      program fuel (flows.push signal.flow) rest
    | .error diagnostic => pure ⟨flows, some diagnostic⟩

/-- Writes the value of an expression. -/
def echo (fuel : Nat) (e : Expr) : Traced Unit := do
  let v ← expr fuel e
  writeValue v

/-- Executes a program that has been accepted. -/
def execute (fuel : Nat) (statements : List Stmt) : Traced (Option Diagnostic) :=
  match statements with
  | [.expression e] => do
    match ← attempt (echo fuel e) with
    | .ok _ => pure none
    | .error diagnostic => pure (some diagnostic)
  | statements => do
    let completion ← program fuel #[] statements
    pure completion.error

end Lox.Trace
