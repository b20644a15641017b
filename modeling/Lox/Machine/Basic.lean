import Lox.Diagnostic
import Lox.Heap.Describe
import Lox.Machine.Sink
import Lox.Scope.Resolutions

/-! # The state of a running program

Besides the heap, a machine knows the frame of the global names, the frame of
the scope it is in, how many calls are active, what is known about scopes, and
the outside world: the sink, the clock, and the functions of the host. -/

namespace Lox

/-- The greatest number of calls that can be active. -/
def maxCallDepth : Nat := 1024

/-- What a function of the host sees: the heap, which it cannot change, and the
time of the call in seconds. -/
structure HostView where
  heap : Heap
  now : Float

/-- The code of a function of the host: a value, or a refusal in its own words. -/
abbrev HostCode := HostView → List Value → Except String Value

/-- A function of the host. -/
structure Native where
  name : String
  arity : Nat
  code : HostCode

/-- The clock: what it will show at each reading, and how often it has been read. -/
structure Clock where
  reading : Nat → Float
  reads : Nat

/-- The state of a running program. -/
structure Machine where
  heap : Heap
  globals : FrameId
  current : FrameId
  callDepth : Nat
  resolutions : Resolutions
  sink : Sink
  clock : Clock
  /-- The code of the functions of the host, at the places that they have in the heap. -/
  host : Array HostCode

namespace Machine

/-- A machine that has run nothing, in which no name is bound. -/
def bare (sink : Sink) (reading : Nat → Float) : Machine :=
  let (globals, heap) := Heap.empty.newFrame none .empty
  { heap, globals, current := globals, callDepth := 0, resolutions := .empty, sink,
    clock := ⟨reading, 0⟩, host := #[] }

/-- Binds a global name to a function of the host. -/
def defineNative (m : Machine) (n : Native) : Machine :=
  let (id, heap) := m.heap.newNative ⟨n.name, n.arity⟩
  { m with heap := heap.define m.globals n.name (.native id), host := m.host.push n.code }

/-- The frame in which the variable of a node stands: the one that the record
for the node names, or else that of the global names. There is none when fewer
frames lie around the present one than are recorded. -/
def frameOf? (m : Machine) (id : Nat) : Option FrameId :=
  match m.resolutions.find? id with
  | some hops => m.heap.ancestor? m.current hops
  | none => some m.globals

/-- The value of a variable. -/
def readVariable (m : Machine) (id : Nat) (name : String) : Option Value :=
  (m.frameOf? id).bind fun frame => m.heap.get? frame name

/-- The frame that binds the variable of a node. -/
def bindingFrame? (m : Machine) (id : Nat) (name : String) : Option FrameId :=
  (m.frameOf? id).filter fun frame => m.heap.binds frame name

end Machine

/-! ## Computations -/

/-- Why a computation has no result. -/
inductive Stop where
  /-- Something went wrong. -/
  | failed (diagnostic : Diagnostic)
  /-- The bound on the number of steps was reached. -/
  | outOfFuel
deriving Repr, DecidableEq

/-- A computation that changes the state of the machine, also when it stops
without a result. -/
abbrev Run := EStateM Stop Machine

namespace Run

/-- Stops because the bound on the number of steps is reached. -/
def exhaust {α : Type} : Run α := throw .outOfFuel

/-- Stops with an error at a place of the program. -/
def fail {α : Type} (error : RuntimeError) (span : Span) : Run α :=
  throw (.failed (.located (.execution error) span))

/-- The result, or an error at a place of the program. -/
def orFail {α : Type} (result : Except RuntimeError α) (span : Span) : Run α :=
  match result with
  | .ok a => pure a
  | .error error => fail error span

/-- The result, if there is one, or an error at a place of the program. -/
def orElseFail {α : Type} (result : Option α) (error : RuntimeError) (span : Span) : Run α :=
  match result with
  | some a => pure a
  | none => fail error span

/-- Turns an error into a result. Only the bound on steps still stops the computation. -/
@[inline] def attempt {α : Type} (run : Run α) : Run (Except Diagnostic α) := fun m =>
  match run m with
  | .ok a m => .ok (.ok a) m
  | .error (.failed diagnostic) m => .ok (.error diagnostic) m
  | .error .outOfFuel m => .error .outOfFuel m

/-- Something that the machine knows. -/
@[inline] def ask {α : Type} (f : Machine → α) : Run α := fun m => .ok (f m) m

/-- A change of the heap that has a result. -/
@[inline] def onHeap {α : Type} (f : Heap → α × Heap) : Run α := fun m =>
  let (a, heap) := f m.heap
  .ok a { m with heap }

/-- Runs a computation in another frame, and comes back to the present one
whatever happens. -/
@[inline] def within {α : Type} (frame : FrameId) (run : Run α) : Run α := fun m =>
  let outside := m.current
  match run { m with current := frame } with
  | .ok a m => .ok a { m with current := outside }
  | .error stop m => .error stop { m with current := outside }

/-- Runs a computation as an active call, which ends whatever happens. -/
@[inline] def asCall {α : Type} (run : Run α) : Run α := fun m =>
  let outside := m.callDepth
  match run { m with callDepth := outside + 1 } with
  | .ok a m => .ok a { m with callDepth := outside }
  | .error stop m => .error stop { m with callDepth := outside }

/-- Writes a line of output. -/
def writeLine (text : String) : Run Unit := fun m =>
  match m.sink.writeLine text with
  | (none, sink) => .ok () { m with sink }
  | (some step, sink) => .error (.failed (.output step.failure)) { m with sink }

/-- Binds a name in the present frame. -/
def define (name : String) (value : Value) : Run Unit := fun m =>
  .ok () { m with heap := m.heap.define m.current name value }

/-- Calls a function of the host. The clock is read once for it. -/
def callNative (id : NativeId) (args : List Value) (paren : Span) : Run Value := fun m =>
  match m.host[id.index]? with
  | none => fail .notCallable paren m
  | some code =>
    let now := m.clock.reading m.clock.reads
    let m := { m with clock := { m.clock with reads := m.clock.reads + 1 } }
    match code ⟨m.heap, now⟩ args with
    | .ok value => .ok value m
    | .error words => fail (.host words) paren m

end Run
end Lox
