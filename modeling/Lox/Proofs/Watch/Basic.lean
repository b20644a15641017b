import Lox.Eval.Basic
import Lox.Proofs.Outcome

/-! # Watching an evaluation

A watch goes along with an evaluation and writes down every point that the
evaluation passes. For each point it knows the scopes that lexically enclose
the piece of program there, with the frame that each of them was given when it
was entered, and the call expressions whose callee is being run.

None of this is read back by evaluation: a watched evaluation does to the
machine what the evaluation does. -/

namespace Lox.Watch

/-- What a frame is made for. -/
inductive Origin where
  /-- A block is entered. -/
  | block (body : List Stmt)
  /-- A function is called. -/
  | call (fn : Lambda)
  /-- A class with this superclass is declared; its methods see `super`. -/
  | superclass (c : ClassId)
  /-- A method is bound to this instance; it sees `this`. -/
  | receiver (i : InstanceId)

/-- A scope that has been entered. -/
structure Rib where
  origin : Origin
  /-- The names declared in the scope, as far as its text has been reached. -/
  names : List String
  /-- The variable whose declaration is being executed, while its initializer is evaluated. -/
  pending : Option String
  /-- The frame that was made when the scope was entered. -/
  frame : FrameId

/-- Where a piece of program stands while it is evaluated. -/
structure Scene where
  /-- The scopes around it, innermost first. The global names are in none of them. -/
  ribs : List Rib
  /-- The call expressions whose callee is being run, innermost first. -/
  calls : List Expr

/-- What an evaluation does at a point. -/
inductive Event where
  /-- It begins to evaluate an expression. -/
  | expr (e : Expr)
  /-- It begins to execute a statement. -/
  | stmt (s : Stmt)
  /-- It begins to run what is called. -/
  | run (callee : Value) (args : List Value)
  /-- It uses the variable of a node. -/
  | use (id : Nat) (name : String)

/-- A point of an evaluation. -/
structure Point where
  event : Event
  scene : Scene
  machine : Machine
  /-- The variable declarations that have been completed, each with the frame that it binds. -/
  completed : List (FrameId × String)

/-- Where a function object was made. -/
structure Home where
  /-- The scopes around its text. -/
  ribs : List Rib
  /-- It is a method that has no instance yet. -/
  unbound : Bool

/-- What is known about an evaluation that is being watched. -/
structure Record where
  machine : Machine
  /-- The homes of the function objects, at the places that these have in the heap. -/
  homes : Array Home
  completed : List (FrameId × String)
  /-- The points passed so far, in order. -/
  points : Array Point

/-- A watched computation. -/
abbrev Watched := EStateM Stop Record

namespace Scene

/-- Inside a scope that has just been entered. -/
def enter (here : Scene) (rib : Rib) : Scene := { here with ribs := rib :: here.ribs }

/-- After a name has been declared. A global name is in no scope. -/
def declare (here : Scene) (name : String) : Scene :=
  match here.ribs with
  | [] => here
  | rib :: outer => { here with ribs := { rib with names := name :: rib.names } :: outer }

/-- In the initializer of a variable. -/
def initializing (here : Scene) (name : String) : Scene :=
  match here.ribs with
  | [] => here
  | rib :: outer =>
    { here with ribs := { rib with names := name :: rib.names, pending := some name } :: outer }

/-- In the body of a call. -/
def calling (here : Scene) (call : Expr) : Scene := { here with calls := call :: here.calls }

end Scene

/-- The name that a statement declares in the scope it stands in. -/
def declared? : Stmt → Option String
  | .var name _ | .function name _ | .class_ name _ _ => some name.text
  | _ => none

/-- After a statement. -/
def Scene.after (here : Scene) (s : Stmt) : Scene :=
  match declared? s with
  | some name => here.declare name
  | none => here

/-- The scope of a function that has been called. -/
def callRib (fn : Lambda) (frame : FrameId) : Rib :=
  ⟨.call fn, fn.params.map Ident.text, none, frame⟩

/-- The scope of `this` around a method that has been bound. -/
def receiverRib (i : InstanceId) (frame : FrameId) : Rib :=
  ⟨.receiver i, ["this"], none, frame⟩

/-- The scopes around the methods of a class. -/
def methodRibs (parent : Option ClassId) (frame : FrameId) (ribs : List Rib) : List Rib :=
  match parent with
  | some c => ⟨.superclass c, ["super"], none, frame⟩ :: ribs
  | none => ribs

/-! ## Steps of a watched computation -/

/-- Lets a computation run as it is. -/
def lift {α : Type} (run : Run α) : Watched α := fun t =>
  match run t.machine with
  | .ok a machine => .ok a { t with machine }
  | .error stop machine => .error stop { t with machine }

/-- Writes down a point. -/
def mark (here : Scene) (event : Event) : Watched Unit := fun t =>
  .ok () { t with points := t.points.push ⟨event, here, t.machine, t.completed⟩ }

/-- Remembers where the latest function objects were made. -/
def settle (count : Nat) (home : Home) : Watched Unit := fun t =>
  .ok () { t with homes := t.homes ++ Array.replicate count home }

/-- Remembers that a variable declaration has been completed in the present frame. -/
def complete (name : String) : Watched Unit := fun t =>
  .ok () { t with completed := (t.machine.current, name) :: t.completed }

/-- Where a function object was made. -/
def homeOf (f : FunctionId) : Watched Home := fun t =>
  .ok (t.homes[f.index]?.getD ⟨[], false⟩) t

/-- The frame that will be made next. -/
def nextFrame : Watched FrameId := fun t => .ok ⟨t.machine.heap.frames.size⟩ t

/-- Runs a computation in another frame, and comes back whatever happens. -/
def within {α : Type} (frame : FrameId) (run : Watched α) : Watched α := fun t =>
  let outside := t.machine.current
  match run { t with machine := { t.machine with current := frame } } with
  | .ok a t => .ok a { t with machine := { t.machine with current := outside } }
  | .error stop t => .error stop { t with machine := { t.machine with current := outside } }

/-- Runs a computation as an active call, which ends whatever happens. -/
def asCall {α : Type} (run : Watched α) : Watched α := fun t =>
  let outside := t.machine.callDepth
  match run { t with machine := { t.machine with callDepth := outside + 1 } } with
  | .ok a t => .ok a { t with machine := { t.machine with callDepth := outside } }
  | .error stop t => .error stop { t with machine := { t.machine with callDepth := outside } }

/-! ## What the steps end in -/

variable {α : Type} {t : Record} {ok : α → Record → Prop} {stopped : Stop → Record → Prop}

theorem ends_lift {r : Run α} :
    Ends (lift r) t ok stopped ↔
      Ends r t.machine (fun a machine => ok a { t with machine })
        fun stop machine => stopped stop { t with machine } := by
  unfold Ends lift
  cases r t.machine <;> rfl

theorem ends_within {frame : FrameId} {w : Watched α} :
    Ends (within frame w) t ok stopped ↔
      Ends w { t with machine := { t.machine with current := frame } }
        (fun a u => ok a { u with machine := { u.machine with current := t.machine.current } })
        fun stop u =>
          stopped stop { u with machine := { u.machine with current := t.machine.current } } := by
  unfold Ends within
  dsimp only
  cases w { t with machine := { t.machine with current := frame } } <;> rfl

theorem ends_asCall {w : Watched α} :
    Ends (asCall w) t ok stopped ↔
      Ends w { t with machine := { t.machine with callDepth := t.machine.callDepth + 1 } }
        (fun a u => ok a { u with machine := { u.machine with callDepth := t.machine.callDepth } })
        fun stop u => stopped stop
          { u with machine := { u.machine with callDepth := t.machine.callDepth } } := by
  unfold Ends asCall
  dsimp only
  cases w { t with machine := { t.machine with callDepth := t.machine.callDepth + 1 } } <;> rfl

end Lox.Watch
