import Lox.Eval.Operators
import Lox.Machine.Basic

/-! # Evaluation

Expressions are evaluated to values, statements are executed and tell how they
finished. A `break` and a `return` are no errors: they finish a statement, and
the loop or the call that they belong to takes them up.

Every use of evaluation inside evaluation takes one step of a bound, each round
of a loop included. A computation that has a result within a bound has the same
result within every greater one. -/

namespace Lox

/-- How a statement finished. -/
inductive Flow where
  | normal
  | break_
  | return_ (value : Value)
deriving Repr, DecidableEq

namespace Eval
open Run

/-- The value of a variable. -/
def readVariable (id : Nat) (name : String) (span : Span) : Run Value := do
  orElseFail (← ask fun m => m.readVariable id name) (.undefinedVariable name) span

/-- Gives a variable another value. -/
def writeVariable (target : Reference) (value : Value) : Run Unit := fun m =>
  match m.bindingFrame? target.id target.name.text with
  | some frame => .ok () { m with heap := m.heap.define frame target.name.text value }
  | none => fail (.undefinedVariable target.name.text) target.name.span m

/-- A new function object that closes over the present frame. -/
def closure (name : Option String) (fn : Lambda) : Run Value := do
  let frame ← ask (·.current)
  let id ← onHeap (·.newFunction ⟨name, fn, frame, false⟩)
  pure (.function id)

/-- A method that was found, bound to an instance as a new function object; or
the property is reported. -/
def boundMethod (found : Option FunctionId) (i : InstanceId) (name : Ident) : Run Value := do
  let method? ← ask fun m => found.bind m.heap.function?
  let method ← orElseFail method? (.undefinedProperty name.text) name.span
  let bound ← onHeap (·.bind method i)
  let id ← onHeap (·.newFunction bound)
  pure (.function id)

/-- A property of a value: a field, or else a method bound to the instance. -/
def property (object : Value) (name : Ident) : Run Value :=
  match object with
  | .instance_ i => do
    match ← ask fun m => m.heap.field? i name.text with
    | some value => pure value
    | none => boundMethod (← ask fun m => m.heap.methodOf? i name.text) i name
  | _ => fail .propertyOfNonInstance name.span

/-- The instance whose field is to be set. -/
def fieldOwner (object : Value) (name : Ident) : Run InstanceId :=
  match object with
  | .instance_ i => pure i
  | _ => fail .fieldOfNonInstance name.span

/-- The class from which `super` looks for methods. -/
def superClass (hops : Nat) (keyword : Span) : Run ClassId := do
  match ← ask fun m => m.heap.getAt? m.current hops "super" with
  | some (.class_ c) => pure c
  | _ => fail .superNotClass keyword

/-- The instance that goes with `super`: its `this` stands in the frame just
inside the one that holds `super`. -/
def superInstance (hops : Nat) (keyword : Span) : Run InstanceId := do
  let this? ← ask fun m =>
    match hops with
    | 0 => none
    | inner + 1 => m.heap.getAt? m.current inner "this"
  match this? with
  | some (.instance_ i) => pure i
  | _ => fail .thisNotInstance keyword

/-- A method of the superclass, bound to the present instance. -/
def superMethod (id : Nat) (keyword : Span) (method : Ident) : Run Value := do
  let hops ← orElseFail (← ask fun m => m.resolutions.find? id) .superUnresolved keyword
  let c ← superClass hops keyword
  let i ← superInstance hops keyword
  boundMethod (← ask fun m => m.heap.findMethod? c method.text) i method

/-- Whether a value can be called with so many arguments, and one more call can be active. -/
def checkCall (callee : Value) (count : Nat) (paren : Span) : Run Unit := do
  let arity ← orElseFail (← ask fun m => m.heap.arity? callee) .notCallable paren
  if count ≠ arity then fail (.wrongArgumentCount arity count) paren
  else if maxCallDepth ≤ (← ask (·.callDepth)) then fail .stackOverflow paren
  else pure ()

/-- The parameters of a function, bound to arguments. -/
def bindParams (params : List Ident) (args : List Value) : Bindings Value :=
  (params.zip args).foldl (fun names entry => names.insert entry.1.text entry.2) .empty

/-- The function objects of the methods of a class. A method that is written
again takes the place of the former one. -/
def methodTable (frame : FrameId) : List Method → Bindings FunctionId → Heap →
    Bindings FunctionId × Heap
  | [], table, h => (table, h)
  | ⟨name, fn⟩ :: rest, table, h =>
    let (id, h) := h.newFunction ⟨some name.text, fn, frame, name.text = initializerName⟩
    methodTable frame rest (table.insert name.text id) h

/-- The superclass that a class declaration names. -/
def superclassOf (superclass : Option Reference) : Run (Option ClassId) :=
  match superclass with
  | none => pure none
  | some target => do
    match ← readVariable target.id target.name.text target.name.span with
    | .class_ c => pure (some c)
    | _ => fail .superclassNotClass target.name.span

/-- The frame that methods close over: with a superclass it is a new one, which holds `super`. -/
def methodFrame (superclass : Option ClassId) : Run FrameId := do
  let frame ← ask (·.current)
  match superclass with
  | some c => onHeap (·.newFrame (some frame) (Bindings.empty.insert "super" (.class_ c)))
  | none => pure frame

/-- Declares a class. Its name is bound before the class is there. -/
def declareClass (name : Ident) (superclass : Option Reference) (methods : List Method) :
    Run Unit := do
  let parent ← superclassOf superclass
  define name.text .nil
  let frame ← methodFrame parent
  let table ← onHeap (methodTable frame methods .empty)
  let id ← onHeap (·.newClass ⟨name.text, parent, table⟩)
  define name.text (.class_ id)

/-- What a call returns, once its body has finished: an initializer returns its
instance, any other function what it was told to return, or `nil`. -/
def callResult (f : FunctionObject) (flow : Flow) : Run Value := do
  if f.isInitializer then
    orElseFail (← ask fun m => m.heap.getAt? f.closure 0 "this") .initializerUnbound f.fn.span
  else
    match flow with
    | .return_ value => pure value
    | .normal | .break_ => pure .nil

mutual

/-- Evaluates an expression. -/
def expr : Nat → Expr → Run Value
  | 0, _ => exhaust
  | fuel + 1, e =>
    match e with
    | .literal value _ => pure value.value
    | .grouping inner _ => expr fuel inner
    | .unary op opSpan operand => do
      let v ← expr fuel operand
      orFail (op.apply v) opSpan
    | .binary left op opSpan right => do
      let a ← expr fuel left
      let b ← expr fuel right
      orFail (op.apply a b) opSpan
    | .logical left op _ right => do
      let a ← expr fuel left
      if op.settledBy a then pure a else expr fuel right
    | .var target => readVariable target.id target.name.text target.name.span
    | .assign target value => do
      let v ← expr fuel value
      writeVariable target v
      pure v
    | .call callee paren arguments => do
      let f ← expr fuel callee
      let args ← exprs fuel arguments
      checkCall f args.length paren
      asCall (call fuel f args paren)
    | .get object name => do
      let o ← expr fuel object
      property o name
    | .set object name value => do
      let o ← expr fuel object
      let i ← fieldOwner o name
      let v ← expr fuel value
      onHeap fun h => ((), h.setField i name.text v)
      pure v
    | .this id span => readVariable id "this" span
    | .super id keyword method => superMethod id keyword method
    | .lambda fn => closure none fn

/-- Evaluates expressions in order. -/
def exprs : Nat → List Expr → Run (List Value)
  | 0, _ => exhaust
  | _ + 1, [] => pure []
  | fuel + 1, e :: es => do
    let v ← expr fuel e
    let vs ← exprs fuel es
    pure (v :: vs)

/-- Runs what is called, with as many arguments as it takes. -/
def call : Nat → Value → List Value → Span → Run Value
  | 0, _, _, _ => exhaust
  | fuel + 1, callee, args, paren =>
    match callee with
    | .native n => callNative n args paren
    | .function f => do
      let object ← orElseFail (← ask fun m => m.heap.function? f) .notCallable paren
      callFunction fuel object args
    | .class_ c => construct fuel c args
    | _ => fail .notCallable paren

/-- Makes an instance, and runs the initializer on it if there is one. -/
def construct : Nat → ClassId → List Value → Run Value
  | 0, _, _ => exhaust
  | fuel + 1, c, args => do
    let i ← onHeap (·.newInstance c)
    match ← ask fun m => (m.heap.findMethod? c initializerName).bind m.heap.function? with
    | none => pure (.instance_ i)
    | some method =>
      let bound ← onHeap (·.bind method i)
      let _ ← callFunction fuel bound args
      pure (.instance_ i)

/-- Runs the body of a function in a new frame inside the one it closes over. -/
def callFunction : Nat → FunctionObject → List Value → Run Value
  | 0, _, _ => exhaust
  | fuel + 1, f, args => do
    let frame ← onHeap (·.newFrame (some f.closure) (bindParams f.fn.params args))
    let flow ← within frame (stmts fuel f.fn.body)
    callResult f flow

/-- Executes a statement. -/
def stmt : Nat → Stmt → Run Flow
  | 0, _ => exhaust
  | fuel + 1, s =>
    match s with
    | .expression value => do
      let _ ← expr fuel value
      pure .normal
    | .print value => do
      let v ← expr fuel value
      writeLine (← ask fun m => m.heap.describe v)
      pure .normal
    | .var name none => do
      define name.text .nil
      pure .normal
    | .var name (some initializer) => do
      let v ← expr fuel initializer
      define name.text v
      pure .normal
    | .block body => do
      let outer ← ask (·.current)
      let frame ← onHeap (·.newFrame (some outer) .empty)
      within frame (stmts fuel body)
    | .ifElse condition thenBranch elseBranch => do
      let v ← expr fuel condition
      if v.truthy then stmt fuel thenBranch
      else
        match elseBranch with
        | some branch => stmt fuel branch
        | none => pure .normal
    | .while_ condition body => do
      let v ← expr fuel condition
      if v.truthy then
        match ← stmt fuel body with
        | .normal => stmt fuel (.while_ condition body)
        | .break_ => pure .normal
        | .return_ value => pure (.return_ value)
      else pure .normal
    | .break_ _ => pure .break_
    | .return_ _ none => pure (.return_ .nil)
    | .return_ _ (some value) => do
      let v ← expr fuel value
      pure (.return_ v)
    | .function name fn => do
      let v ← closure (some name.text) fn
      define name.text v
      pure .normal
    | .class_ name superclass methods => do
      declareClass name superclass methods
      pure .normal

/-- Executes statements in order, until one does not finish normally. -/
def stmts : Nat → List Stmt → Run Flow
  | 0, _ => exhaust
  | _ + 1, [] => pure .normal
  | fuel + 1, s :: rest => do
    match ← stmt fuel s with
    | .normal => stmts fuel rest
    | flow => pure flow

end

/-- How far a program came: how its statements finished, and the error that ended it. -/
structure Completion where
  flows : Array Flow
  error : Option Diagnostic
deriving Repr, DecidableEq

/-- Executes the statements of a program in order, whatever way they finish,
until one stops with an error; `flows` have finished before them. -/
def program (fuel : Nat) (flows : Array Flow) : List Stmt → Run Completion
  | [] => pure ⟨flows, none⟩
  | s :: rest => do
    match ← attempt (stmt fuel s) with
    | .ok flow => program fuel (flows.push flow) rest
    | .error diagnostic => pure ⟨flows, some diagnostic⟩

end Eval
end Lox
