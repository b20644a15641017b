import Lox.Proofs.Watch.Basic

/-! # Watched evaluation

The rules of evaluation once more, each with the scene that it takes place in.
The scene follows the text: a block, a call, a bound method and a class with a
superclass each enter a scope, a declaration adds its name for what stands
behind it, and a function takes along the scopes around its own text wherever
it is called from. -/

namespace Lox.Watch

/-- Reads the variable of a node. -/
def readVariable (here : Scene) (id : Nat) (name : String) (span : Span) : Watched Value := do
  mark here (.use id name)
  lift (Eval.readVariable id name span)

/-- Writes the variable of a node. -/
def writeVariable (here : Scene) (target : Reference) (value : Value) : Watched Unit := do
  mark here (.use target.id target.name.text)
  lift (Eval.writeVariable target value)

/-- Makes a function that closes over the present frame. -/
def closure (ribs : List Rib) (name : Option String) (fn : Lambda) : Watched Value := do
  let v ← lift (Eval.closure name fn)
  settle 1 ⟨ribs, false⟩
  pure v

/-- Binds a method to an instance: its home gains the scope of `this`. -/
def boundMethod (found : Option FunctionId) (i : InstanceId) (name : Ident) : Watched Value := do
  let frame ← nextFrame
  let home ← homeOf (found.getD ⟨0⟩)
  let v ← lift (Eval.boundMethod found i name)
  settle 1 ⟨receiverRib i frame :: home.ribs, false⟩
  pure v

/-- Reads a property. -/
def property (object : Value) (name : Ident) : Watched Value :=
  match object with
  | .instance_ i => do
    match ← lift (Run.ask fun m => m.heap.field? i name.text) with
    | some value => pure value
    | none => boundMethod (← lift (Run.ask fun m => m.heap.methodOf? i name.text)) i name
  | _ => lift (Run.fail .propertyOfNonInstance name.span)

/-- Reads a method of the superclass. -/
def superMethod (here : Scene) (id : Nat) (keyword : Span) (method : Ident) : Watched Value := do
  mark here (.use id "super")
  let found? ← lift (Run.ask fun m => m.resolutions.find? id)
  let hops ← lift (Run.orElseFail found? .superUnresolved keyword)
  let c ← lift (Eval.superClass hops keyword)
  let i ← lift (Eval.superInstance hops keyword)
  boundMethod (← lift (Run.ask fun m => m.heap.findMethod? c method.text)) i method

/-- Evaluates the superclass of a class declaration. -/
def superclassOf (here : Scene) (superclass : Option Reference) : Watched (Option ClassId) :=
  match superclass with
  | none => pure none
  | some target => do
    match ← readVariable here target.id target.name.text target.name.span with
    | .class_ c => pure (some c)
    | _ => lift (Run.fail .superclassNotClass target.name.span)

/-- Declares a class; `here` is behind its name. -/
def declareClass (here : Scene) (name : Ident) (superclass : Option Reference)
    (methods : List Method) : Watched Unit := do
  let parent ← superclassOf here superclass
  lift (Run.define name.text .nil)
  let frame ← lift (Eval.methodFrame parent)
  let table ← lift (Run.onHeap (Eval.methodTable frame methods .empty))
  settle methods.length ⟨methodRibs parent frame here.ribs, true⟩
  let id ← lift (Run.onHeap (·.newClass ⟨name.text, parent, table⟩))
  lift (Run.define name.text (.class_ id))

mutual

/-- Evaluates an expression. -/
def expr : Nat → Scene → Expr → Watched Value
  | 0, _, _ => lift Run.exhaust
  | fuel + 1, here, e => do
    mark here (.expr e)
    match e with
    | .literal value _ => pure value.value
    | .grouping inner _ => expr fuel here inner
    | .unary op opSpan operand => do
      let v ← expr fuel here operand
      lift (Run.orFail (op.apply v) opSpan)
    | .binary left op opSpan right => do
      let a ← expr fuel here left
      let b ← expr fuel here right
      lift (Run.orFail (op.apply a b) opSpan)
    | .logical left op _ right => do
      let a ← expr fuel here left
      if op.settledBy a then pure a else expr fuel here right
    | .var target => readVariable here target.id target.name.text target.name.span
    | .assign target value => do
      let v ← expr fuel here value
      writeVariable here target v
      pure v
    | .call callee paren arguments => do
      let f ← expr fuel here callee
      let args ← exprs fuel here arguments
      lift (Eval.checkCall f args.length paren)
      asCall (call fuel (here.calling (.call callee paren arguments)) f args paren)
    | .get object name => do
      let o ← expr fuel here object
      property o name
    | .set object name value => do
      let o ← expr fuel here object
      let i ← lift (Eval.fieldOwner o name)
      let v ← expr fuel here value
      lift (Run.onHeap fun h => ((), h.setField i name.text v))
      pure v
    | .this id span => readVariable here id "this" span
    | .super id keyword method => superMethod here id keyword method
    | .lambda fn => closure here.ribs none fn

/-- Evaluates expressions in order. -/
def exprs : Nat → Scene → List Expr → Watched (List Value)
  | 0, _, _ => lift Run.exhaust
  | _ + 1, _, [] => pure []
  | fuel + 1, here, e :: es => do
    let v ← expr fuel here e
    let vs ← exprs fuel here es
    pure (v :: vs)

/-- Runs what is called. -/
def call : Nat → Scene → Value → List Value → Span → Watched Value
  | 0, _, _, _, _ => lift Run.exhaust
  | fuel + 1, here, callee, args, paren => do
    mark here (.run callee args)
    match callee with
    | .native n => lift (Run.callNative n args paren)
    | .function f => do
      let object? ← lift (Run.ask fun m => m.heap.function? f)
      let object ← lift (Run.orElseFail object? .notCallable paren)
      let home ← homeOf f
      callFunction fuel { here with ribs := home.ribs } object args
    | .class_ c => construct fuel here c args
    | _ => lift (Run.fail .notCallable paren)

/-- Makes an instance, and runs the initializer on it if there is one. -/
def construct : Nat → Scene → ClassId → List Value → Watched Value
  | 0, _, _, _ => lift Run.exhaust
  | fuel + 1, here, c, args => do
    let i ← lift (Run.onHeap (·.newInstance c))
    let found ← lift (Run.ask fun m => m.heap.findMethod? c initializerName)
    match ← lift (Run.ask fun m =>
        (m.heap.findMethod? c initializerName).bind m.heap.function?) with
    | none => pure (.instance_ i)
    | some method =>
      let home ← homeOf (found.getD ⟨0⟩)
      let frame ← nextFrame
      let bound ← lift (Run.onHeap (·.bind method i))
      let _ ← callFunction fuel { here with ribs := receiverRib i frame :: home.ribs } bound args
      pure (.instance_ i)

/-- Runs the body of a function; `here` is around its text. -/
def callFunction : Nat → Scene → FunctionObject → List Value → Watched Value
  | 0, _, _, _ => lift Run.exhaust
  | fuel + 1, here, f, args => do
    let frame ← lift (Run.onHeap
      (·.newFrame (some f.closure) (Eval.bindParams f.fn.params args)))
    let flow ← within frame (stmts fuel (here.enter (callRib f.fn frame)) f.fn.body)
    lift (Eval.callResult f flow)

/-- Executes a statement. -/
def stmt : Nat → Scene → Stmt → Watched Flow
  | 0, _, _ => lift Run.exhaust
  | fuel + 1, here, s => do
    mark here (.stmt s)
    match s with
    | .expression value => do
      let _ ← expr fuel here value
      pure .normal
    | .print value => do
      let v ← expr fuel here value
      lift (Run.writeLine (← lift (Run.ask fun m => m.heap.describe v)))
      pure .normal
    | .var name none => do
      lift (Run.define name.text .nil)
      complete name.text
      pure .normal
    | .var name (some initializer) => do
      let v ← expr fuel (here.initializing name.text) initializer
      lift (Run.define name.text v)
      complete name.text
      pure .normal
    | .block body => do
      let outer ← lift (Run.ask (·.current))
      let frame ← lift (Run.onHeap (·.newFrame (some outer) .empty))
      within frame (stmts fuel (here.enter ⟨.block body, [], none, frame⟩) body)
    | .ifElse condition thenBranch elseBranch => do
      let v ← expr fuel here condition
      if v.truthy then stmt fuel here thenBranch
      else
        match elseBranch with
        | some branch => stmt fuel here branch
        | none => pure .normal
    | .while_ condition body => do
      let v ← expr fuel here condition
      if v.truthy then
        match ← stmt fuel here body with
        | .normal => stmt fuel here (.while_ condition body)
        | .break_ => pure .normal
        | .return_ value => pure (.return_ value)
      else pure .normal
    | .break_ _ => pure .break_
    | .return_ _ none => pure (.return_ .nil)
    | .return_ _ (some value) => do
      let v ← expr fuel here value
      pure (.return_ v)
    | .function name fn => do
      let v ← closure (here.declare name.text).ribs (some name.text) fn
      lift (Run.define name.text v)
      pure .normal
    | .class_ name superclass methods => do
      declareClass (here.declare name.text) name superclass methods
      pure .normal

/-- Executes statements in order, until one does not finish normally. -/
def stmts : Nat → Scene → List Stmt → Watched Flow
  | 0, _, _ => lift Run.exhaust
  | _ + 1, _, [] => pure .normal
  | fuel + 1, here, s :: rest => do
    match ← stmt fuel here s with
    | .normal => stmts fuel (here.after s) rest
    | flow => pure flow

end

end Lox.Watch
