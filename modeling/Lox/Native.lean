import Lox.Machine.Basic

/-! # Functions of the host

The functions that a host can bind to global names. Only `clock` is there in
every session. -/

namespace Lox.Native

/-- The time in seconds. -/
def clock : Native := ⟨"clock", 0, fun view _ => .ok (.number view.now)⟩

/-- Twice a number. -/
def double : HostCode := fun _ args =>
  match args with
  | [.number x] => .ok (.number (x * 2))
  | _ => .error "double expects a number."

/-- The first argument. -/
def first : HostCode := fun _ args =>
  match args with
  | value :: _ => .ok value
  | [] => .error "first expects an argument."

/-- Always refuses, and tells what it was given. -/
def fail : HostCode := fun view args =>
  .error ("fail(" ++ String.intercalate ", " (args.map view.heap.describe) ++ ")")

/-- A method of a class, not bound to an instance. -/
def unbound : HostCode := fun view args =>
  match args with
  | [.class_ c, .string name] =>
    match view.heap.findMethod? c name with
    | some method => .ok (.function method)
    | none => .error ("no method " ++ name)
  | _ => .error "unbound expects a class and a name."

/-- The functions beside `clock`, with the names and arities they usually have. -/
def extras : List Native :=
  [⟨"double", 1, double⟩, ⟨"first", 2, first⟩, ⟨"fail", 1, fail⟩, ⟨"unbound", 2, unbound⟩]

/-- The code of a function by its usual name. -/
def code? (name : String) : Option HostCode :=
  (extras.find? fun n => n.name = name).map Native.code

end Lox.Native
