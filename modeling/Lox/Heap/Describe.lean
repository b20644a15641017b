import Lox.Heap.Basic
import Lox.Number.Format

/-! # The text of a value -/

namespace Lox.Heap

/-- A value as it is printed. -/
def describe (h : Heap) : Value → String
  | .nil => "nil"
  | .bool value => if value then "true" else "false"
  | .number value => Number.Format.value.write value
  | .string value => value
  | .function f =>
    match (h.function? f).bind FunctionObject.name with
    | some name => "<fn " ++ name ++ ">"
    | none => "<fn>"
  | .class_ c => h.className c
  | .native n => "<native fn " ++ (h.natives[n.index]?.map NativeObject.name).getD "" ++ ">"
  | .instance_ i => ((h.classOf? i).map h.className).getD "" ++ " instance"

end Lox.Heap
