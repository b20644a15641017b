/-! # Values

A value is data, or the identity of an object in the heap. Two values are equal
when they are the same data or the same object. -/

namespace Lox

/-- The identity of a frame of variables. -/
structure FrameId where
  index : Nat
deriving Repr, DecidableEq, Inhabited

/-- The identity of a function object. -/
structure FunctionId where
  index : Nat
deriving Repr, DecidableEq, Inhabited

/-- The identity of a class. -/
structure ClassId where
  index : Nat
deriving Repr, DecidableEq, Inhabited

/-- The identity of a function that the host supplies. -/
structure NativeId where
  index : Nat
deriving Repr, DecidableEq, Inhabited

/-- The identity of an instance. -/
structure InstanceId where
  index : Nat
deriving Repr, DecidableEq, Inhabited

/-- What an expression evaluates to. -/
inductive Value where
  | nil
  | bool (value : Bool)
  | number (value : Float)
  | string (value : String)
  | function (id : FunctionId)
  | class_ (id : ClassId)
  | native (id : NativeId)
  | instance_ (id : InstanceId)
deriving Repr, DecidableEq, Inhabited

namespace Value

/-- `nil` and `false` are falsy, everything else is truthy. -/
def truthy : Value → Bool
  | nil => false
  | bool value => value
  | _ => true

/-- Equality as programs see it. Numbers compare as numbers: a NaN differs from
itself, and the two zeros are equal. -/
def same : Value → Value → Bool
  | nil, nil => true
  | bool a, bool b => a == b
  | number a, number b => a == b
  | string a, string b => a == b
  | function a, function b => a == b
  | class_ a, class_ b => a == b
  | native a, native b => a == b
  | instance_ a, instance_ b => a == b
  | _, _ => false

end Value
end Lox
