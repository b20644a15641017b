import Lox.Diagnostic.Excerpt

/-! # Reports

A report gathers the diagnostics of one input in two buckets, so that what is
wrong with the text never hides behind what went wrong while it ran. When a
report is shown, the static diagnostics are put in the order of their places
and cascades are thinned: a diagnostic that starts at, or one byte after, the
one shown before it is left out. -/

namespace Lox

/-- The diagnostics of one input, each bucket in the order of reporting. -/
structure Report where
  static : Array Diagnostic := #[]
  runtime : Array Diagnostic := #[]
deriving Repr, DecidableEq, Inhabited

namespace Report

/-- The report of an input with which nothing is wrong. -/
def empty : Report := {}

/-- Adds a diagnostic to the bucket of its kind. -/
def add (r : Report) (d : Diagnostic) : Report :=
  if d.isStatic then { r with static := r.static.push d }
  else { r with runtime := r.runtime.push d }

/-- Adds diagnostics in order. -/
def addAll (r : Report) (ds : Array Diagnostic) : Report := ds.foldl add r

/-- Whether something is wrong with the text. -/
def hadError (r : Report) : Bool := !r.static.isEmpty

/-- Whether something went wrong while the program ran. -/
def hadRuntimeError (r : Report) : Bool := !r.runtime.isEmpty

/-- The static diagnostics by place; those of one place stay in the order in
which they were reported. -/
def sorted (r : Report) : List Diagnostic :=
  r.static.toList.mergeSort fun a b => decide (a.start ≤ b.start)

/-- Keeps a diagnostic only if it starts at least two bytes after the one that
was kept before it. -/
def thin (last : Option Nat) : List Diagnostic → List Diagnostic
  | [] => []
  | d :: ds =>
    if last.any fun kept => d.start ≤ kept + 1 then thin last ds
    else d :: thin (some d.start) ds

/-- The static diagnostics that are worth showing. -/
def distinct (r : Report) : List Diagnostic := thin none r.sorted

/-- Everything that is shown, static diagnostics first. -/
def render (r : Report) (source : String) : List String :=
  (r.distinct ++ r.runtime.toList).map (·.display source)

end Report
end Lox
