import Lox.Session
import Lox.Syntax.Nodes

/-! # The phases one by one

A host may drive the phases itself: find out about the scopes of a program with
which something is wrong, record distances of its own, and execute statements
although the program would be rejected. -/

namespace Lox.Session

/-- Reads a program and walks its scopes, whatever is wrong with it. -/
def survey (source : String) (s : Session) : Report × Session :=
  let reading := readProgram source s.nextId
  let walk := Scope.program reading.value
  (reading.report.addAll walk.errors, ⟨recording s.machine walk, reading.nextId⟩)

/-- Records the distances that a host chose for nodes of a program. What it
says of other nodes is of no use and is left out. -/
def recordChoices (choices : List (Nat × Nat)) (nodes : List Nat) (m : Machine) : Machine :=
  let chosen := choices.filter fun entry => nodes.contains entry.1
  { m with resolutions := m.resolutions.recordAll chosen.toArray }

/-- Executes a program statement by statement, whatever is wrong with it. Its
scopes are walked first if `resolve` says so; then the host's choices are
recorded. -/
def interpret (fuel : Nat) (source : String) (resolve : Bool) (choices : List (Nat × Nat))
    (s : Session) : Option (Array Flow × Report × Session) :=
  let reading := readProgram source s.nextId
  let walk := if resolve then Scope.program reading.value else .start
  let report := reading.report.addAll walk.errors
  let machine := recordChoices choices (Nodes.program reading.value) (recording s.machine walk)
  match Eval.program fuel #[] reading.value machine with
  | .ok ⟨flows, none⟩ machine => some (flows, report, ⟨machine, reading.nextId⟩)
  | .ok ⟨flows, some diagnostic⟩ machine =>
    some (flows, report.add diagnostic, ⟨machine, reading.nextId⟩)
  | .error _ _ => none

end Lox.Session
