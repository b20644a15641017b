import Lox.Diagnostic.Report
import Lox.Eval.Basic
import Lox.Grammar.Program
import Lox.Native
import Lox.Scope.Walk
import Lox.Token.Lexer

/-! # Sessions

A session takes inputs one after the other. What an input defines is there for
the later ones. An input with which something is statically wrong is rejected:
it is not run, and what had been recorded about its scopes is dropped again.

Node numbers go on from input to input, so that the functions of an earlier
input keep their records, and the records of an input are those from its first
number on. -/

namespace Lox

/-- A machine, and the number of the next node. -/
structure Session where
  machine : Machine
  nextId : Nat

/-- A source text that has been read and parsed. -/
structure Reading (α : Type) where
  value : α
  report : Report
  nextId : Nat

/-- Reads and parses a text, where nodes are numbered from `first`. -/
def Reading.of {α : Type} (parse : TokenStream → Nat → Grammar.Parsed α) (source : String)
    (first : Nat) : Reading α :=
  let scan := Lexer.scan source
  let parsed := parse scan.tokens first
  { value := parsed.value
    report := (Report.empty.addAll scan.faults).addAll parsed.errors
    nextId := parsed.nextId }

/-- Reads a program. -/
def readProgram (source : String) (first : Nat) : Reading (List Stmt) :=
  .of Grammar.parseProgram source first

/-- Reads an expression. -/
def readExpression (source : String) (first : Nat) : Reading (Option Expr) :=
  .of Grammar.parseExpression source first

namespace Session

/-- A session that has seen no input, in which only the clock is known. -/
def start (sink : Sink) (reading : Nat → Float) : Session :=
  ⟨(Machine.bare sink reading).defineNative Native.clock, 0⟩

/-- Makes a function of the host known. -/
def defineNative (s : Session) (n : Native) : Session :=
  { s with machine := s.machine.defineNative n }

/-- Drops what is recorded about the nodes from a number on. -/
def forgetFrom (s : Session) (first : Nat) : Session :=
  { s with machine := { s.machine with
      resolutions := s.machine.resolutions.forgetFrom first } }

/-- Writes a line of output; tells why that failed. -/
def writeLine (s : Session) (text : String) : Option Diagnostic × Session :=
  match Run.writeLine text s.machine with
  | .ok _ machine => (none, { s with machine })
  | .error (.failed diagnostic) machine => (some diagnostic, { s with machine })
  | .error .outOfFuel machine => (none, { s with machine })

/-- How many distances are recorded. -/
def resolutionCount (s : Session) : Nat := s.machine.resolutions.count

/-- The machine in which the findings of a walk are recorded. -/
def recording (m : Machine) (walk : Scope.Walk) : Machine :=
  { m with resolutions := m.resolutions.recordAll walk.found }

/-- Writes the value of an expression. -/
def echo (fuel : Nat) (e : Expr) : Run Unit := do
  let v ← Eval.expr fuel e
  Run.writeLine (← Run.ask fun m => m.heap.describe v)

/-- Executes a program that has been accepted. A program that is one bare
expression has its value written. -/
def execute (fuel : Nat) (statements : List Stmt) : Run (Option Diagnostic) :=
  match statements with
  | [.expression e] => do
    match ← Run.attempt (echo fuel e) with
    | .ok _ => pure none
    | .error diagnostic => pure (some diagnostic)
  | statements => do
    let completion ← Eval.program fuel #[] statements
    pure completion.error

/-- Runs a source text as a program: the report on it, and the session after it.
There is no answer when the program does not end within `fuel` steps. -/
def run (fuel : Nat) (source : String) (s : Session) : Option (Report × Session) :=
  let reading := readProgram source s.nextId
  let rejected : Session := { s with nextId := reading.nextId }
  if reading.report.hadError then some (reading.report, rejected)
  else
    let walk := Scope.program reading.value
    let recorded := recording s.machine walk
    let report := reading.report.addAll walk.errors
    if report.hadError then some (report, forgetFrom ⟨recorded, reading.nextId⟩ s.nextId)
    else
      match execute fuel reading.value recorded with
      | .ok none machine => some (report, ⟨machine, reading.nextId⟩)
      | .ok (some diagnostic) machine => some (report.add diagnostic, ⟨machine, reading.nextId⟩)
      | .error _ _ => none

/-- Evaluates a source text that is one expression: its value, or the report on
it, and the session after it. -/
def evaluate (fuel : Nat) (source : String) (s : Session) :
    Option (Except Report Value × Session) :=
  let reading := readExpression source s.nextId
  let rejected : Session := { s with nextId := reading.nextId }
  match reading.value with
  | none => some (.error reading.report, rejected)
  | some e =>
    if reading.report.hadError then some (.error reading.report, rejected)
    else
      let walk := Scope.wholeExpression e
      let recorded := recording s.machine walk
      let report := reading.report.addAll walk.errors
      if report.hadError then
        some (.error report, forgetFrom ⟨recorded, reading.nextId⟩ s.nextId)
      else
        match Run.attempt (Eval.expr fuel e) recorded with
        | .ok (.ok value) machine => some (.ok value, ⟨machine, reading.nextId⟩)
        | .ok (.error diagnostic) machine =>
          some (.error (report.add diagnostic), ⟨machine, reading.nextId⟩)
        | .error _ _ => none

end Session
end Lox
