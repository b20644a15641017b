/-! # Where output goes

Output is written a line at a time, and flushed after each line. A sink may
begin to fail after a number of lines, at writing or only at flushing. -/

namespace Lox

/-- The two steps of writing a line. -/
inductive SinkStep where
  | write
  | flush
deriving Repr, DecidableEq

/-- The words of the failure of a step. -/
def SinkStep.failure : SinkStep → String
  | write => "write failed"
  | flush => "flush failed"

/-- A failure to come: after how many flushed lines, and at which step. -/
structure SinkFault where
  after : Nat
  step : SinkStep
deriving Repr, DecidableEq

/-- What has been written. -/
structure Sink where
  lines : Array String
  flushed : Nat
  fault : Option SinkFault
deriving Repr, DecidableEq

namespace Sink

/-- A sink that never fails. -/
def reliable : Sink := ⟨#[], 0, none⟩

/-- A sink that fails. -/
def failing (fault : SinkFault) : Sink := ⟨#[], 0, some fault⟩

/-- The failure that the next line meets. -/
def due (s : Sink) : Option SinkStep :=
  match s.fault with
  | some fault => if fault.after ≤ s.flushed then some fault.step else none
  | none => none

/-- Writes a line. When the writing fails nothing of the line is kept; when only
the flushing fails, it is. -/
def writeLine (s : Sink) (text : String) : Option SinkStep × Sink :=
  match s.due with
  | none => (none, { s with lines := s.lines.push text, flushed := s.flushed + 1 })
  | some .write => (some .write, s)
  | some .flush => (some .flush, { s with lines := s.lines.push text })

/-- The lines from a position on, as one text. -/
def textFrom (s : Sink) (first : Nat) : String :=
  (s.lines.extract first).foldl (fun out line => out ++ line ++ "\n") ""

/-- Everything that has been written, as one text. -/
def text (s : Sink) : String := s.textFrom 0

end Sink
end Lox
