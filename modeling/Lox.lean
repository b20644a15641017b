import Lox.Bindings
import Lox.Command.Basic
import Lox.Command.Prompt
import Lox.Command.Response
import Lox.Command.Run
import Lox.Diagnostic
import Lox.Diagnostic.Excerpt
import Lox.Diagnostic.Report
import Lox.Eval.Basic
import Lox.Eval.Operators
import Lox.Grammar.Cursor
import Lox.Grammar.Operators
import Lox.Grammar.Program
import Lox.Grammar.Rules
import Lox.Heap.Basic
import Lox.Heap.Describe
import Lox.Json
import Lox.Machine.Basic
import Lox.Machine.Sink
import Lox.Main
import Lox.Native
import Lox.Number.Binary64
import Lox.Number.Decimal
import Lox.Number.Format
import Lox.Number.Shortest
import Lox.Scope.Resolutions
import Lox.Scope.Walk
import Lox.Session
import Lox.Session.Phases
import Lox.Span
import Lox.Syntax
import Lox.Syntax.Dump
import Lox.Syntax.Nodes
import Lox.Syntax.Sexpr
import Lox.Text.Line
import Lox.Text.Printable
import Lox.Text.Quoted
import Lox.Text.Utf8
import Lox.Token
import Lox.Token.Lexer
import Lox.Token.Listing
import Lox.Value
import Lox.Proofs.Outcome
import Lox.Proofs.Watch.Basic
import Lox.Proofs.Watch.Eval
import Lox.Proofs.Eval.Steady
import Lox.Proofs.Watch.Depth
import Lox.Proofs.Watch.Erasure
import Lox.Proofs.Session.Balance
import Lox.Proofs.Grammar.Complete
import Lox.Proofs.Session.Readings
import Lox.Proofs.Renumber.Eval
import Lox.Proofs.Renumber.Parse
import Lox.Proofs.Renumber.Walk
import Lox.Proofs.Scope.Records
import Lox.Proofs.Scope.Walk
import Lox.Proofs.Session.Inputs
import Lox.Proofs.Session.Numbers
import Lox.Proofs.Session.Rejection
import Lox.Proofs.Grammar.Plain
import Lox.Proofs.Heap.Growth
import Lox.Proofs.Scope.Addressed
import Lox.Proofs.Scope.Resolved
import Lox.Proofs.Session.Course
import Lox.Proofs.Session.Scopes
import Lox.Proofs.Session.Dispatch
import Lox.Proofs.Session.Blocks
import Lox.Proofs.Session.Renaming
import Lox.Proofs.Grammar.Elsewhere
import Lox.Proofs.Scope.Elsewhere
import Lox.Proofs.Session.Joined
import Lox.Proofs.Grammar.Marks
import Lox.Proofs.Session.Blame
import Lox.Proofs.Trace.Eval
import Lox.Proofs.Session.Traced
import Lox.Proofs.Eval.Bodies
import Lox.Proofs.Eval.Mute
import Lox.Proofs.Grammar.Enclosed
import Lox.Proofs.Session.Signals
import Lox.Proofs.Session.Sinks
import Lox.Proofs.Grammar.Places
import Lox.Proofs.Session.Echoed
import Lox.Proofs.Syntax.Outline
import Lox.Proofs.Grammar.Recovery.Holes
import Lox.Proofs.Grammar.Recovery.Tracking
import Lox.Proofs.Grammar.Recovery.Barred
import Lox.Proofs.Grammar.Bound
import Lox.Proofs.Grammar.Recovery.Local
import Lox.Proofs.Grammar.Recovery.Boundaries
import Lox.Proofs.Grammar.Progress
import Lox.Proofs.Scope.Violations
import Lox.Proofs.Eval.Termination
import Lox.Proofs.Grammar.Recovery.Semicolons
import Lox.Proofs.Session.Constructors
import Lox.Proofs.Loops.Agreement
import Lox.Proofs.Diagnostic.Distinct
import Lox.Proofs.Session.Shown
import Lox.Proofs.Session.Spans
import Lox.Proofs.Token.Rejoined
import Lox.Proofs.Session.ReadBack
import Lox.Proofs.Grammar.Printed
import Lox.Proofs.Session.Fields
import Lox.Proofs.Scope.Ambience
import Lox.Proofs.Heap.Chains
import Lox.Proofs.Session.Recorded
import Lox.Proofs.Session.Lineage
