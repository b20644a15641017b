import Lox.Diagnostic

/-! # Showing a diagnostic in its source

A diagnostic with a place is shown with the line it stands on and a caret
under its start. The caret is placed by characters, while spans count bytes:
when a span starts inside a character there is no such count, and the byte
column is taken instead. -/

namespace Lox.Diagnostic

/-- How far the caret stands from the start of its line. -/
def caretColumn (line : Text.Line) (column : Nat) : Nat :=
  (Text.charactersIn 0 column line.tail).getD column

/-- The message, the line, and the caret. -/
def excerpt (message : String) (span : Span) (source : String) : String :=
  let offset := min span.start source.utf8ByteSize
  let line := Text.lineAt source offset
  let margin := "    " ++ toString line.number ++ " | "
  let indent := margin.length + caretColumn line (offset - line.start)
  "Error: " ++ message ++ "\n\n" ++ margin ++ String.ofList line.text ++ "\n"
    ++ String.ofList (List.replicate indent ' ') ++ "^-- Here.\n"

/-- A diagnostic as it is shown to the author of `source`. -/
def display (d : Diagnostic) (source : String) : String :=
  match d.span? with
  | some span => excerpt d.message span source
  | none => "Error: " ++ d.headline ++ "\n"

end Lox.Diagnostic
