import Lox.Command.Basic
import Lox.Command.Prompt
import Lox.Syntax.Dump
import Lox.Syntax.Sexpr
import Lox.Token.Listing

/-! # Answering commands

Every command but the prompt reads one file and answers with texts and a code.
The answer depends on nothing but the file, the input and the clock. -/

namespace Lox.Command

/-- A text with a line break behind it. -/
def line (text : String) : String := text ++ "\n"

/-- Lists the tokens of a source. Faults go to the error output as they are met. -/
def tokenize (source : String) (json : Bool) : Response :=
  let scan := Lexer.scan source
  let stream := scan.tokens
  let rows := (stream.tokens.map fun t => line t.row) ++ [line TokenStream.endRow]
  let out := if json then line stream.toJson.pretty else rows.foldl (· ++ ·) ""
  let err := Response.errorText (scan.faults.toList.map (·.display source))
  ⟨out, err, if scan.faults.isEmpty then 0 else Response.staticErrorCode⟩

/-- Prints the syntax trees of a source, if nothing is wrong with it. -/
def parse (source : String) (json : Bool) : Response :=
  let reading := readProgram source 0
  if reading.report.hadError then
    ⟨"", Response.reportText reading.report source, Response.staticErrorCode⟩
  else
    let out :=
      if json then line (Dump.program reading.value).pretty
      else reading.value.foldl (fun out s => out ++ line s.sexpr) ""
    ⟨out, "", 0⟩

/-- Evaluates a source that is one expression. -/
def evaluate (fuel : Nat) (clock : Nat → Float) (source : String) : Option Response :=
  ((Session.start .reliable clock).evaluate fuel source).map fun (result, after) =>
    let written := after.machine.sink.text
    match result with
    | .ok value => ⟨written ++ line (after.machine.heap.describe value), "", 0⟩
    | .error report => ⟨written, Response.reportText report source, Response.codeOf report⟩

/-- Runs a source as a program. -/
def run (fuel : Nat) (clock : Nat → Float) (source : String) : Option Response :=
  ((Session.start .reliable clock).run fuel source).map fun (report, after) =>
    ⟨after.machine.sink.text, Response.reportText report source, Response.codeOf report⟩

/-- Holds a dialogue over the lines of an input. -/
def prompt (fuel : Nat) (clock : Nat → Float) (input : List UInt8) : Option Response :=
  Prompt.dialogue fuel Prompt.greeting "" (.start .reliable clock) (Prompt.splitLines [] input)

/-- Does something with the text of a file. -/
def withFile (read : String → FileState) (name : String) (f : String → Option Response) :
    Option Response :=
  match (read name).text name with
  | .ok source => f source
  | .error response => some response

/-- The answer to a task, given the files and the input. There is none when a
program does not end within `fuel` steps. -/
def perform (fuel : Nat) (clock : Nat → Float) (read : String → FileState) (input : List UInt8)
    (task : Task) : Option Response :=
  match task with
  | .tokenize file json => withFile read file fun source => some (tokenize source json)
  | .parse file json => withFile read file fun source => some (parse source json)
  | .evaluate file => withFile read file (evaluate fuel clock)
  | .run file => withFile read file (run fuel clock)
  | .prompt => prompt fuel clock input

/-- The name of the file that holds the log. -/
def logFile : String := "app.log"

/-- The answer of a command whose log cannot be created. -/
def logFailure? (c : Command) (found : FileState) : Option Response :=
  if c.log then found.obstacle?.map (.failed ("Failed to create " ++ logFile)) else none

/-- The answer to a command. Its log comes first: without it nothing else is done. -/
def answer (fuel : Nat) (clock : Nat → Float) (read : String → FileState) (input : List UInt8)
    (c : Command) : Option Response :=
  match c.logFailure? (read logFile) with
  | some response => some response
  | none => perform fuel clock read input c.task

end Lox.Command
