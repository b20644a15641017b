import Lox.Diagnostic.Report
import Lox.Text.Quoted

/-! # What a command answers

A command writes to the standard output and to the error output, and ends with
a code. Failures to read what it was given are told with their cause. -/

namespace Lox

/-- What a command has written, and the code with which it ends. -/
structure Response where
  out : String
  err : String
  code : Nat
deriving Repr, DecidableEq

namespace Response

/-- The code after static errors. -/
def staticErrorCode : Nat := 65

/-- The code after a runtime error. -/
def runtimeErrorCode : Nat := 70

/-- The code after a failure to read something. -/
def failureCode : Nat := 1

/-- The code that goes with a report. -/
def codeOf (report : Report) : Nat :=
  if report.hadError then staticErrorCode
  else if report.hadRuntimeError then runtimeErrorCode
  else 0

/-- Texts on the error output, each with a line break behind it. -/
def errorText (shown : List String) : String :=
  shown.foldl (fun out text => out ++ text ++ "\n") ""

/-- What a report shows. -/
def reportText (report : Report) (source : String) : String := errorText (report.render source)

/-- A failure: what could not be done, and why. -/
def failureText (failure cause : String) : String :=
  "Error: " ++ failure ++ "\n\nCaused by:\n    " ++ cause ++ "\n"

/-- The answer of a command that could not do something. -/
def failed (failure cause : String) : Response := ⟨"", failureText failure cause, failureCode⟩

end Response

/-- What is found under the name of a file. -/
inductive FileState where
  | missing
  | directory
  /-- It cannot be opened, for a reason that the system gives. -/
  | barred (reason : String)
  | content (bytes : List UInt8)
deriving Repr, DecidableEq

namespace FileState

/-- Why there is no file. -/
def missingReason : String := "No such file or directory (os error 2)"

/-- Why a directory is neither read nor written. -/
def directoryReason : String := "Is a directory (os error 21)"

/-- The text of a file, or the answer that tells why there is none. A directory
can be opened, but not read. -/
def text (state : FileState) (name : String) : Except Response String :=
  let unopened (reason : String) : Response :=
    .failed ("Failed to open file " ++ Text.quoted name) reason
  match state with
  | .missing => .error (unopened missingReason)
  | .barred reason => .error (unopened reason)
  | .directory => .error (.failed ("Failed to read file " ++ Text.quoted name) directoryReason)
  | .content bytes =>
    match Text.Utf8.decode bytes with
    | .ok text => .ok text
    | .error fault =>
      .error (.failed ("File " ++ Text.quoted name ++ " is not valid UTF-8") fault.message)

/-- Why a file of this name cannot be created, in place of what is found there. -/
def obstacle? : FileState → Option String
  | .missing | .content _ => none
  | .directory => some directoryReason
  | .barred reason => some reason

end FileState
end Lox
