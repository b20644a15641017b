import Lox.Command.Run
import Std.Time.DateTime.Timestamp

/-! # The program

Reads the arguments, the files and the input, and writes what the commands
answer. The prompt answers line by line. -/

namespace Lox.Main

/-- The bound on the steps of a program: more than any program takes in a lifetime. -/
def fuel : Nat := Nat.pow 2 62

def usage : String := "usage: lox [--log] tokenize|parse [--json] FILE | evaluate FILE | run [FILE]"

/-- A clock that starts at the present time, in seconds since 1970, and goes on by a
microsecond at each reading. -/
def clock : IO (Nat → Float) := do
  let present ← Std.Time.Timestamp.now
  let start := Float.ofInt present.toNanosecondsSinceUnixEpoch.val / 1000000000.0
  pure fun n => start + n.toFloat / 1000000.0

/-- What is found under the name of a file. -/
def look (name : String) : IO FileState := do
  try
    pure (.content (← IO.FS.readBinFile name).toList)
  catch
    | .noFileOrDirectory .. => pure .missing
    | .inappropriateType .. => pure .directory
    | .permissionDenied .. => pure (.barred "Permission denied (os error 13)")
    | e => pure (.barred (toString e))

/-- Writes an answer. -/
def give (r : Response) : IO UInt32 := do
  IO.print r.out
  IO.eprint r.err
  pure r.code.toUInt32

/-- The bytes up to the next line feed or the end of the input. -/
def readLine (input : IO.FS.Stream) : IO (List UInt8) := do
  let mut line := #[]
  repeat
    match (← input.read 1).toList with
    | [] => break
    | b :: _ =>
      line := line.push b
      if b = 0x0A then break
  pure line.toList

/-- Answers one line after the other. -/
def prompt : IO UInt32 := do
  let input ← IO.getStdin
  let output ← IO.getStdout
  let mut session := Session.start .reliable (← clock)
  IO.print Prompt.greeting
  repeat
    IO.print Prompt.cue
    output.flush
    match Prompt.splitLines [] (← readLine input) with
    | [] => return ← give ⟨"\n", "", 0⟩
    | bytes :: _ =>
      match Text.Utf8.decode bytes with
      | .error _ => return ← give (Prompt.unreadable "" "")
      | .ok line =>
        if Prompt.leaves line then return 0
        let some reply := Prompt.reply fuel line session | return 1
        IO.print reply.out
        IO.eprint reply.err
        session := reply.session
  return 0

/-- Creates the log, which opens with the arguments. -/
def openLog (args : List String) : IO Unit :=
  IO.FS.writeFile Command.logFile (String.intercalate " " args ++ "\n")

/-- Answers a command. -/
def execute (args : List String) (command : Command) : IO UInt32 := do
  match command.logFailure? (← look Command.logFile) with
  | some response => give response
  | none =>
    if command.log then openLog args
    match command.file? with
    | none => prompt
    | some name =>
      let state ← look name
      match Command.perform fuel (← clock) (fun _ => state) [] command.task with
      | some response => give response
      | none => pure 1

end Lox.Main

def main (args : List String) : IO UInt32 := do
  match Lox.Command.ofArguments? args with
  | none =>
    IO.eprintln Lox.Main.usage
    pure 2
  | some command => Lox.Main.execute args command
