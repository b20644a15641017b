import Lox.Command.Response
import Lox.Session

/-! # The prompt

The prompt reads lines and runs each as an input of one session. Two words
leave it, and so does the end of the input. -/

namespace Lox.Prompt

/-- What the prompt says first. -/
def greeting : String := "Lox REPL. Type exit() or quit to leave.\n"

/-- What it says before each line. -/
def cue : String := "> "

/-- The lines that leave the prompt. -/
def leaves (line : String) : Bool := line = "exit()" || line = "quit"

/-- What a line yields: on the standard output, on the error output, and the
session after it. -/
structure Reply where
  out : String
  err : String
  session : Session

/-- The reply to a line. There is none when its program does not end within `fuel` steps. -/
def reply (fuel : Nat) (line : String) (s : Session) : Option Reply :=
  let written := s.machine.sink.lines.size
  (s.run fuel line).map fun (report, after) =>
    ⟨after.machine.sink.textFrom written, Response.reportText report line, after⟩

/-- A line of the input without its end: a line feed, or a carriage return and
a line feed. -/
def trimEnd (reversed : List UInt8) : List UInt8 :=
  match reversed with
  | 0x0D :: more => more.reverse
  | _ => reversed.reverse

/-- The lines of an input; `open_` holds the bytes of the present line, last first. -/
def splitLines (open_ : List UInt8) : List UInt8 → List (List UInt8)
  | [] => if open_.isEmpty then [] else [open_.reverse]
  | 0x0A :: rest => trimEnd open_ :: splitLines [] rest
  | b :: rest => splitLines (b :: open_) rest

/-- The answer to a line that is no text. -/
def unreadable (out err : String) : Response :=
  ⟨out, err ++ Response.failureText "Failed to read from stdin"
    "stream did not contain valid UTF-8", Response.failureCode⟩

/-- The whole dialogue over the lines of an input, after what has been written. -/
def dialogue (fuel : Nat) (out err : String) (s : Session) : List (List UInt8) → Option Response
  | [] => some ⟨out ++ cue ++ "\n", err, 0⟩
  | bytes :: rest =>
    match Text.Utf8.decode bytes with
    | .error _ => some (unreadable (out ++ cue) err)
    | .ok line =>
      if leaves line then some ⟨out ++ cue, err, 0⟩
      else
        match reply fuel line s with
        | none => none
        | some r => dialogue fuel (out ++ cue ++ r.out) (err ++ r.err) r.session rest

end Lox.Prompt
