/-! # Commands

The arguments of the command line, as what they ask for. -/

namespace Lox

/-- What is asked for. -/
inductive Task where
  /-- The tokens of a file, one a line or as a document. -/
  | tokenize (file : String) (json : Bool)
  /-- The syntax trees of a file, one a line or as a document. -/
  | parse (file : String) (json : Bool)
  /-- The value of a file that is one expression. -/
  | evaluate (file : String)
  /-- A file as a program. -/
  | run (file : String)
  /-- Programs as they are typed. -/
  | prompt
deriving Repr, DecidableEq

/-- A whole command line. -/
structure Command where
  task : Task
  /-- Whether a log is kept. -/
  log : Bool
deriving Repr, DecidableEq

namespace Command

/-- The names under which tasks are asked for. -/
inductive Verb where
  | tokenize
  | parse
  | evaluate
  | run
deriving Repr, DecidableEq

/-- The verb that a word is. -/
def Verb.ofText? : String → Option Verb
  | "tokenize" => some .tokenize
  | "parse" => some .parse
  | "evaluate" => some .evaluate
  | "run" => some .run
  | _ => none

/-- What has been read of the arguments. The log can be asked for once before the
verb and once after it. -/
structure Draft where
  verb : Option Verb
  file : Option String
  json : Bool
  logBefore : Bool
  logAfter : Bool
  /-- Only names follow. -/
  namesOnly : Bool

/-- Nothing has been read. -/
def Draft.blank : Draft := ⟨none, none, false, false, false, false⟩

/-- Takes a word that is a verb or a file name. -/
def Draft.takeName (d : Draft) (word : String) : Option Draft :=
  match d.verb, d.file with
  | none, _ => (Verb.ofText? word).map fun verb => { d with verb := some verb }
  | some _, none => some { d with file := some word }
  | some _, some _ => none

/-- Takes the wish for a log. -/
def Draft.takeLog (d : Draft) : Option Draft :=
  match d.verb with
  | none => if d.logBefore then none else some { d with logBefore := true }
  | some _ => if d.logAfter then none else some { d with logAfter := true }

/-- Takes the wish for a document, which two verbs can fulfil. -/
def Draft.takeJson (d : Draft) : Option Draft :=
  match d.verb with
  | some .tokenize | some .parse => if d.json then none else some { d with json := true }
  | _ => none

/-- Takes the mark after which only file names follow. A verb cannot come after it. -/
def Draft.takeMark (d : Draft) : Option Draft :=
  if d.verb.isNone then none else some { d with namesOnly := true }

/-- Takes an argument. -/
def Draft.take (d : Draft) (word : String) : Option Draft :=
  if d.namesOnly then d.takeName word
  else if word = "--" then d.takeMark
  else if word = "--log" then d.takeLog
  else if word = "--json" then d.takeJson
  else if word.startsWith "-" && word ≠ "-" then none
  else d.takeName word

/-- The task that has been read. -/
def Draft.task? (d : Draft) : Option Task :=
  match d.verb, d.file with
  | some .tokenize, some file => some (.tokenize file d.json)
  | some .parse, some file => some (.parse file d.json)
  | some .evaluate, some file => some (.evaluate file)
  | some .run, some file => some (.run file)
  | some .run, none => some .prompt
  | _, _ => none

/-- The command that the arguments ask for. -/
def ofArguments? (args : List String) : Option Command := do
  let d ← args.foldlM Draft.take .blank
  let task ← d.task?
  pure ⟨task, d.logBefore || d.logAfter⟩

/-- The file that a task reads. -/
def file? (c : Command) : Option String :=
  match c.task with
  | .tokenize file _ | .parse file _ | .evaluate file | .run file => some file
  | .prompt => none

end Command
end Lox
