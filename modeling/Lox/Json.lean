import Lox.Number.Format

/-! # JSON documents

The dumps of tokens and syntax trees are JSON documents. A document is a value
of its own here, with a printer on one line and a printer with indentation. -/

namespace Lox

/-- A JSON document. The fields of an object stand in the order of writing. -/
inductive Json where
  | null
  | bool (value : Bool)
  | natural (value : Nat)
  | float (value : Float)
  | string (value : String)
  | array (items : List Json)
  | object (fields : List (String × Json))

namespace Json

/-- A digit of the lower case hexadecimal system. -/
def hexDigit (n : Nat) : Char := Nat.digitChar (n % 16)

/-- A character inside a quoted string. -/
def escape (c : Char) : List Char :=
  if c = '"' then ['\\', '"']
  else if c = '\\' then ['\\', '\\']
  else if c = '\n' then ['\\', 'n']
  else if c = '\r' then ['\\', 'r']
  else if c = '\t' then ['\\', 't']
  else if c = '\x08' then ['\\', 'b']
  else if c = '\x0c' then ['\\', 'f']
  else if c.toNat < 0x20 then
    ['\\', 'u', '0', '0', hexDigit (c.toNat / 16), hexDigit c.toNat]
  else [c]

/-- A quoted string. -/
def quote (s : String) : String :=
  "\"" ++ String.ofList (s.toList.flatMap escape) ++ "\""

/-- A document that has no parts. -/
def leaf? : Json → Option String
  | null => some "null"
  | bool value => some (if value then "true" else "false")
  | natural value => some (toString value)
  | float value => some ((Number.document? value).getD "null")
  | string value => some (quote value)
  | array [] => some "[]"
  | object [] => some "\x7b\x7d"
  | _ => none

mutual

/-- A document on one line, without spaces, added to `out`. -/
def compactTo (out : String) : Json → String
  | array (item :: items) => compactItems (compactTo (out ++ "[") item) items ++ "]"
  | object ((name, value) :: fields) =>
    compactFields (compactTo (out ++ "\x7b" ++ quote name ++ ":") value) fields ++ "\x7d"
  | document => out ++ (leaf? document).getD ""

/-- The items after the first one. -/
def compactItems (out : String) : List Json → String
  | [] => out
  | item :: items => compactItems (compactTo (out ++ ",") item) items

/-- The fields after the first one. -/
def compactFields (out : String) : List (String × Json) → String
  | [] => out
  | (name, value) :: fields =>
    compactFields (compactTo (out ++ "," ++ quote name ++ ":") value) fields

end

/-- A document on one line. -/
def compact (document : Json) : String := compactTo "" document

/-- A line break and the indentation of a level. -/
def breakLine (level : Nat) : String := String.ofList ('\n' :: List.replicate (2 * level) ' ')

mutual

/-- A document with a line for each item and field, two spaces deeper than what
holds it, added to `out`. -/
def prettyTo (level : Nat) (out : String) : Json → String
  | array (item :: items) =>
    let opened := prettyTo (level + 1) (out ++ "[" ++ breakLine (level + 1)) item
    prettyItems level opened items ++ breakLine level ++ "]"
  | object ((name, value) :: fields) =>
    let opened :=
      prettyTo (level + 1) (out ++ "\x7b" ++ breakLine (level + 1) ++ quote name ++ ": ") value
    prettyFields level opened fields ++ breakLine level ++ "\x7d"
  | document => out ++ (leaf? document).getD ""

/-- The items after the first one. -/
def prettyItems (level : Nat) (out : String) : List Json → String
  | [] => out
  | item :: items =>
    prettyItems level (prettyTo (level + 1) (out ++ "," ++ breakLine (level + 1)) item) items

/-- The fields after the first one. -/
def prettyFields (level : Nat) (out : String) : List (String × Json) → String
  | [] => out
  | (name, value) :: fields =>
    let opened := out ++ "," ++ breakLine (level + 1) ++ quote name ++ ": "
    prettyFields level (prettyTo (level + 1) opened value) fields

end

/-- A document with indentation. -/
def pretty (document : Json) : String := prettyTo 0 "" document

end Json
end Lox
