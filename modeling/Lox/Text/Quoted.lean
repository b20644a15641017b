import Lox.Text.Printable

/-! # Quoted names

A file name in a message stands in quotes, with everything escaped that would
not show or would end the quotes. -/

namespace Lox.Text

/-- A character of a quoted name. -/
def escapeQuoted (c : Char) : List Char :=
  match c with
  | '\x00' => ['\\', '0']
  | '\t' => ['\\', 't']
  | '\r' => ['\\', 'r']
  | '\n' => ['\\', 'n']
  | '"' => ['\\', '"']
  | '\\' => ['\\', '\\']
  | c =>
    if isPrintable c then [c]
    else '\\' :: 'u' :: '\x7b' :: (Nat.toDigits 16 c.toNat ++ ['\x7d'])

/-- A name in quotes. -/
def quoted (name : String) : String :=
  "\"" ++ String.ofList (name.toList.flatMap escapeQuoted) ++ "\""

end Lox.Text
