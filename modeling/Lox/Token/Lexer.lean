import Lox.Diagnostic
import Lox.Number.Decimal
import Lox.Token

/-! # Reading tokens

A text is cut into pieces from the left, each as long as its kind allows. A
piece is a token, blank space or a comment, or a fault. Every piece takes at
least one character, so cutting ends; a fault does not stop it. -/

namespace Lox.Lexer

/-- What stands at the head of a text. -/
inductive Piece where
  /-- Blank space or a comment. -/
  | blank
  | token (kind : TokenKind)
  /-- A character with which no token starts. -/
  | unexpected (c : Char)
  /-- A string without its closing quote. -/
  | openString
  /-- A block comment without its end. -/
  | openComment
deriving DecidableEq

/-- The piece at the head of a text, and how many characters it takes after
the first one. -/
structure Cut where
  piece : Piece
  extra : Nat
deriving DecidableEq

/-- The symbols of one character with which no longer symbol starts. -/
def single? (c : Char) : Option Symbol :=
  match c with
  | '(' => some .leftParen
  | ')' => some .rightParen
  | '\x7b' => some .leftBrace
  | '\x7d' => some .rightBrace
  | ',' => some .comma
  | '.' => some .dot
  | '-' => some .minus
  | '+' => some .plus
  | ';' => some .semicolon
  | '*' => some .star
  | _ => none

/-- The symbols that an equals sign prolongs: alone, and with it. -/
def prolonged? (c : Char) : Option (Symbol × Symbol) :=
  match c with
  | '!' => some (.bang, .bangEqual)
  | '=' => some (.equal, .equalEqual)
  | '<' => some (.less, .lessEqual)
  | '>' => some (.greater, .greaterEqual)
  | _ => none

/-- The characters that only separate tokens. -/
def isBlank (c : Char) : Bool := c = ' ' || c = '\r' || c = '\t' || c = '\n'

/-- The characters with which a word starts. -/
def startsWord (c : Char) : Bool := c.isAlpha || c = '_'

/-- The characters that go on with a word. -/
def inWord (c : Char) : Bool := c.isAlphanum || c = '_'

/-- The number of characters up to the end of a block comment, added to `count`. -/
def commentEnd (count : Nat) : List Char → Option Nat
  | [] => none
  | '*' :: '/' :: _ => some (count + 2)
  | _ :: cs => commentEnd (count + 1) cs

/-- A piece that starts with a slash. -/
def cutSlash (cs : List Char) : Cut :=
  match cs with
  | '/' :: rest => ⟨.blank, 1 + (rest.takeWhile (· ≠ '\n')).length⟩
  | '*' :: rest =>
    match commentEnd 0 rest with
    | some n => ⟨.blank, 1 + n⟩
    | none => ⟨.openComment, cs.length⟩
  | _ => ⟨.token (.symbol .slash), 0⟩

/-- A piece that starts with a quote. -/
def cutString (cs : List Char) : Cut :=
  let inside := cs.takeWhile (· ≠ '"')
  match cs.dropWhile (· ≠ '"') with
  | [] => ⟨.openString, cs.length⟩
  | _ :: _ => ⟨.token (.string (String.ofList inside)), inside.length + 1⟩

/-- The token of a number literal. -/
def numberToken (whole fraction : List Char) : Piece :=
  .token (.number (Decimal.ofText whole fraction).toFloat)

/-- A piece that starts with the digit `c`. A point belongs to the number only
if a digit follows it. -/
def cutNumber (c : Char) (cs : List Char) : Cut :=
  let whole := cs.takeWhile Char.isDigit
  match cs.dropWhile Char.isDigit with
  | '.' :: rest =>
    match rest.takeWhile Char.isDigit with
    | [] => ⟨numberToken (c :: whole) [], whole.length⟩
    | fraction => ⟨numberToken (c :: whole) fraction, whole.length + 1 + fraction.length⟩
  | _ => ⟨numberToken (c :: whole) [], whole.length⟩

/-- The kind of a word. -/
def wordKind (word : String) : TokenKind :=
  match Keyword.ofText? word with
  | some k => .keyword k
  | none => .identifier

/-- A piece that starts with the letter `c`. -/
def cutWord (c : Char) (cs : List Char) : Cut :=
  let more := cs.takeWhile inWord
  ⟨.token (wordKind (String.ofList (c :: more))), more.length⟩

/-- The piece at the head of the text `c :: cs`. -/
def cut (c : Char) (cs : List Char) : Cut :=
  match single? c with
  | some s => ⟨.token (.symbol s), 0⟩
  | none =>
    match prolonged? c with
    | some (alone, withEqual) =>
      if cs.head? = some '=' then ⟨.token (.symbol withEqual), 1⟩ else ⟨.token (.symbol alone), 0⟩
    | none =>
      if isBlank c then ⟨.blank, 0⟩
      else if c = '/' then cutSlash cs
      else if c = '"' then cutString cs
      else if c.isDigit then cutNumber c cs
      else if startsWord c then cutWord c cs
      else ⟨.unexpected c, 0⟩

/-- What the reading of a text yields. -/
inductive Item where
  | token (token : Token)
  | fault (error : LexicalError) (span : Span)
deriving DecidableEq

/-- A fault as a diagnostic. -/
def faultDiagnostic (error : LexicalError) (span : Span) : Diagnostic :=
  .located (.lexical error) span

/-- The item of a piece that stands between two offsets. A string that is not
closed is missed at its end, a comment at its opening. -/
def Piece.item? (piece : Piece) (lexeme : List Char) (start stop : Nat) : Option Item :=
  match piece with
  | .blank => none
  | .token kind => some (.token ⟨kind, String.ofList lexeme, ⟨start, stop⟩⟩)
  | .unexpected c => some (.fault (.unexpectedCharacter c) ⟨start, stop⟩)
  | .openString => some (.fault .unterminatedString (.point stop))
  | .openComment => some (.fault .unterminatedComment ⟨start, start + 2⟩)

/-- What the reading of a whole text yields, and where the text ends. -/
structure Scan where
  items : Array Item
  finish : Nat

/-- Reads the text that stands at `offset`, after `items` have been read. -/
def scanFrom (offset : Nat) (items : Array Item) : List Char → Scan
  | [] => ⟨items, offset⟩
  | c :: cs =>
    let head := cut c cs
    let lexeme := c :: cs.take head.extra
    let stop := Text.widthFrom offset lexeme
    let items := match head.piece.item? lexeme offset stop with
      | some item => items.push item
      | none => items
    scanFrom stop items (cs.drop head.extra)
termination_by cs => cs.length
decreasing_by simp only [List.length_drop, List.length_cons]; omega

/-- Reads a text. -/
def scan (source : String) : Scan := scanFrom 0 #[] source.toList

namespace Scan

/-- The tokens, without the faults. -/
def tokens (s : Scan) : TokenStream :=
  ⟨s.items.toList.filterMap fun item => match item with
    | .token t => some t
    | .fault _ _ => none, s.finish⟩

/-- The faults, as diagnostics. -/
def faults (s : Scan) : Array Diagnostic :=
  s.items.filterMap fun item => match item with
    | .token _ => none
    | .fault error span => some (faultDiagnostic error span)

end Scan
end Lox.Lexer
