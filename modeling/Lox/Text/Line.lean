/-! # Byte offsets in a text

Places in a text are counted in UTF-8 bytes, while the text itself is read as
a list of characters. This file holds the width of characters and the search
for the line on which a byte offset stands. -/

namespace Lox.Text

/-- The number of UTF-8 bytes that a list of characters takes. -/
def width : List Char → Nat
  | [] => 0
  | c :: cs => c.utf8Size + width cs

@[simp] theorem width_nil : width [] = 0 := rfl

@[simp] theorem width_cons (c : Char) (cs : List Char) :
    width (c :: cs) = c.utf8Size + width cs := rfl

@[simp] theorem width_append (as bs : List Char) :
    width (as ++ bs) = width as + width bs := by
  induction as with
  | nil => simp
  | cons a as ih => simp [ih, Nat.add_assoc]

theorem width_ofList (cs : List Char) : width cs = (String.ofList cs).utf8ByteSize := by
  induction cs with
  | nil => simp [String.ofList_nil]
  | cons c cs ih =>
    have split : String.ofList (c :: cs) = String.ofList [c] ++ String.ofList cs := by
      rw [← String.ofList_append]; rfl
    have one : (String.ofList [c]).utf8ByteSize = c.utf8Size := by
      rw [← String.singleton_eq_ofList, String.utf8ByteSize_singleton]
    rw [width_cons, ih, split, String.utf8ByteSize_append, one]

/-- A text is as wide as it has bytes. -/
@[simp] theorem width_toList (s : String) : width s.toList = s.utf8ByteSize := by
  rw [width_ofList, String.ofList_toList]

/-- The width of a prefix, added to a running count. It is `width`, in a form
that runs in constant stack space. -/
def widthFrom (total : Nat) : List Char → Nat
  | [] => total
  | c :: cs => widthFrom (total + c.utf8Size) cs

theorem widthFrom_eq (total : Nat) (cs : List Char) : widthFrom total cs = total + width cs := by
  induction cs generalizing total with
  | nil => rfl
  | cons c cs ih => simp [widthFrom, ih, Nat.add_assoc]

/-- A line of a text: its number, counted from one, the byte offset at which
it starts, and everything from there to the end of the text. -/
structure Line where
  number : Nat
  start : Nat
  tail : List Char
deriving Repr, DecidableEq

/-- The line on which `offset` stands, where `here` is the line of the
character at byte `byte`. A line break belongs to the line that it ends. -/
def lineFrom (offset byte : Nat) (here : Line) : List Char → Line
  | [] => here
  | c :: cs =>
    if offset ≤ byte then here
    else if c = '\n' then lineFrom offset (byte + 1) ⟨here.number + 1, byte + 1, cs⟩ cs
    else lineFrom offset (byte + c.utf8Size) here cs

/-- The line on which a byte offset stands. An offset past the end stands on
the last line. -/
def lineAt (source : String) (offset : Nat) : Line :=
  lineFrom offset 0 ⟨1, 0, source.toList⟩ source.toList

/-- What the line shows: everything up to its break, without the carriage
returns that stand before it. -/
def Line.text (line : Line) : List Char :=
  ((line.tail.takeWhile (· ≠ '\n')).reverse.dropWhile (· = '\r')).reverse

/-- The number of characters that take exactly `bytes` bytes at the head of a
text, and nothing when the count ends inside a character or past the end. -/
def charactersIn (count bytes : Nat) : List Char → Option Nat
  | [] => if bytes = 0 then some count else none
  | c :: cs =>
    if bytes = 0 then some count
    else if bytes < c.utf8Size then none
    else charactersIn (count + 1) (bytes - c.utf8Size) cs

end Lox.Text
