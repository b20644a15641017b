import Lox.Number.Shortest

/-! # Writing numbers

A whole number is written with all its digits, any other number with the
shortest digits that read back, both without an exponent. What remains to be
decided is a record: the program has three such formats. A document has a form
of its own, which writes very large and very small numbers scientifically. -/

namespace Lox.Number
open Lox.Binary64

/-- The decisions of a format. -/
structure Format where
  /-- What follows the digits of a whole number. -/
  wholeTail : String
  /-- Whether zero shows its sign. -/
  signedZero : Bool
deriving Repr, DecidableEq

/-- Values show whole numbers without a point. -/
def Format.value : Format := ⟨"", true⟩

/-- Literals in a printed tree always have a point. -/
def Format.literal : Format := ⟨".0", true⟩

/-- Literals in a token listing have a point, and their zero has no sign. -/
def Format.listing : Format := ⟨".0", false⟩

/-- A sign in front of a text. -/
def signed (negative : Bool) (text : List Char) : List Char :=
  if negative then '-' :: text else text

/-- The whole number `significand * 2 ^ exponent`, if it is one. -/
def whole? (significand : Nat) (exponent : Int) : Option Nat :=
  if 0 ≤ exponent then some (significand * Nat.pow 2 exponent.toNat)
  else
    let unit := Nat.pow 2 (-exponent).toNat
    if significand % unit = 0 then some (significand / unit) else none

/-- The bits of a double without its sign. -/
def magnitudeBits (x : Float) : Nat := x.toBits.toNat % Nat.pow 2 63

/-- The text of a double. -/
def Format.write (f : Format) (x : Float) : String :=
  match parts x with
  | .nan => "NaN"
  | .infinite negative => String.ofList (signed negative "inf".toList)
  | .finite negative significand exponent =>
    match whole? significand exponent with
    | some n =>
      String.ofList (signed (negative && (f.signedZero || n ≠ 0)) (Nat.toDigits 10 n))
        ++ f.wholeTail
    | none =>
      let d := Decimal.shortest .up (magnitudeBits x) significand exponent
      String.ofList (signed negative d.positional)

/-- The form `d.dddde±x`. -/
def scientific (d : Decimal) : List Char :=
  let exponent := d.pointAt - 1
  let mantissa := match d.text with
    | first :: second :: more => first :: '.' :: second :: more
    | digits => digits
  let sign := if exponent < 0 then '-' else '+'
  mantissa ++ 'e' :: sign :: Nat.toDigits 10 exponent.natAbs

/-- The form of a positive number in a document: positional from `0.00001` up
to, and without, `10 ^ 16`, with at least one digit after the point. -/
def documentForm (d : Decimal) : List Char :=
  let point := d.pointAt
  if -5 < point ∧ point ≤ 16 then
    if 0 ≤ d.exponent then d.positional ++ ['.', '0'] else d.positional
  else scientific d

/-- A double in a document; one that is not finite has no form there. -/
def document? (x : Float) : Option String :=
  match parts x with
  | .nan | .infinite _ => none
  | .finite negative significand exponent =>
    if significand = 0 then some (String.ofList (signed negative "0.0".toList))
    else
      let d := Decimal.shortest .toEven (magnitudeBits x) significand exponent
      some (String.ofList (signed negative (documentForm d)))

end Lox.Number
