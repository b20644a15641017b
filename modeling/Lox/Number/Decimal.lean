import Lox.Number.Binary64

/-! # Decimal numbers

A decimal is a natural number with a power of ten. It is what a number literal
writes, and what a double is written as. -/

namespace Lox

/-- The number `digits * 10 ^ exponent`. -/
structure Decimal where
  digits : Nat
  exponent : Int
deriving Repr, DecidableEq

namespace Decimal

/-- The decimal as a fraction. -/
def ratio (d : Decimal) : Binary64.Ratio := .scaled d.digits 10 d.exponent

/-- The bits of the double nearest to a decimal. -/
def nearestBits (d : Decimal) : Nat := d.ratio.nearestBits

/-- The double nearest to a decimal. -/
def toFloat (d : Decimal) : Float := Float.ofBits (UInt64.ofNat d.nearestBits)

/-- The decimal that a run of digits with an optional fraction writes. -/
def ofText (whole fraction : List Char) : Decimal :=
  ⟨Nat.ofDigitChars 10 (whole ++ fraction) 0, -(fraction.length : Int)⟩

/-- Moves zeros at the end of the digits into the exponent, at most `fuel` of them. -/
def stripZeros : Nat → Decimal → Decimal
  | 0, d => d
  | fuel + 1, d =>
    if d.digits ≠ 0 ∧ d.digits % 10 = 0 then stripZeros fuel ⟨d.digits / 10, d.exponent + 1⟩
    else d

/-- The digits as text. -/
def text (d : Decimal) : List Char := Nat.toDigits 10 d.digits

/-- How many digits stand before the point; negative when zeros follow it. -/
def pointAt (d : Decimal) : Int := d.text.length + d.exponent

/-- A decimal with a fraction, written without an exponent. -/
def positional (d : Decimal) : List Char :=
  let point := d.pointAt
  if 0 ≤ d.exponent then d.text ++ List.replicate d.exponent.toNat '0'
  else if 0 < point then d.text.take point.toNat ++ '.' :: d.text.drop point.toNat
  else '0' :: '.' :: (List.replicate (-point).toNat '0' ++ d.text)

end Decimal
end Lox
