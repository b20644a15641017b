/-! # Double precision numbers as fractions

A finite double is a whole number of steps of a power of two. This file takes
a double apart into sign, significand and exponent, and finds the double that
is nearest to a fraction, with ties to the even significand. Both directions
work on natural numbers only. -/

namespace Lox.Binary64

/-- The least exponent of a double: one step of the subnormal numbers. -/
def leastExponent : Int := -1074

/-- The bits of positive infinity. -/
def infinityBits : Nat := 0x7FF * Nat.pow 2 52

/-- A double, taken apart. -/
inductive Parts where
  /-- The number `significand * 2 ^ exponent`, with its sign. -/
  | finite (negative : Bool) (significand : Nat) (exponent : Int)
  | infinite (negative : Bool)
  | nan
deriving Repr, DecidableEq

/-- The parts of the double with the given bits. -/
def Parts.ofBits (bits : Nat) : Parts :=
  let negative := decide (Nat.pow 2 63 ≤ bits % Nat.pow 2 64)
  let biased := bits / Nat.pow 2 52 % Nat.pow 2 11
  let fraction := bits % Nat.pow 2 52
  if biased = 0x7FF then (if fraction = 0 then .infinite negative else .nan)
  else if biased = 0 then .finite negative fraction leastExponent
  else .finite negative (fraction + Nat.pow 2 52) (leastExponent + (biased - 1 : Nat))

/-- The parts of a double. -/
def parts (x : Float) : Parts := .ofBits x.toBits.toNat

/-- A fraction of natural numbers with a positive denominator. -/
structure Ratio where
  num : Nat
  den : Nat
deriving Repr, DecidableEq

/-- The fraction `n * base ^ exponent`. -/
def Ratio.scaled (n base : Nat) (exponent : Int) : Ratio :=
  if 0 ≤ exponent then ⟨n * Nat.pow base exponent.toNat, 1⟩
  else ⟨n, Nat.pow base (-exponent).toNat⟩

/-- A fraction divided by `base ^ exponent`. -/
def Ratio.shrink (r : Ratio) (base : Nat) (exponent : Int) : Ratio :=
  if 0 ≤ exponent then ⟨r.num, r.den * Nat.pow base exponent.toNat⟩
  else ⟨r.num * Nat.pow base (-exponent).toNat, r.den⟩

/-- The whole number next to a fraction; of two that are equally near, the even one. -/
def Ratio.round (r : Ratio) : Nat :=
  let whole := r.num / r.den
  let twice := 2 * (r.num % r.den)
  if twice < r.den then whole
  else if r.den < twice then whole + 1
  else whole + whole % 2

/-- The exponent of the doubles around a positive fraction: with it, the
significand takes 53 bits, or fewer when the fraction is subnormal. -/
def Ratio.exponent (r : Ratio) : Int :=
  let order : Int := (r.num.log2 : Int) - (r.den.log2 : Int)
  let lower := r.shrink 2 order
  let normal := if lower.den ≤ lower.num then order - 52 else order - 53
  max normal leastExponent

/-- The bits of the double nearest to a fraction. A significand that rounds up
to the next power of two carries into the exponent by itself, since the bits
of successive doubles are successive numbers. -/
def Ratio.nearestBits (r : Ratio) : Nat :=
  if r.num = 0 then 0
  else
    let exponent := r.exponent
    let significand := (r.shrink 2 exponent).round
    min ((exponent - leastExponent).toNat * Nat.pow 2 52 + significand) infinityBits

end Lox.Binary64
