import Lox.Number.Decimal

/-! # The shortest decimal that reads back

A double is written with the fewest digits that are read as the same double.
For each count of digits there are two candidates, the neighbours of the
number on that decimal grid; a candidate counts only if the reader of decimals
gives the double back. Of two candidates the nearer one is taken. Seventeen
digits are enough for every double; the exact expansion stands behind them, so
that the result reads back without that fact. -/

namespace Lox.Decimal
open Lox.Binary64

/-- Which of two equally near candidates is written. -/
inductive Tie where
  | toEven
  | up
deriving Repr, DecidableEq

/-- The upper of the candidates `low` and `low + 1` wins a tie. -/
def Tie.takesUpper (tie : Tie) (low : Nat) : Bool :=
  match tie with
  | .toEven => low % 2 = 1
  | .up => true

/-- The number of digits before the point of a positive fraction: the least
`k` with `r < 10 ^ k`. The logarithm to base two gives it up to one. -/
def magnitude (r : Ratio) : Int :=
  let order : Int := (r.num.log2 : Int) - (r.den.log2 : Int)
  let guess := (order - 1) * 30103 / 100000
  let fits (k : Int) : Bool :=
    let rest := r.shrink 10 k
    rest.num < rest.den
  if fits guess then guess
  else if fits (guess + 1) then guess + 1
  else guess + 2

/-- The best candidate with `count` digits, if one reads back as `bits`. -/
def candidate (tie : Tie) (bits : Nat) (r : Ratio) (count : Nat) : Option Decimal :=
  let exponent := magnitude r - count
  let grid := r.shrink 10 exponent
  let low := grid.num / grid.den
  let twice := 2 * (grid.num % grid.den)
  let lower : Decimal := ⟨low, exponent⟩
  let upper : Decimal := ⟨low + 1, exponent⟩
  let upperNearer :=
    if twice < grid.den then false
    else if grid.den < twice then true
    else tie.takesUpper low
  match decide (lower.nearestBits = bits), decide (upper.nearestBits = bits) with
  | true, true => some (if upperNearer then upper else lower)
  | true, false => some lower
  | false, true => some upper
  | false, false => none

/-- The number `significand * 2 ^ exponent` with all its digits. -/
def exact (significand : Nat) (exponent : Int) : Decimal :=
  if 0 ≤ exponent then ⟨significand * Nat.pow 2 exponent.toNat, 0⟩
  else ⟨significand * Nat.pow 5 (-exponent).toNat, exponent⟩

/-- The shortest decimal of the double `significand * 2 ^ exponent` with the given bits. -/
def shortest (tie : Tie) (bits significand : Nat) (exponent : Int) : Decimal :=
  let r := Ratio.scaled significand 2 exponent
  let found := (List.range' 1 17).findSome? (candidate tie bits r)
  (found.getD (exact significand exponent)).stripZeros 20

end Lox.Decimal
