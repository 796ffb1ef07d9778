/-!
# Binary64 values

The finite binary64 numbers, as a sign and an exact magnitude `significand · 2 ^ exponent`.  The
operations compute an exact quotient of naturals and round it once, to the nearest value with ties
to the even significand (`nearest`).

A magnitude is kept in one form: the significand is below `2 ^ 53`, and it is at least `2 ^ 52`
unless the exponent is the least one, `-1074`.
-/

namespace ContractBindings.Decimal

/-- A magnitude `significand · 2 ^ exponent`. -/
structure Magnitude where
  significand : Nat
  exponent : Int
  deriving DecidableEq, Repr, Inhabited

namespace Magnitude

def minExponent : Int := -1074

def maxExponent : Int := 971

/-- The limit `2 ^ 53` below which all significands are. -/
def significandLimit : Nat := 9007199254740992

/-- The limit `2 ^ 52` below which significands are at the least exponent only. -/
def normalLimit : Nat := 4503599627370496

def zero : Magnitude := ⟨0, minExponent⟩

/-- The magnitude as a quotient of naturals. -/
def ratio (x : Magnitude) : Nat × Nat :=
  if 0 ≤ x.exponent then (x.significand * Nat.pow 2 x.exponent.toNat, 1)
  else (x.significand, Nat.pow 2 (-x.exponent).toNat)

/-- The quotient rounded to the nearest natural, ties to even. -/
def roundQuotient (num den : Nat) : Nat :=
  let quotient := num / den
  let twice := 2 * (num % den)
  if twice < den then quotient
  else if den < twice then quotient + 1
  else if quotient % 2 = 0 then quotient
  else quotient + 1

/-- The exponent at which `num / den` has a significand of 53 bits, or the least one. -/
def exponentOf (num den : Nat) : Int :=
  let guess : Int := (Nat.log2 num : Int) - (Nat.log2 den : Int) - 53
  let scaled (e : Int) : Nat × Nat :=
    if 0 ≤ e then (num, den * Nat.pow 2 e.toNat) else (num * Nat.pow 2 (-e).toNat, den)
  let fits (e : Int) : Bool := let (n, d) := scaled e; n < d * significandLimit
  max minExponent (if fits guess then guess else guess + 1)

/-- The magnitude nearest to `num / den`; `none` above the greatest one.  `den` is positive. -/
def nearest (num den : Nat) : Option Magnitude :=
  if num = 0 then some zero
  else
    let e := exponentOf num den
    let m :=
      if 0 ≤ e then roundQuotient num (den * Nat.pow 2 e.toNat)
      else roundQuotient (num * Nat.pow 2 (-e).toNat) den
    let x : Magnitude := if m = significandLimit then ⟨normalLimit, e + 1⟩ else ⟨m, e⟩
    if maxExponent < x.exponent then none else some x

/-- The magnitude nearest to a natural. -/
def ofNat (n : Nat) : Option Magnitude := nearest n 1

/-- The product, rounded once. -/
def mul (x y : Magnitude) : Option Magnitude :=
  nearest (x.ratio.1 * y.ratio.1) (x.ratio.2 * y.ratio.2)

/-- The quotient by a magnitude that is not zero, rounded once. -/
def div (x y : Magnitude) : Option Magnitude :=
  nearest (x.ratio.1 * y.ratio.2) (x.ratio.2 * y.ratio.1)

/-- The magnitude nearest to a power of ten. -/
def tenPow (k : Nat) : Option Magnitude := ofNat (Nat.pow 10 k)

end Magnitude

/-- A finite binary64 number.  Zero has two signs. -/
structure Binary64 where
  negative : Bool
  magnitude : Magnitude
  deriving DecidableEq, Repr, Inhabited

namespace Binary64

open Magnitude

/-- The number of decimal digits of a natural. -/
def digitCount (n : Nat) : Nat := (Nat.toDigits 10 n).length

/--
The number nearest to `digits · 10 ^ exponent`; `none` beyond the greatest number.  What is far outside
the range is decided without computing the power.
-/
def ofDecimal (negative : Bool) (digits : Nat) (exponent : Int) : Option Binary64 :=
  let lead : Int := exponent + digitCount digits
  if digits = 0 ∨ lead < -400 then some ⟨negative, zero⟩
  else if 400 < lead then none
  else if 0 ≤ exponent then (nearest (digits * Nat.pow 10 exponent.toNat) 1).map (⟨negative, ·⟩)
  else (nearest digits (Nat.pow 10 (-exponent).toNat)).map (⟨negative, ·⟩)

/--
Scales by powers of ten in few roundings: one multiplication or division by the nearest power where
the exponent is at most 308, and before it a division by `10 ^ 308` for every further 308 below.
`none` beyond the greatest number.
-/
def scale (x : Magnitude) (exponent : Int) : Nat → Option Magnitude
  | 0 => some x
  | rounds + 1 =>
    if exponent.natAbs ≤ 308 then do
      let power ← tenPow exponent.natAbs
      if 0 ≤ exponent then x.mul power else x.div power
    else if x.significand = 0 then some x
    else if 0 ≤ exponent then none
    else do
      let power ← tenPow 308
      scale (← x.div power) (exponent + 308) rounds

/--
The number that quick reading gives for `digits · 10 ^ exponent`: the digits are rounded first, then
scaled.  It may be one unit in the last place off the nearest number.  A zero is reached after three
divisions, as `digits` is below `2 ^ 64`.
-/
def ofDecimalQuick (negative : Bool) (digits : Nat) (exponent : Int) : Option Binary64 := do
  let x ← ofNat digits
  (scale x exponent 4).map (⟨negative, ·⟩)

end Binary64

end ContractBindings.Decimal
