import ContractBindings.Decimal.Binary64

/-!
# Shortest decimals

The decimal with the fewest digits among those that round to a given binary64 magnitude, and of
those the nearest to it.  All comparisons are exact comparisons of naturals.

For `n = 1, 2, …` digits the two points of the decimal grid next to the magnitude are tried; the
first grid with a point inside the rounding interval wins.  If any point of a grid lies in the
interval, one of these two does.
-/

namespace ContractBindings.Decimal

/-- The decimal `d₁.d₂d₃… · 10 ^ exponent`, digits with the most significant first. -/
structure Digits where
  digits : List Nat
  exponent : Int
  deriving DecidableEq, Repr, Inhabited

namespace Magnitude

/--
The decimals that round to a magnitude, in quarters of its last place: from `4m - 2` to `4m + 2`, but
from `4m - 1` where the next smaller significand has a finer last place.  The ends belong to it when
the significand is even.
-/
structure RoundingInterval where
  low : Nat
  value : Nat
  high : Nat
  closed : Bool

def roundingInterval (x : Magnitude) : RoundingInterval :=
  let m := x.significand
  let finer := m = normalLimit ∧ minExponent < x.exponent
  { low := if finer then 4 * m - 1 else 4 * m - 2
    value := 4 * m
    high := 4 * m + 2
    closed := m % 2 = 0 }

/-- The exponent of the leading decimal digit of `num / den`. -/
def leadingExponent (num den : Nat) : Int :=
  let guess : Int := (Binary64.digitCount num : Int) - (Binary64.digitCount den : Int)
  let reaches : Bool :=
    if 0 ≤ guess then den * Nat.pow 10 guess.toNat ≤ num else den ≤ num * Nat.pow 10 (-guess).toNat
  if reaches then guess else guess - 1

/--
The better of the two grid points around the magnitude among those in its rounding interval.  A point
`q` of the grid stands for `q · num / den`, in the units of the interval.
-/
def gridPoint (interval : RoundingInterval) (num den : Nat) : Option Nat :=
  let below := interval.value * den / num
  let above := below + 1
  let belowIn :=
    if interval.closed then interval.low * den ≤ below * num else interval.low * den < below * num
  let aboveIn :=
    if interval.closed then above * num ≤ interval.high * den else above * num < interval.high * den
  let toBelow := interval.value * den - below * num
  let toAbove := above * num - interval.value * den
  match decide belowIn, decide aboveIn with
  | true, true =>
    if toBelow < toAbove then some below
    else if toAbove < toBelow then some above
    else if below % 2 = 0 then some below
    else some above
  | true, false => some below
  | false, true => some above
  | false, false => none

/-- The first grid with a point in the interval, from `count` digits on. -/
def searchGrid (interval : RoundingInterval) (unit : Nat × Nat) (leading : Int) (count : Nat) :
    Nat → Option (Nat × Int)
  | 0 => none
  | tries + 1 =>
    let place : Int := leading - (count : Int) + 1
    let (num, den) :=
      if 0 ≤ place then (Nat.pow 10 place.toNat * unit.2, unit.1)
      else (unit.2, unit.1 * Nat.pow 10 (-place).toNat)
    match gridPoint interval num den with
    | some q => some (q, place)
    | none => searchGrid interval unit leading (count + 1) tries

/-- The digits of a natural without the zeros at its end. -/
def significantDigits (n : Nat) : List Nat :=
  (((Nat.toDigits 10 n).reverse.dropWhile (· == '0')).reverse).map fun c => c.toNat - 48

/-- The shortest decimal that rounds to the magnitude; seventeen digits always suffice. -/
def shortest (x : Magnitude) : Digits :=
  if x.significand = 0 then ⟨[0], 0⟩
  else
    let (num, den) := x.ratio
    let unit : Nat × Nat :=
      if 2 ≤ x.exponent then (Nat.pow 2 (x.exponent - 2).toNat, 1)
      else (1, Nat.pow 2 (2 - x.exponent).toNat)
    match searchGrid x.roundingInterval unit (leadingExponent num den) 1 17 with
    | some (q, place) => ⟨significantDigits q, place + (Binary64.digitCount q : Int) - 1⟩
    | none => ⟨[0], 0⟩

end Magnitude

end ContractBindings.Decimal
