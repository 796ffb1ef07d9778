import ContractBindings.Decimal.Shortest

/-!
# Layouts of decimals

How the digits of a number are set: positionally, with a point and at least one digit after it, or
with an exponent.  A `Layout` says where positional notation ends; `exchange` is the layout of data
files and `plain` is positional throughout.
-/

namespace ContractBindings.Decimal

/-- Where positional notation is used, by the exponent of the leading digit; `none` is no bound. -/
structure Layout where
  least : Option Int
  greatest : Option Int
  deriving DecidableEq, Repr

namespace Layout

/-- Positional from `10 ^ -5` up to below `10 ^ 16`. -/
def exchange : Layout := ⟨some (-5), some 15⟩

/-- Positional for every number. -/
def plain : Layout := ⟨none, none⟩

/-- Whether a number whose leading digit has this exponent is written positionally. -/
def isPositional (layout : Layout) (exponent : Int) : Bool :=
  layout.least.all (· ≤ exponent) && layout.greatest.all (exponent ≤ ·)

def digitChar (d : Nat) : Char := Char.ofNat (48 + d)

/-- The digits with a point, and at least one digit on each side of it. -/
def positional (d : Digits) : List Char :=
  let digits := d.digits.map digitChar
  if 0 ≤ d.exponent then
    let whole := d.exponent.toNat + 1
    let fraction := digits.drop whole
    digits.take whole ++ List.replicate (whole - digits.length) '0' ++ ['.']
      ++ (if fraction.isEmpty then ['0'] else fraction)
  else
    ['0', '.'] ++ List.replicate ((-d.exponent).toNat - 1) '0' ++ digits

/-- One digit, the rest after a point if there is one, and the exponent with its sign. -/
def scientific (d : Digits) : List Char :=
  let fraction := (d.digits.drop 1).map digitChar
  (d.digits.take 1).map digitChar
    ++ (if fraction.isEmpty then [] else '.' :: fraction)
    ++ (if 0 ≤ d.exponent then ['e', '+'] else ['e', '-'])
    ++ Nat.toDigits 10 d.exponent.natAbs

/-- Writes a number by its shortest digits. -/
def write (layout : Layout) (x : Binary64) : List Char :=
  let d := x.magnitude.shortest
  (if x.negative then ['-'] else [])
    ++ (if layout.isPositional d.exponent then positional d else scientific d)

end Layout

end ContractBindings.Decimal
