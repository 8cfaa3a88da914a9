import Reckoner.Operator

/-!
Binary64 numbers taken apart and put together, in exact integers. A finite
number is a significand times a power of two; the pair is the canonical one, so
the bits of the magnitude are a linear function of it. `nearestBits` rounds a
positive quotient to the nearest binary64, a tie to the even significand and
what lies too high to infinity.
-/

namespace Reckoner

inductive Binary64
  | nan
  | infinity (sign : Sign)
  | finite (sign : Sign) (significand : Nat) (exponent : Int)
  deriving DecidableEq

namespace Binary64

-- Powers of natural numbers are the plain ones, whatever other powers are in scope.
attribute [scoped instance (2000)] instPowNat

def signBit : Nat := 2 ^ (63 : Nat)

/-- The top bit of a full significand, one above the bits that are stored. -/
def topBit : Nat := 2 ^ (52 : Nat)

def infinityBits : Nat := 2047 * topBit

def nanBits : Nat := infinityBits + 2 ^ (51 : Nat)

def ofFloat (x : Float) : Binary64 :=
  let bits := x.toBits.toNat
  let sign := if bits < signBit then Sign.plus else Sign.minus
  let field : Nat := bits / topBit % 2048
  let fraction : Nat := bits % topBit
  if field = 2047 then
    if fraction = 0 then infinity sign else nan
  else if field = 0 then finite sign fraction (-1074)
  else finite sign (topBit + fraction) (field - 1075)

def toFloat (sign : Sign) (magnitude : Nat) : Float :=
  match sign with
  | .plus => Float.ofBits (UInt64.ofNat magnitude)
  | .minus => Float.ofBits (UInt64.ofNat (signBit + magnitude))

/-- The magnitude bits of a canonical significand and exponent. A significand of
`topBit` or more has that bit implied, and it raises the exponent field. -/
def magnitudeBits (significand : Nat) (exponent : Int) : Nat :=
  (exponent + 1074).toNat * topBit + significand

def whole? : Binary64 → Option Nat
  | finite _ significand exponent =>
      if 0 ≤ exponent then some (significand * 2 ^ exponent.toNat)
      else if significand % 2 ^ (-exponent).toNat = 0 then
        some (significand / 2 ^ (-exponent).toNat)
      else none
  | _ => none

/-- The largest `e` with `2 ^ e ≤ num / den`, for positive arguments. -/
def floorLog2 (num den : Nat) : Int :=
  let e : Int := num.log2 - den.log2
  if den * 2 ^ e.toNat ≤ num * 2 ^ (-e).toNat then e else e - 1

/-- The quotient to the nearest whole number, a tie to the even one. -/
def roundDiv (num den : Nat) : Nat :=
  let quotient := num / den
  let twice := 2 * (num % den)
  if twice < den || (twice = den && quotient % 2 = 0) then quotient else quotient + 1

/-- The magnitude bits of the binary64 nearest to `num / den`. -/
def nearestBits (num den : Nat) : Nat :=
  if num = 0 then 0
  else
    let unit := max (floorLog2 num den - 52) (-1074)
    let significand := roundDiv (num * 2 ^ (-unit).toNat) (den * 2 ^ unit.toNat)
    min infinityBits (magnitudeBits significand unit)

end Binary64

end Reckoner
