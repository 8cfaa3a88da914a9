import Reckoner.Number.Binary64

/-!
Decimal numbers and the binary64 numbers they are read as. Reading rounds once.
An exponent so large or so small that the result is infinity or zero is seen
from the size of the digits alone, because ten is more than two to the third.
-/

namespace Reckoner

/-- The number `digits * 10 ^ exponent`. -/
structure Decimal where
  digits : Nat
  exponent : Int
  deriving DecidableEq, Repr

namespace Decimal

open scoped Binary64

def bits (d : Decimal) : Nat :=
  let size : Int := d.digits.log2
  if d.digits = 0 then 0
  else if 0 ≤ d.exponent then
    if 1024 ≤ size + 3 * d.exponent then Binary64.infinityBits
    else Binary64.nearestBits (d.digits * 10 ^ d.exponent.toNat) 1
  else if size + 1 + 3 * d.exponent ≤ -1075 then 0
  else Binary64.nearestBits d.digits (10 ^ (-d.exponent).toNat)

def toFloat (sign : Sign) (d : Decimal) : Float := Binary64.toFloat sign d.bits

end Decimal

end Reckoner
