import Reckoner.Builtin
import Reckoner.Number.Binary64

/-!
Arithmetic without an error channel: every operation has a value at every pair of
numbers. Division by zero, and the powers for which the real function has a pole,
no value, or one too large to hold, are decided here by sign and parity; all else
is the operation of the machine. Parity is read off the bits.
-/

namespace Reckoner.Arithmetic

def nan : Float := Binary64.toFloat .plus Binary64.nanBits

def infinity (sign : Sign) : Float := Binary64.toFloat sign Binary64.infinityBits

/-- The sign bit, which a zero has too. -/
def signOf (x : Float) : Sign := if x.toBits.toNat < Binary64.signBit then .plus else .minus

def isWhole (x : Float) : Bool := (Binary64.ofFloat x).whole?.isSome

def isOdd (x : Float) : Bool :=
  match (Binary64.ofFloat x).whole? with
  | some n => n % 2 == 1
  | none => false

/-- A quotient over zero is infinite with the sign of the product, unless the
numerator is zero or not a number. -/
def divide (x y : Float) : Float :=
  if y == 0.0 then
    if x == 0.0 || x.isNaN then nan else infinity ((signOf x).times (signOf y))
  else x / y

inductive PowerFault
  | pole
  | domain
  | overflow
  deriving DecidableEq, Repr

def powerFault? (base exponent : Float) : Option PowerFault :=
  if base.isFinite && exponent.isFinite then
    if base == 0.0 then
      if exponent < 0.0 then some .pole else none
    else if base < 0.0 && !isWhole exponent then some .domain
    else if (Float.pow base exponent).isInf then some .overflow
    else none
  else none

def powerSign (base exponent : Float) : Sign :=
  if isOdd exponent then signOf base else .plus

def power (base exponent : Float) : Float :=
  match powerFault? base exponent with
  | none => Float.pow base exponent
  | some .domain => nan
  | some .pole => infinity (powerSign base exponent)
  | some .overflow => infinity (powerSign base exponent)

def apply : Builtin → Float → Float
  | .sin => Float.sin
  | .cos => Float.cos
  | .tan => Float.tan
  | .asin => Float.asin
  | .acos => Float.acos
  | .atan => Float.atan
  | .sqrt => Float.sqrt
  | .exp => Float.exp
  | .ln => Float.log
  | .log => Float.log10
  | .log2 => Float.log2

end Reckoner.Arithmetic
