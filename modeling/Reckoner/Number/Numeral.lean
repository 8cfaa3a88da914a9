import Reckoner.Number.Shortest

/-!
How numbers are written. `Numeral.text` is the full form, with a point or an
exponent in every finite number and words for the rest; `Numeral.literal?` is the
form that stands in expressions, where a whole number below 10^16 is written
with its digits alone, infinity as a literal too large to hold, and what is not a
number not at all.
-/

namespace Reckoner.Numeral

/-- The choices of a written form: from which power of ten up and below which one
the digits stand without an exponent, and the least number of exponent digits. -/
structure Style where
  positionalFrom : Int
  positionalBelow : Int
  exponentDigits : Nat

def style : Style := ⟨-4, 16, 2⟩

def wholeBound : Nat := 10000000000000000

def digits (n : Nat) : List Char := Nat.toDigits 10 n

/-- Digits with the point after the first `point` of them; zeros fill the gap. -/
def positional (ds : List Char) (point : Int) : List Char :=
  if point ≤ 0 then '0' :: '.' :: (List.replicate (-point).toNat '0' ++ ds)
  else if ds.length ≤ point.toNat then
    ds ++ List.replicate (point.toNat - ds.length) '0' ++ ['.', '0']
  else ds.take point.toNat ++ '.' :: ds.drop point.toNat

def exponentMark (e : Int) : List Char :=
  let ds := digits e.natAbs
  'e' :: (if e < 0 then '-' else '+') ::
    (List.replicate (style.exponentDigits - ds.length) '0' ++ ds)

def scientific (ds : List Char) (e : Int) : List Char :=
  match ds with
  | d :: next :: rest => d :: '.' :: next :: rest ++ exponentMark e
  | _ => ds ++ exponentMark e

def ofDecimal (d : Decimal) : List Char :=
  let ds := digits d.digits
  let e := d.exponent + ds.length - 1
  if style.positionalFrom ≤ e && e < style.positionalBelow then positional ds (e + 1)
  else scientific ds e

def signed : Sign → List Char → List Char
  | .plus, text => text
  | .minus, text => '-' :: text

def magnitude (m : Nat) (e : Int) : List Char :=
  if m = 0 then ['0', '.', '0'] else ofDecimal (Decimal.shortest m e)

def text (x : Float) : String :=
  match Binary64.ofFloat x with
  | .nan => "nan"
  | .infinity .plus => "inf"
  | .infinity .minus => "-inf"
  | .finite sign m e => String.ofList (signed sign (magnitude m e))

/-- The literal of a finite number, as characters. Zero has no sign. -/
def finiteLiteral (sign : Sign) (m : Nat) (e : Int) : List Char :=
  match (Binary64.finite sign m e).whole? with
  | some 0 => digits 0
  | some n => if n < wholeBound then signed sign (digits n) else signed sign (magnitude m e)
  | none => signed sign (magnitude m e)

def literal? (x : Float) : Option String :=
  match Binary64.ofFloat x with
  | .nan => none
  | .infinity .plus => some "1e999"
  | .infinity .minus => some "-1e999"
  | .finite sign m e => some (String.ofList (finiteLiteral sign m e))

end Reckoner.Numeral
