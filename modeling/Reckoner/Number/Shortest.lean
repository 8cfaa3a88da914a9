import Reckoner.Number.Decimal

/-!
The decimal that stands for a binary64 number: of all that read back as the
number, one on the coarsest grid of powers of ten, the nearer to the number if
the grid has two, the even one if they are equally near. A coarser grid means
fewer digits. The search ends at the grid of the number's exact decimal
expansion, where nothing has to be rounded.
-/

namespace Reckoner.Decimal

open scoped Binary64

def exact (m : Nat) (e : Int) : Decimal :=
  ⟨m * 2 ^ e.toNat * 5 ^ (-e).toNat, min e 0⟩

/-- The neighbour of `m * 2 ^ e` among the multiples of `10 ^ x` that reads back
as that number. -/
def onGrid? (m : Nat) (e x : Int) : Option Decimal :=
  let bits := Binary64.magnitudeBits m e
  let num := m * 2 ^ e.toNat * 10 ^ (-x).toNat
  let den := 2 ^ (-e).toNat * 10 ^ x.toNat
  let below : Decimal := ⟨num / den, x⟩
  let above : Decimal := ⟨num / den + 1, x⟩
  if below.bits = bits then
    if above.bits = bits then some ⟨Binary64.roundDiv num den, x⟩ else some below
  else if above.bits = bits then some above
  else none

def search (m : Nat) (e : Int) : Nat → Decimal
  | 0 => exact m e
  | steps + 1 => (onGrid? m e (min e 0 + (steps + 1 : Nat))).getD (search m e steps)

/-- An exponent of ten above the number: 0.30103 is more than the decimal
logarithm of two. -/
def ceiling (m : Nat) (e : Int) : Int := (m.log2 + 1 + e) * 30103 / 100000 + 1

def shortest (m : Nat) (e : Int) : Decimal :=
  search m e (ceiling m e - min e 0).toNat

theorem bits_of_onGrid? {m : Nat} {e x : Int} {d : Decimal}
    (h : onGrid? m e x = some d) : d.bits = Binary64.magnitudeBits m e := by
  simp only [onGrid?] at h
  split at h
  · rename_i hbelow
    split at h
    · rename_i habove
      simp only [Option.some.injEq] at h
      subst h
      simp only [Binary64.roundDiv]
      split
      · exact hbelow
      · exact habove
    · simp only [Option.some.injEq] at h
      exact h ▸ hbelow
  · split at h
    · rename_i habove
      simp only [Option.some.injEq] at h
      exact h ▸ habove
    · simp at h

end Reckoner.Decimal
