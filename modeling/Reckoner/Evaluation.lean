import Reckoner.Machine
import Reckoner.Number.Arithmetic
import Reckoner.Store

/-!
The value of a tree. Sums and products are worked out one operation at a time from
left to right, so a chain rounds exactly as the nested binary operations would. A
leading minus negates the first term of a sum, a leading division takes the
reciprocal of the first term of a product.
-/

namespace Reckoner

open Arithmetic

def accumulate : Family → Float → Sign × Float → Float
  | .sum, acc, (.plus, v) => acc + v
  | .sum, acc, (.minus, v) => acc - v
  | .product, acc, (.plus, v) => acc * v
  | .product, acc, (.minus, v) => divide acc v

def opening : Family → Sign × Float → Float
  | _, (.plus, v) => v
  | .sum, (.minus, v) => -v
  | .product, (.minus, v) => divide 1.0 v

def chainValue (family : Family) (first : Sign × Float) (rest : List (Sign × Float)) : Float :=
  rest.foldl (accumulate family) (opening family first)

def callValue : Callee → Float → Except Fault Float
  | .builtin function, v => .ok (apply function v)
  | .unknown name, _ => .error (.unknownFunction name)

namespace Valuation

open Work

def pop : Work Float Float := Work.pop .tooFewValues

/-- All operands of a chain are popped before any of them is used. -/
def popTerms : List (Sign × Expr) → Work Float (List (Sign × Float))
  | [] => return []
  | (sign, _) :: rest => do
      let v ← pop
      let others ← popTerms rest
      return (sign, v) :: others

def visit (store : Store) : Expr → Work Float Unit
  | .const _ v => push v
  | .var l _ => push (store.get l)
  | .chain _ family _ (sign, _) rest => do
      let v ← pop
      let others ← popTerms rest
      push (chainValue family (sign, v) others)
  | .power _ _ _ => do
      let base ← pop
      let exponent ← pop
      push (power base exponent)
  | .call _ callee _ => do
      let v ← pop
      push (← MonadExcept.ofExcept (callValue callee v))

end Valuation

def valuation (store : Store) : Machine Float :=
  .ofVisit (Valuation.visit store) .notOneValue

def Expr.evaluate (store : Store) (root : Expr) : Except Fault Float :=
  (valuation store).reduce root

end Reckoner
