import Reckoner.Machine
import Reckoner.Number.Numeral

/-!
The text of a tree, which the parser reads back. Every piece of text has the level
of the construct it is; an operand looser than its place allows is put in brackets,
no other is. Variables appear by name and not by value.
-/

namespace Reckoner

structure Rendered where
  text : String
  level : Level
  deriving DecidableEq, Repr

namespace Rendered

/-- The text for a place that takes nothing looser than the level. -/
def within (r : Rendered) (level : Level) : String :=
  if level.rank ≤ r.level.rank then r.text else "(" ++ r.text ++ ")"

def ofConst (v : Float) : Except Fault Rendered :=
  match Numeral.literal? v with
  | some text => .ok ⟨text, if text.toList.head? = some '-' then .sum else .atom⟩
  | none => .error .unwritable

def firstTerm : Family → Sign × Rendered → String
  | .sum, (.plus, r) => r.text
  | .sum, (.minus, r) => "-" ++ r.within .product
  | .product, (.plus, r) => r.within .product
  | .product, (.minus, r) => "1 / " ++ r.within .power

def termLevel : Family → Level
  | .sum => .product
  | .product => .power

def laterTerm (family : Family) : Sign × Rendered → String
  | (s, r) => " " ++ (family.symbol s).toString ++ " " ++ r.within (termLevel family)

def ofPower (base exponent : Rendered) : Rendered :=
  ⟨base.within .atom ++ "^" ++ exponent.within .power, .power⟩

def ofCall : Callee → Rendered → Except Fault Rendered
  | .builtin function, r => .ok ⟨function.name ++ "(" ++ r.text ++ ")", .atom⟩
  | .unknown _, _ => .error .namelessFunction

end Rendered

namespace Rendition

open Work Rendered

def pop : Work Rendered Rendered := Work.pop .tooFewTexts

/-- Each operand is popped when its place in the text is reached. -/
def writeTerms (family : Family) (text : String) : List (Sign × Expr) → Work Rendered String
  | [] => return text
  | (sign, _) :: rest => do
      let r ← pop
      writeTerms family (text ++ laterTerm family (sign, r)) rest

def visit : Expr → Work Rendered Unit
  | .const _ v => do push (← MonadExcept.ofExcept (ofConst v))
  | .var _ n => push ⟨n, .atom⟩
  | .chain _ family _ (sign, _) rest => do
      let r ← pop
      let text ← writeTerms family (firstTerm family (sign, r)) rest
      push ⟨text, family.level⟩
  | .power _ _ _ => do
      let base ← pop
      let exponent ← pop
      push (ofPower base exponent)
  | .call _ callee _ => do
      let argument ← pop
      push (← MonadExcept.ofExcept (ofCall callee argument))

end Rendition

def rendition : Machine Rendered := .ofVisit Rendition.visit .notOneText

def Expr.render (root : Expr) : Except Fault String :=
  match rendition.reduce root with
  | .ok r => .ok r.text
  | .error fault => .error fault

end Reckoner
