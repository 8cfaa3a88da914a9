/-!
Signs, the two families of chained operators, and binding strength. A plus in a
sum adds and a plus in a product multiplies; a minus subtracts or divides. The
same pair serves a chain's terms, a leading sign and the sign of a number.
-/

namespace Reckoner

inductive Sign
  | plus
  | minus
  deriving DecidableEq, Repr

namespace Sign

def symbol : Sign → Char
  | plus => '+'
  | minus => '-'

def times : Sign → Sign → Sign
  | plus, s => s
  | minus, plus => minus
  | minus, minus => plus

end Sign

/-- Operators of one family share a precedence and fold into one chain. -/
inductive Family
  | sum
  | product
  deriving DecidableEq, Repr

namespace Family

def symbol : Family → Sign → Char
  | sum, .plus => '+'
  | sum, .minus => '-'
  | product, .plus => '*'
  | product, .minus => '/'

end Family

/-- How tightly a piece of text holds together, from loosest to tightest: an
expression, a term, a factor, an argument. -/
inductive Level
  | sum
  | product
  | power
  | atom
  deriving DecidableEq, Repr

namespace Level

def rank : Level → Nat
  | sum => 1
  | product => 2
  | power => 3
  | atom => 4

end Level

def Family.level : Family → Level
  | sum => .sum
  | product => .product

end Reckoner
