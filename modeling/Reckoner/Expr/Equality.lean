import Reckoner.Store

/-!
Structural equality of trees, each with its own store. Labels do not count;
variables agree in name and present value, and numbers are compared as numbers, so
a tree that holds one that is not a number does not even equal itself. Whether trees
differ is asked of their roots, which answer to their own kind only.
-/

namespace Reckoner.Expr

mutual

def same (s t : Store) : Expr → Expr → Bool
  | const _ v, const _ w => v == w
  | var l m, var k n => m == n && s.get l == t.get k
  | chain _ f o (p, a) as, chain _ g q (r, b) bs =>
      f == g && o == q && p == r && same s t a b && sameTerms s t as bs
  | power _ a c, power _ b d => same s t a b && same s t c d
  | call _ f a, call _ g b => f == g && same s t a b
  | _, _ => false

def sameTerms (s t : Store) : List (Sign × Expr) → List (Sign × Expr) → Bool
  | [], [] => true
  | (p, a) :: as, (q, b) :: bs => p == q && same s t a b && sameTerms s t as bs
  | _, _ => false

end

/-- Chains are of one kind if they are of one family and opened by one operator. -/
def sameKind : Expr → Expr → Bool
  | const _ _, const _ _ => true
  | var _ _, var _ _ => true
  | chain _ f o _ _, chain _ g q _ _ => f == g && o == q
  | power _ _ _, power _ _ _ => true
  | call _ _ _, call _ _ _ => true
  | _, _ => false

/-- What the first answers when it is asked whether it equals the second: nothing if
they are of two kinds. -/
def answer? (s t : Store) (a b : Expr) : Option Bool :=
  if sameKind a b then some (same s t a b) else none

/-- The first is asked whether it equals the second, then the second whether it equals
the first. Where neither has an answer they are not one node, and so they differ. -/
def differs (s t : Store) (a b : Expr) : Bool :=
  match (answer? s t a b).or (answer? t s b a) with
  | some equal => !equal
  | none => true

end Reckoner.Expr
