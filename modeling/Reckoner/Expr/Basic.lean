import Reckoner.Builtin
import Reckoner.Operator

/-!
Expression trees. A whole run of operators of one precedence is one chain node
with a signed term for every operand; a chain is never empty, and it remembers
which operator opened it even where its terms do not need it. Every node carries a
label. Two positions with one label are one node seen twice, so sharing can be
told from repetition; what a variable is worth is kept elsewhere, under its label.
-/

namespace Reckoner

abbrev Label := Nat

inductive Expr
  | const (label : Label) (value : Float)
  | var (label : Label) (name : String)
  | chain (label : Label) (family : Family) (opener : Sign) (first : Sign × Expr)
      (rest : List (Sign × Expr))
  | power (label : Label) (base exponent : Expr)
  | call (label : Label) (callee : Callee) (argument : Expr)

namespace Expr

def label : Expr → Label
  | const l _ => l
  | var l _ => l
  | chain l _ _ _ _ => l
  | power l _ _ => l
  | call l _ _ => l

def children : Expr → List Expr
  | const _ _ => []
  | var _ _ => []
  | chain _ _ _ first rest => (first :: rest).map Prod.snd
  | power _ base exponent => [base, exponent]
  | call _ _ argument => [argument]

def arity (e : Expr) : Nat := e.children.length

mutual

def preorder : Expr → List Expr
  | const l v => [const l v]
  | var l n => [var l n]
  | chain l f o (s, e) rest => chain l f o (s, e) rest :: (preorder e ++ preorderTerms rest)
  | power l base exponent => power l base exponent :: (preorder base ++ preorder exponent)
  | call l c argument => call l c argument :: preorder argument

def preorderTerms : List (Sign × Expr) → List Expr
  | [] => []
  | (_, e) :: rest => preorder e ++ preorderTerms rest

end

/-- Goes on a chain of the family with one more term, or opens one with the
expression as its first term. -/
def extend (soFar : Expr) (family : Family) (label : Label) (sign : Sign) (term : Expr) : Expr :=
  match soFar with
  | chain l f o first rest =>
      if f = family then chain l f o first (rest ++ [(sign, term)])
      else chain label family sign (.plus, soFar) [(sign, term)]
  | _ => chain label family sign (.plus, soFar) [(sign, term)]

def negate (label : Label) (e : Expr) : Expr := chain label .sum .minus (.minus, e) []

def name? : Expr → Option String
  | var _ n => some n
  | _ => none

def names (e : Expr) : List String := (e.preorder.filterMap name?).eraseDups

theorem preorderTerms_eq (terms : List (Sign × Expr)) :
    preorderTerms terms = terms.flatMap fun t => preorder t.2 := by
  induction terms with
  | nil => rfl
  | cons t rest ih =>
    obtain ⟨s, e⟩ := t
    simp [preorderTerms, ih]

/-- The pre-order is the node followed by the pre-orders of its children. -/
theorem preorder_eq (e : Expr) : e.preorder = e :: e.children.flatMap preorder := by
  cases e with
  | const | var => rfl
  | chain l f o first rest =>
    obtain ⟨s, e⟩ := first
    simp [preorder, children, preorderTerms_eq, List.flatMap_map]
  | power => simp [preorder, children]
  | call => simp [preorder, children]

end Expr

end Reckoner
