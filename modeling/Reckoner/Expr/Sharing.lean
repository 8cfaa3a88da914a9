import Std.Data.TreeSet
import Reckoner.Expr.Description
import Reckoner.Fault

/-!
The check that a structure is a tree: no label may occur at two positions. The
first node met again in pre-order is the one reported, and nothing after it is
looked at. `meetAll_eq` says that the nodes are met in pre-order.
-/

namespace Reckoner.Expr

def meet (met : Std.TreeSet Label) (e : Expr) : Except Expr (Std.TreeSet Label) :=
  if met.contains e.label then .error e else .ok (met.insert e.label)

mutual

/-- Meets the node and all under it, up to one met before. -/
def meetAll (met : Std.TreeSet Label) : Expr → Except Expr (Std.TreeSet Label)
  | const l v => meet met (const l v)
  | var l n => meet met (var l n)
  | chain l f o (s, e) rest => do
      let here ← meet met (chain l f o (s, e) rest)
      let next ← meetAll here e
      meetTerms next rest
  | power l base exponent => do
      let here ← meet met (power l base exponent)
      let next ← meetAll here base
      meetAll next exponent
  | call l c argument => do
      let here ← meet met (call l c argument)
      meetAll here argument

def meetTerms (met : Std.TreeSet Label) :
    List (Sign × Expr) → Except Expr (Std.TreeSet Label)
  | [] => .ok met
  | (_, e) :: rest => do
      let next ← meetAll met e
      meetTerms next rest

end

mutual

theorem meetAll_eq (met : Std.TreeSet Label) :
    (e : Expr) → meetAll met e = e.preorder.foldlM meet met
  | const l v => by simp [meetAll, preorder]
  | var l n => by simp [meetAll, preorder]
  | chain l f o (s, e) rest => by
      have he := fun m => meetAll_eq m e
      have hrest := fun m => meetTerms_eq m rest
      simp [meetAll, preorder, he, hrest]
  | power l base exponent => by
      have hbase := fun m => meetAll_eq m base
      have hexponent := fun m => meetAll_eq m exponent
      simp [meetAll, preorder, hbase, hexponent]
  | call l c argument => by
      have hargument := fun m => meetAll_eq m argument
      simp [meetAll, preorder, hargument]

theorem meetTerms_eq (met : Std.TreeSet Label) :
    (terms : List (Sign × Expr)) → meetTerms met terms = (preorderTerms terms).foldlM meet met
  | [] => by simp [meetTerms, preorderTerms, pure, Except.pure]
  | (s, e) :: rest => by
      have he := fun m => meetAll_eq m e
      have hrest := fun m => meetTerms_eq m rest
      simp [meetTerms, preorderTerms, he, hrest]

end

def check (store : Store) (e : Expr) : Except Fault Nat :=
  match meetAll {} e with
  | .error node => .error (.shared (node.description store))
  | .ok met => .ok met.size

end Reckoner.Expr
