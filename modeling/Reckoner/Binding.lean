import Std.Data.TreeSet
import Reckoner.Store

/-!
Giving values to the variables of a tree. Each node is visited once however many
positions it has; a variable node whose name is bound takes the value and is
counted. A binder goes on counting over the trees it is applied to.
-/

namespace Reckoner

structure Binder where
  bindings : Bindings
  updated : Nat

namespace Binder

def start (bindings : Bindings) : Binder := ⟨bindings, 0⟩

structure Pass where
  seen : Std.TreeSet Label
  updated : Nat
  store : Store

def valueOf? (bindings : Bindings) (e : Expr) : Option Float := e.name?.bind (bindings[·]?)

def visit (bindings : Bindings) (p : Pass) (e : Expr) : Pass :=
  if p.seen.contains e.label then p
  else
    match valueOf? bindings e with
    | some v => ⟨p.seen.insert e.label, p.updated + 1, p.store.set e.label v⟩
    | none => ⟨p.seen.insert e.label, p.updated, p.store⟩

def apply (b : Binder) (root : Expr) (store : Store) : Binder × Store :=
  let pass := root.preorder.foldl (visit b.bindings) ⟨{}, b.updated, store⟩
  (⟨b.bindings, pass.updated⟩, pass.store)

def totals (b : Binder) (store : Store) : List Expr → List (Nat × Store)
  | [] => []
  | root :: rest =>
      let (next, after) := b.apply root store
      (next.updated, after) :: next.totals after rest

end Binder

namespace Expr

/-- Binds several names in one pass; returns how many variable nodes were set. -/
def bindAll (bindings : Bindings) (root : Expr) (store : Store) : Nat × Store :=
  if bindings.isEmpty then (0, store)
  else
    let (binder, after) := (Binder.start bindings).apply root store
    (binder.updated, after)

def bind (name : String) (value : Float) (root : Expr) (store : Store) : Nat × Store :=
  let (binder, after) := (Binder.start (Bindings.ofPairs [(name, value)])).apply root store
  (binder.updated, after)

end Expr

end Reckoner
