import Reckoner.Session

/-!
Everything there is to know about one tree under one set of bindings: its listing,
its value before and after binding, its text, and how the tree read from that text
compares with it.
-/

namespace Reckoner

structure Reread where
  same : Bool
  text : Except Fault String
  value : Except Fault Float

structure Report where
  listing : List Entry
  nodes : Nat
  names : List String
  unbound : Except Fault Float
  bound : Nat
  value : Except Fault Float
  text : Except Fault String
  reread : Option Reread

namespace Report

def compare (bindings : Bindings) (root : Expr) (store : Store) (again : Rooted) : Reread :=
  let (_, after) := again.root.bindAll bindings again.store
  ⟨again.root.same after store root, again.root.render, again.root.evaluate after⟩

def of (bindings : Bindings) (r : Rooted) : Except Failure Report := do
  let nodes ← (r.root.check r.store).mapError .fault
  let (count, store) := r.root.bindAll bindings r.store
  let text := r.root.render
  let reread ←
    match text with
    | .ok t => do
        let again ← (Rooted.ofText r.free t).mapError Failure.parse
        pure (some (compare bindings r.root store again))
    | .error _ => pure none
  return ⟨r.root.listing r.store, nodes, r.root.names, r.root.evaluate r.store, count,
    r.root.evaluate store, text, reread⟩

end Report

end Reckoner
