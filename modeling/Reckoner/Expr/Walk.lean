import Reckoner.Expr.Basic

/-!
Enumerating a tree one node at a time. A walk holds the nodes whose turn is still
to come, each standing for everything under it. It refers to no store: the values
of variables are looked up when a node is reached.
-/

namespace Reckoner

structure Walk where
  pending : List Expr

namespace Walk

def start (root : Expr) : Walk := ⟨[root]⟩

def next? (w : Walk) : Option (Expr × Walk) :=
  match w.pending with
  | [] => none
  | e :: rest => some (e, ⟨e.children ++ rest⟩)

def remaining (w : Walk) : List Expr := w.pending.flatMap Expr.preorder

theorem remaining_start (root : Expr) : (start root).remaining = root.preorder := by
  simp [start, remaining]

/-- Taking a node takes it off the front of what remains. -/
theorem remaining_next? {w v : Walk} {e : Expr} (h : w.next? = some (e, v)) :
    w.remaining = e :: v.remaining := by
  unfold next? at h
  split at h
  · simp at h
  · rename_i node rest hw
    simp only [Option.some.injEq, Prod.mk.injEq] at h
    obtain ⟨rfl, rfl⟩ := h
    simp only [remaining, hw, List.flatMap_cons, List.flatMap_append]
    rw [Expr.preorder_eq]
    simp

theorem next?_eq_none_iff (w : Walk) : w.next? = none ↔ w.remaining = [] := by
  unfold next? remaining
  split
  · rename_i hw
    simp [hw]
  · rename_i node rest hw
    simp [hw, Expr.preorder_eq node]

end Walk

end Reckoner
