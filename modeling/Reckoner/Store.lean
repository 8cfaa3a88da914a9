import Std.Data.TreeMap
import Reckoner.Expr.Basic

/-!
What variables are worth. Bindings give values to names, a store gives values to
the variable nodes of trees by their labels. A node with no value in the store is
worth zero. Trees that live side by side share a heap: one store, and labels handed
out from the first that is still free.
-/

namespace Reckoner

abbrev Bindings := Std.TreeMap String Float

namespace Bindings

def empty : Bindings := {}

/-- Later pairs win over earlier ones of the same name. -/
def update (bindings : Bindings) (pairs : List (String × Float)) : Bindings :=
  pairs.foldl (fun m p => m.insert p.1 p.2) bindings

def ofPairs (pairs : List (String × Float)) : Bindings := empty.update pairs

end Bindings

structure Store where
  values : Std.TreeMap Label Float

namespace Store

def empty : Store := ⟨{}⟩

def get (s : Store) (l : Label) : Float := s.values.getD l 0.0

def set (s : Store) (l : Label) (v : Float) : Store := ⟨s.values.insert l v⟩

@[simp] theorem get_empty (l : Label) : empty.get l = 0.0 := by simp [empty, get]

theorem get_set (s : Store) (l k : Label) (v : Float) :
    (s.set l v).get k = if l = k then v else s.get k := by
  simp [set, get, Std.TreeMap.getD_insert]

end Store

structure Heap where
  store : Store
  free : Label

def Heap.empty : Heap := ⟨Store.empty, 0⟩

end Reckoner
