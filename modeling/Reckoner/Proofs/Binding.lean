import Mathlib.Data.List.Nodup
import Reckoner.Binding

/-!
What binding leaves behind. Of several pairs with one name the last counts. In the store
a node that is met again is passed over, so what it is worth afterwards was decided where
it was met first; since positions with one label are one node, that is also what its own
name asks for.
-/

namespace Reckoner

namespace Bindings

def last? (pairs : List (String × Float)) (name : String) : Option Float :=
  pairs.reverse.lookup name

theorem last?_append (first second : List (String × Float)) (name : String) :
    last? (first ++ second) name = (last? second name).or (last? first name) := by
  rw [last?, List.reverse_append, List.lookup_append]
  rfl

theorem update_append (bindings : Bindings) (first second : List (String × Float)) :
    bindings.update (first ++ second) = (bindings.update first).update second :=
  List.foldl_append

theorem getElem?_update (bindings : Bindings) (pairs : List (String × Float)) (name : String) :
    (bindings.update pairs)[name]? = (last? pairs name).or bindings[name]? := by
  induction pairs generalizing bindings with
  | nil => rfl
  | cons p rest ih =>
    obtain ⟨n, v⟩ := p
    have hstep : bindings.update ((n, v) :: rest) =
        Bindings.update (bindings.insert n v) rest := rfl
    have hlast : last? ((n, v) :: rest) name =
        (last? rest name).or (last? [(n, v)] name) := last?_append [(n, v)] rest name
    rw [hstep, ih, hlast, Option.or_assoc, Std.TreeMap.getElem?_insert]
    by_cases hname : n = name
    · simp [last?, hname]
    · have hname' : (name == n) = false := by simpa using Ne.symm hname
      simp [last?, hname, List.lookup_cons, hname']

theorem getD_ofPairs (pairs : List (String × Float)) (name : String) (v : Float) :
    (ofPairs pairs).getD name v = (last? pairs name).getD v := by
  rw [Std.TreeMap.getD_eq_getD_getElem?, ofPairs, getElem?_update]
  simp [empty]

end Bindings

namespace Expr

/-- Positions with one label are one node. -/
def Consistent (e : Expr) : Prop :=
  ∀ a ∈ e.preorder, ∀ b ∈ e.preorder, a.label = b.label → a = b

theorem Consistent.of_nodup {e : Expr} (h : (e.preorder.map label).Nodup) : e.Consistent :=
  fun _ ha _ hb hlabel => List.inj_on_of_nodup_map h ha hb hlabel

end Expr

namespace Binder

section Visit

variable {bindings : Bindings} {p : Pass} {e : Expr}

theorem valueOf?_of_isEmpty (h : bindings.isEmpty = true) (e : Expr) :
    valueOf? bindings e = none := by
  cases hn : e.name? with
  | none => simp [valueOf?, hn]
  | some n => simp [valueOf?, hn, Std.TreeMap.getElem?_of_isEmpty h]

theorem visit_of_seen (hseen : p.seen.contains e.label = true) : visit bindings p e = p := by
  simp only [visit, hseen, if_true]

theorem contains_visit (l : Label) : (visit bindings p e).seen.contains l = true ↔
    p.seen.contains l = true ∨ e.label = l := by
  by_cases hseen : p.seen.contains e.label = true
  · rw [visit_of_seen hseen]
    exact ⟨.inl, fun h => h.elim id fun hl => hl ▸ hseen⟩
  · have hinsert : (visit bindings p e).seen = p.seen.insert e.label := by
      cases hv : valueOf? bindings e <;> simp [visit, hseen, hv]
    rw [hinsert, Std.TreeSet.contains_insert, Bool.or_eq_true, beq_iff_eq,
      Std.compare_eq_iff_eq]
    exact or_comm

/-- A node met for the first time gets the value of its name, if that has one. -/
theorem get_visit (hseen : ¬p.seen.contains e.label = true) (l : Label) :
    (visit bindings p e).store.get l =
      if e.label = l then (valueOf? bindings e).getD (p.store.get l) else p.store.get l := by
  cases hv : valueOf? bindings e with
  | none => simp [visit, hseen, hv]
  | some v => simp [visit, hseen, hv, Store.get_set]

/-- What every visit keeps holds after all of them. -/
theorem foldl_visit (Inv : List Expr → Pass → Prop) {visited : List Expr}
    (hvisit : ∀ visited p e, Inv visited p → (∀ a ∈ visited, a.label = e.label → a = e) →
      Inv (visited ++ [e]) (visit bindings p e))
    (h : Inv visited p) (nodes : List Expr)
    (hsame : ∀ a ∈ visited ++ nodes, ∀ b ∈ visited ++ nodes, a.label = b.label → a = b) :
    Inv (visited ++ nodes) (nodes.foldl (visit bindings) p) := by
  induction nodes generalizing visited p with
  | nil => simpa using h
  | cons e rest ih =>
    have hnext := hvisit visited p e h fun a ha hlabel =>
      hsame a (by simp [ha]) e (by simp) hlabel
    simpa using ih hnext (by simpa using hsame)

end Visit

/-- What a pass has done once some nodes are visited: every visited node is worth what
its name is bound to, and where no node was visited nothing has changed. -/
structure Passed (bindings : Bindings) (before : Store) (visited : List Expr) (p : Pass) :
    Prop where
  contains_iff : ∀ l, p.seen.contains l = true ↔ ∃ e ∈ visited, e.label = l
  get_visited : ∀ e ∈ visited,
    p.store.get e.label = (valueOf? bindings e).getD (before.get e.label)
  get_other : ∀ l, (∀ e ∈ visited, e.label ≠ l) → p.store.get l = before.get l

namespace Passed

variable {bindings : Bindings} {before : Store} {visited : List Expr} {p : Pass} {e : Expr}

theorem start (bindings : Bindings) (count : Nat) (before : Store) :
    Passed bindings before [] ⟨{}, count, before⟩ where
  contains_iff := by simp
  get_visited := by simp
  get_other := by simp

theorem visit (h : Passed bindings before visited p)
    (hsame : ∀ a ∈ visited, a.label = e.label → a = e) :
    Passed bindings before (visited ++ [e]) (Binder.visit bindings p e) := by
  have hcontains : ∀ l, (Binder.visit bindings p e).seen.contains l = true ↔
      ∃ a ∈ visited ++ [e], a.label = l := by
    intro l
    rw [contains_visit, h.contains_iff]
    simp [or_and_right, exists_or]
  by_cases hseen : p.seen.contains e.label = true
  · obtain ⟨a, ha, hlabel⟩ := (h.contains_iff e.label).mp hseen
    -- Met before, and as the same node, so its value is settled already.
    obtain rfl := hsame a ha hlabel
    refine ⟨hcontains, ?_, ?_⟩
    · intro b hb
      rw [visit_of_seen hseen]
      rcases List.mem_append.mp hb with hb | hb
      · exact h.get_visited b hb
      · obtain rfl := List.mem_singleton.mp hb
        exact h.get_visited b ha
    · intro l hl
      rw [visit_of_seen hseen]
      exact h.get_other l fun b hb => hl b (List.mem_append_left _ hb)
  · have hother : ∀ a ∈ visited, a.label ≠ e.label := by
      intro a ha hlabel
      exact hseen ((h.contains_iff e.label).mpr ⟨a, ha, hlabel⟩)
    refine ⟨hcontains, ?_, ?_⟩
    · intro b hb
      rw [get_visit hseen]
      rcases List.mem_append.mp hb with hb | hb
      · rw [if_neg fun hl => hother b hb hl.symm]
        exact h.get_visited b hb
      · obtain rfl := List.mem_singleton.mp hb
        rw [if_pos rfl, h.get_other _ hother]
    · intro l hl
      rw [get_visit hseen, if_neg (hl e (by simp))]
      exact h.get_other l fun b hb => hl b (List.mem_append_left _ hb)

theorem visitAll (h : Passed bindings before visited p) (nodes : List Expr)
    (hsame : ∀ a ∈ visited ++ nodes, ∀ b ∈ visited ++ nodes, a.label = b.label → a = b) :
    Passed bindings before (visited ++ nodes) (nodes.foldl (Binder.visit bindings) p) :=
  foldl_visit (Passed bindings before) (fun _ _ _ h hsame => h.visit hsame) h nodes hsame

end Passed

end Binder

namespace Expr

/-- After binding, every node is worth what its name is bound to, and what it was worth
before if it has no name or its name is not bound. -/
theorem get_bindAll {root : Expr} (h : root.Consistent) (bindings : Bindings) (store : Store)
    {e : Expr} (he : e ∈ root.preorder) :
    (root.bindAll bindings store).2.get e.label =
      (Binder.valueOf? bindings e).getD (store.get e.label) := by
  by_cases hempty : bindings.isEmpty = true
  · simp [bindAll, hempty, Binder.valueOf?_of_isEmpty hempty e]
  · have hpassed := (Binder.Passed.start bindings 0 store).visitAll root.preorder
      (by simpa [Consistent] using h)
    have hget := hpassed.get_visited e (by simpa using he)
    simpa [bindAll, hempty, Binder.apply, Binder.start] using hget

/-- Binding a tree changes nothing at the nodes of others. -/
theorem get_bindAll_other {root : Expr} (h : root.Consistent) (bindings : Bindings)
    (store : Store) {l : Label} (hl : l ∉ root.preorder.map label) :
    (root.bindAll bindings store).2.get l = store.get l := by
  by_cases hempty : bindings.isEmpty = true
  · simp [bindAll, hempty]
  · have hpassed := (Binder.Passed.start bindings 0 store).visitAll root.preorder
      (by simpa [Consistent] using h)
    have hother : ∀ e ∈ root.preorder, e.label ≠ l := by simpa using hl
    have hget := hpassed.get_other l (by simpa using hother)
    simpa [bindAll, hempty, Binder.apply, Binder.start] using hget

end Expr

end Reckoner
