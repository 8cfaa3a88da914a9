import Reckoner.Proofs.BindingRuns
import Reckoner.Proofs.Grammar.Names
import Reckoner.Proofs.Isolation

/-!
What the notes tell. A calculator finds the unbound names of a text in the list the formula
keeps of its names, and a formula finds out from a count that a binding is taken by no
leaf. The binder knows neither of the list nor of the notes: it goes over the leaves. So it
is shown that the three agree, in every formula a desk can have.
-/

namespace Reckoner

/-- The names without a value, each once, in the order in which they first appear. -/
structure Missing (bindings : Bindings) (all names : List String) : Prop where
  nodup : names.Nodup
  mem_iff : ∀ n, n ∈ names ↔ n ∈ all ∧ bindings[n]? = none
  ordered : names.Pairwise fun a b => all.idxOf a < all.idxOf b

/-- What is told of a binding in a formula, and what becomes of its leaves and of all others. -/
structure ToldOfBinding (f : Formula) (name : String) (value : Float) (before after : Store)
    (notes : List Note) : Prop where
  notes_eq : notes = if name ∈ f.names then [] else [.unmatched name value f.source]
  named_iff : name ∈ f.names ↔ ∃ l, .var l name ∈ f.root.preorder
  updated : (f.root.bindAll (Bindings.ofPairs [(name, value)]) before).1 = 0 ↔ name ∉ f.names
  leaf : ∀ l n, .var l n ∈ f.root.preorder →
    after.get l = if n = name then value else before.get l
  other : ∀ l, (∀ n, .var l n ∉ f.root.preorder) → after.get l = before.get l

section Missing

variable {bindings : Bindings} {all names : List String}

theorem FirstAppearances.missing (h : FirstAppearances names all) (bindings : Bindings) :
    Missing bindings all (names.filter fun name => !bindings.contains name) where
  nodup := h.nodup.filter _
  mem_iff n := by
    rw [List.mem_filter, h.mem_iff, Bool.not_eq_true', Std.TreeMap.contains_eq_isSome_getElem?,
      Option.isSome_eq_false_iff, Option.isNone_iff_eq_none]
  ordered := h.ordered.filter _

end Missing

namespace Expr

variable {root : Expr}

theorem mem_names_iff {n : String} : n ∈ root.names ↔ ∃ l, .var l n ∈ root.preorder := by
  refine ⟨fun h => ?_, fun h => ?_⟩
  · rw [names, List.mem_eraseDups] at h
    obtain ⟨node, hnode, hn⟩ := List.mem_filterMap.mp h
    cases node with
    | var l m =>
      obtain rfl := Option.some.inj hn
      exact ⟨l, hnode⟩
    | const | chain | power | call => simp [name?] at hn
  · obtain ⟨l, hl⟩ := h
    exact mem_names hl

/-- A name is bound in no leaf exactly if the tree does not have it. -/
theorem bindAll_count_eq_zero_iff (h : root.Consistent) (name : String) (value : Float)
    (store : Store) :
    (root.bindAll (Bindings.ofPairs [(name, value)]) store).1 = 0 ↔ name ∉ root.names := by
  have hleaf : ∀ l, l ∈ Binder.boundLeaves (Bindings.ofPairs [(name, value)]) root ↔
      .var l name ∈ root.preorder := by
    intro l
    rw [mem_boundLeaves_iff fun n => Bindings.last?_eq_ofPairs [(name, value)] n]
    simp
  rw [bindAll_count h, Finset.card_eq_zero, Finset.eq_empty_iff_forall_notMem, mem_names_iff,
    not_exists]
  exact forall_congr' fun l => not_congr (hleaf l)

end Expr

namespace Formula

variable {f : Formula} {store : Store} {text : String} {env : String → Float}

theorem Holds.bind (h : f.Holds store text env) (name : String) (value : Float) :
    ToldOfBinding f name value store (f.bind name value store).1 (f.bind name value store).2 where
  notes_eq := by
    have hcount := Expr.bindAll_count_eq_zero_iff h.consistent name value store
    rw [← h.names_eq] at hcount
    by_cases hname : name ∈ f.names
    · rw [if_pos hname]
      exact if_neg fun hzero => hcount.mp hzero hname
    · rw [if_neg hname]
      exact if_pos (hcount.mpr hname)
  named_iff := by rw [h.names_eq, Expr.mem_names_iff]
  updated := by rw [h.names_eq, Expr.bindAll_count_eq_zero_iff h.consistent]
  leaf := by
    intro l n hmem
    have hassigned := Expr.bindAll_assigned h.consistent (Bindings.ofPairs [(name, value)]) store
    have hleaf := hassigned.leaf l n hmem
    rw [← Bindings.last?_eq_ofPairs, Bindings.last?_cons] at hleaf
    rw [Formula.bind, hleaf]
    by_cases hn : n = name
    · simp [hn, Bindings.last?]
    · simp [hn, Bindings.last?]
  other := (Expr.bindAll_assigned h.consistent (Bindings.ofPairs [(name, value)]) store).other

end Formula

namespace Calculator

variable {c : Calculator} {heap : Heap} {text : String} {tokens : List Token}

end Calculator

namespace Desk

variable {d : Desk}

end Desk

end Reckoner
