import Reckoner.Proofs.Grammar.Phrase

/-!
Labels in the tree of a phrase. Every node takes its label from a token of the word,
and no two nodes take it from the same token: going on a chain in place adds labels
further to the right and none that the chain has already.
-/

namespace Reckoner

namespace Expr

def labels (e : Expr) : List Nat := e.preorder.map label

def Distinct (e : Expr) : Prop := e.labels.Nodup

theorem labels_chain (l : Label) (family : Family) (o sign : Sign) (e : Expr)
    (rest : List (Sign × Expr)) :
    (chain l family o (sign, e) rest).labels =
      l :: (e.labels ++ rest.flatMap fun t => t.2.labels) := by
  simp [labels, preorder, preorderTerms_eq, label, List.map_flatMap]

theorem labels_power (l : Label) (base exponent : Expr) :
    (power l base exponent).labels = l :: (base.labels ++ exponent.labels) := by
  simp [labels, preorder, label]

theorem labels_call (l : Label) (callee : Callee) (argument : Expr) :
    (call l callee argument).labels = l :: argument.labels := by
  simp [labels, preorder, label]

theorem labels_ne_nil (e : Expr) : e.labels ≠ [] := by
  simp [labels, preorder_eq e]

/-- Going on a chain keeps its labels, opening one adds a label in front. -/
theorem labels_extend (soFar : Expr) (family : Family) (l : Label) (sign : Sign) (term : Expr) :
    (soFar.extend family l sign term).labels = soFar.labels ++ term.labels ∨
      (soFar.extend family l sign term).labels = l :: (soFar.labels ++ term.labels) := by
  cases soFar with
  | chain k f o first rest =>
    obtain ⟨s, e⟩ := first
    by_cases hf : f = family
    · left
      simp [extend, hf, labels_chain]
    · right
      simp [extend, hf, labels_chain]
  | const | var | power | call =>
    right
    simp [extend, labels_chain]

structure Within (low high : Nat) (e : Expr) : Prop where
  nodup : e.labels.Nodup
  low_le : ∀ l ∈ e.labels, low ≤ l
  lt_high : ∀ l ∈ e.labels, l < high

namespace Within

variable {low mid high : Nat} {e first last : Expr}

theorem leaf (low : Nat) (h : e.labels = [low]) : Within low (low + 1) e where
  nodup := by simp [h]
  low_le := by simp [h]
  lt_high := by simp [h]

theorem widen {low' high' : Nat} (h : Within low high e) (hlow : low' ≤ low)
    (hhigh : high ≤ high') : Within low' high' e where
  nodup := h.nodup
  low_le l hl := Nat.le_trans hlow (h.low_le l hl)
  lt_high l hl := Nat.lt_of_lt_of_le (h.lt_high l hl) hhigh

theorem low_lt_high (h : Within low high e) : low < high := by
  obtain ⟨l, hl⟩ := List.exists_mem_of_ne_nil _ e.labels_ne_nil
  exact Nat.lt_of_le_of_lt (h.low_le l hl) (h.lt_high l hl)

/-- Two ranges with a label between them. -/
theorem nodup_append (hfirst : Within low mid first) (hlast : Within (mid + 1) high last) :
    (mid :: (first.labels ++ last.labels)).Nodup := by
  have hdisjoint : ∀ l ∈ first.labels, ∀ k ∈ last.labels, l ≠ k := by
    intro l hl k hk
    have hlt := hfirst.lt_high l hl
    have hle := hlast.low_le k hk
    omega
  refine List.nodup_cons.mpr ⟨?_, List.nodup_append.mpr ⟨hfirst.nodup, hlast.nodup, hdisjoint⟩⟩
  intro hmem
  rcases List.mem_append.mp hmem with hmem | hmem
  · exact Nat.lt_irrefl mid (hfirst.lt_high mid hmem)
  · exact Nat.not_succ_le_self mid (hlast.low_le mid hmem)

theorem of_labels (hfirst : Within low mid first) (hlast : Within (mid + 1) high last)
    (h : e.labels = first.labels ++ last.labels ∨
      e.labels = mid :: (first.labels ++ last.labels)) : Within low high e := by
  have hlow := hfirst.low_lt_high
  have hhigh := hlast.low_lt_high
  have hnodup := nodup_append hfirst hlast
  have hmem : ∀ l ∈ e.labels, l = mid ∨ l ∈ first.labels ∨ l ∈ last.labels := by
    intro l hl
    rcases h with h | h
    · rw [h] at hl
      exact .inr (List.mem_append.mp hl)
    · rw [h] at hl
      rcases List.mem_cons.mp hl with rfl | hl
      · exact .inl rfl
      · exact .inr (List.mem_append.mp hl)
  refine ⟨?_, ?_, ?_⟩
  · rcases h with h | h
    · rw [h]
      exact (List.nodup_cons.mp hnodup).2
    · rw [h]
      exact hnodup
  · intro l hl
    rcases hmem l hl with rfl | hl | hl
    · omega
    · exact hfirst.low_le l hl
    · have := hlast.low_le l hl
      omega
  · intro l hl
    rcases hmem l hl with rfl | hl | hl
    · omega
    · have := hfirst.lt_high l hl
      omega
    · exact hlast.lt_high l hl

/-- One label in front of a range. -/
theorem cons (hlast : Within (low + 1) high last) (h : e.labels = low :: last.labels) :
    Within low high e where
  nodup := by
    rw [h]
    refine List.nodup_cons.mpr ⟨fun hmem => ?_, hlast.nodup⟩
    exact Nat.not_succ_le_self low (hlast.low_le low hmem)
  low_le := by
    intro l hl
    rw [h] at hl
    rcases List.mem_cons.mp hl with rfl | hl
    · exact Nat.le_refl l
    · have := hlast.low_le l hl
      omega
  lt_high := by
    have hlow := hlast.low_lt_high
    intro l hl
    rw [h] at hl
    rcases List.mem_cons.mp hl with rfl | hl
    · omega
    · exact hlast.lt_high l hl

end Within

end Expr

namespace Phrase

open Reckoner.Expr

theorem within_signedTree {low high : Nat} {build : Label → Expr} (sign : Option Sign)
    (h : ∀ low' : Nat, low' = low + (signWord sign).length → Within low' high (build low')) :
    Within low high (signedTree low sign build) := by
  cases sign with
  | none => exact h low (by simp [signWord])
  | some sign =>
    have hbuild : Within (low + 1) high (build (low + 1)) := h (low + 1) (by simp [signWord])
    cases sign with
    | plus => exact hbuild.widen (Nat.le_succ low) (Nat.le_refl high)
    | minus => exact hbuild.cons (by simp [signedTree, negate, labels_chain])

/-- The nodes of a phrase are labelled by different tokens of its word. -/
theorem within_tree {level : Level} (p : Phrase level) (label : Nat) :
    Within label (label + p.word.length) (p.tree label) := by
  induction p generalizing label with
  | signed sign t ih =>
    apply within_signedTree
    intro low hlow
    subst hlow
    simpa [word, Nat.add_assoc] using ih (label + (signWord sign).length)
  | sum p sign t ihp iht =>
    refine Within.of_labels (ihp label) ?_ (labels_extend ..)
    simpa [word, Nat.add_assoc, Nat.add_comm, Nat.add_left_comm] using
      iht (label + p.word.length + 1)
  | factor f ih => exact ih label
  | product p sign factorSign f ihp ihf =>
    refine Within.of_labels (ihp label) ?_ (labels_extend ..)
    apply within_signedTree
    intro low hlow
    subst hlow
    simpa [word, Nat.add_assoc, Nat.add_comm, Nat.add_left_comm] using
      ihf (label + p.word.length + 1 + (signWord factorSign).length)
  | argument a ih => exact ih label
  | power b exponentSign e ihb ihe =>
    refine Within.of_labels (ihb label) ?_ (.inr (labels_power ..))
    apply within_signedTree
    intro low hlow
    subst hlow
    simpa [word, Nat.add_assoc, Nat.add_comm, Nat.add_left_comm] using
      ihe (label + b.word.length + 1 + (signWord exponentSign).length)
  | call function a ih =>
    refine Within.cons ?_ (labels_call ..)
    simpa [word, Nat.add_assoc, Nat.add_comm, Nat.add_left_comm] using ih (label + 1)
  | bracketed e ih =>
    refine (ih (label + 1)).widen (Nat.le_succ label) ?_
    simp [word]
    omega
  | number v => exact Within.leaf label rfl
  | name n => exact Within.leaf label rfl

theorem distinct_tree {level : Level} (p : Phrase level) (label : Nat) :
    (p.tree label).Distinct := (p.within_tree label).nodup

end Phrase

end Reckoner
