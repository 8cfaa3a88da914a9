import Reckoner.Expr.Basic

/-!
Induction over trees, and what holds of all nodes of a tree. The terms of a chain are
taken all at once, so that no proof has to go along the list by itself.
-/

namespace Reckoner

namespace Expr

/-- Induction with all the terms of a chain at once. -/
@[elab_as_elim]
theorem induct {motive : Expr → Prop} (const : ∀ l v, motive (const l v))
    (var : ∀ l n, motive (var l n))
    (chain : ∀ l family o s e rest, motive e → (∀ t ∈ rest, motive t.2) →
      motive (chain l family o (s, e) rest))
    (power : ∀ l base exponent, motive base → motive exponent → motive (power l base exponent))
    (call : ∀ l callee argument, motive argument → motive (call l callee argument))
    (e : Expr) : motive e :=
  @Expr.rec motive (fun t => motive t.2) (fun rest => ∀ t ∈ rest, motive t.2) const var
    (fun l family o first rest => chain l family o first.1 first.2 rest) power call
    (fun _ _ h => h) (fun _ h => absurd h List.not_mem_nil)
    (fun _ _ hhead htail => List.forall_mem_cons.mpr ⟨hhead, htail⟩) e

/-- Induction with all the children of a node at once. -/
theorem induct_children {motive : Expr → Prop}
    (h : ∀ e, (∀ child ∈ e.children, motive child) → motive e) (e : Expr) : motive e := by
  induction e using induct with
  | const l v => exact h _ (by simp [children])
  | var l n => exact h _ (by simp [children])
  | chain l family o s e rest ihe ihrest =>
    apply h
    intro child hchild
    simp only [children, List.map_cons, List.mem_cons, List.mem_map] at hchild
    rcases hchild with rfl | ⟨t, ht, rfl⟩
    · exact ihe
    · exact ihrest t ht
  | power l base exponent ihbase ihexponent => exact h _ (by simp [children, ihbase, ihexponent])
  | call l callee argument ih => exact h _ (by simp [children, ih])

def Every (P : Expr → Prop) (e : Expr) : Prop := ∀ node ∈ e.preorder, P node

namespace Every

variable {P Q : Expr → Prop} {l : Label} {family : Family} {o s : Sign} {e base exponent : Expr}
  {rest : List (Sign × Expr)} {callee : Callee}

theorem const_iff {v : Float} : (const l v).Every P ↔ P (const l v) := by
  simp [Every, preorder]

theorem var_iff {n : String} : (var l n).Every P ↔ P (var l n) := by
  simp [Every, preorder]

theorem chain_iff : (chain l family o (s, e) rest).Every P ↔
    P (chain l family o (s, e) rest) ∧ e.Every P ∧ ∀ t ∈ rest, t.2.Every P := by
  simp only [Every, preorder, preorderTerms_eq, List.mem_cons, List.mem_append, List.mem_flatMap]
  constructor
  · intro h
    exact ⟨h _ (.inl rfl), fun node hnode => h node (.inr (.inl hnode)),
      fun t ht node hnode => h node (.inr (.inr ⟨t, ht, hnode⟩))⟩
  · rintro ⟨hnode, he, hrest⟩ node (rfl | hmem | ⟨t, ht, hmem⟩)
    · exact hnode
    · exact he node hmem
    · exact hrest t ht node hmem

theorem power_iff : (power l base exponent).Every P ↔
    P (power l base exponent) ∧ base.Every P ∧ exponent.Every P := by
  simp [Every, preorder, or_imp, forall_and]

theorem call_iff : (call l callee e).Every P ↔ P (call l callee e) ∧ e.Every P := by
  simp [Every, preorder, or_imp, forall_and]

variable {soFar term : Expr}

theorem extend (hsoFar : soFar.Every P) (hterm : term.Every P)
    (hnode : P (soFar.extend family l s term)) : (soFar.extend family l s term).Every P := by
  cases soFar with
  | chain k f o first rest =>
    obtain ⟨sign, e⟩ := first
    by_cases hf : f = family
    · obtain ⟨-, he, hrest⟩ := chain_iff.mp hsoFar
      simp only [Expr.extend, if_pos hf] at hnode ⊢
      refine chain_iff.mpr ⟨hnode, he, fun t ht => ?_⟩
      rcases List.mem_append.mp ht with ht | ht
      · exact hrest t ht
      · obtain rfl := List.mem_singleton.mp ht
        exact hterm
    · simp only [Expr.extend, if_neg hf] at hnode ⊢
      exact chain_iff.mpr ⟨hnode, hsoFar, by simpa using hterm⟩
  | const | var | power | call => exact chain_iff.mpr ⟨hnode, hsoFar, by simpa using hterm⟩

/-- What chains do not matter to holds of both parts of a chain gone on. -/
theorem of_extend (hchain : ∀ l f o first rest, P (chain l f o first rest))
    (h : (soFar.extend family l s term).Every P) : soFar.Every P ∧ term.Every P := by
  cases soFar with
  | chain k f o first rest =>
    obtain ⟨sign, e⟩ := first
    by_cases hf : f = family
    · simp only [Expr.extend, if_pos hf] at h
      obtain ⟨-, he, hrest⟩ := chain_iff.mp h
      exact ⟨chain_iff.mpr ⟨hchain .., he, fun t ht => hrest t (by simp [ht])⟩,
        hrest (s, term) (by simp)⟩
    · simp only [Expr.extend, if_neg hf] at h
      obtain ⟨-, hsoFar, hterm⟩ := chain_iff.mp h
      exact ⟨hsoFar, hterm (s, term) (by simp)⟩
  | const | var | power | call =>
    obtain ⟨-, hsoFar, hterm⟩ := chain_iff.mp h
    exact ⟨hsoFar, hterm (s, term) (by simp)⟩

theorem root (h : e.Every P) : P e := h e (by simp [preorder_eq e])

theorem mono (h : e.Every P) (himp : ∀ node, P node → Q node) : e.Every Q :=
  fun node hnode => himp node (h node hnode)

end Every

end Expr

end Reckoner
