import Reckoner.Number.Numeral
import Reckoner.Proofs.Machines
import Reckoner.Proofs.Nodes
import Reckoner.Proofs.Number.Written

/-!
What stops the writing of a tree. Where no unknown function is called, every tree is
written unless it has a constant that is not a number.
-/

namespace Reckoner

namespace Expr

variable {root : Expr}

def Known : Expr → Prop
  | call _ callee _ => ∃ function, callee = .builtin function
  | _ => True

def Numeric : Expr → Prop
  | const _ v => v.isNaN = false
  | _ => True

theorem foldTerms_unwritable {rest : List (Sign × Expr)}
    (h : ∀ t ∈ rest, textAlgebra.fold t.2 = .error .unwritable ∨
      (∃ r, textAlgebra.fold t.2 = .ok r) ∧ t.2.Every Numeric) :
    textAlgebra.foldTerms rest = .error .unwritable ∨
      (∃ operands, textAlgebra.foldTerms rest = .ok operands) ∧ ∀ t ∈ rest, t.2.Every Numeric := by
  induction rest with
  | nil => exact .inr ⟨⟨[], rfl⟩, by simp⟩
  | cons t rest ih =>
    obtain ⟨sign, e⟩ := t
    rcases ih fun t ht => h t (List.mem_cons_of_mem _ ht) with hrest | ⟨⟨operands, hrest⟩, hnumeric⟩
    · exact .inl (by rw [Algebra.foldTerms, hrest]; rfl)
    rcases h (sign, e) (by simp) with he | ⟨⟨r, he⟩, hnumber⟩
    · exact .inl (by rw [Algebra.foldTerms, hrest, he]; rfl)
    · exact .inr ⟨⟨_, Algebra.foldTerms_cons he hrest sign⟩,
        List.forall_mem_cons.mpr ⟨hnumber, hnumeric⟩⟩

/-- Without unknown functions, only a constant without a value stops the writing. -/
theorem fold_unwritable {e : Expr} (h : e.Every Known) :
    textAlgebra.fold e = .error .unwritable ∨
      (∃ r, textAlgebra.fold e = .ok r) ∧ e.Every Numeric := by
  induction e using induct with
  | const l v =>
    cases hnan : v.isNaN with
    | true => exact .inl (by simp [Algebra.fold, textAlgebra, Rendered.ofConst,
        Numeral.literal?_of_isNaN hnan])
    | false =>
      obtain ⟨text, htext⟩ := Numeral.exists_literal? hnan
      have hconst : textAlgebra.const v =
          .ok ⟨text, if text.toList.head? = some '-' then .sum else .atom⟩ := by
        simp only [textAlgebra, Rendered.ofConst, htext]
      exact .inr ⟨⟨_, hconst⟩, Every.const_iff.mpr hnan⟩
  | var l n => exact .inr ⟨⟨_, rfl⟩, Every.var_iff.mpr trivial⟩
  | chain l family o s e rest ihe ihrest =>
    obtain ⟨-, he, hrest⟩ := Every.chain_iff.mp h
    rcases foldTerms_unwritable fun t ht => ihrest t ht (hrest t ht) with
      hterms | ⟨⟨operands, hterms⟩, hnumeric⟩
    · exact .inl (by rw [Algebra.fold, hterms]; rfl)
    rcases ihe he with hfirst | ⟨⟨r, hfirst⟩, hnumber⟩
    · exact .inl (by rw [Algebra.fold, hterms, hfirst]; rfl)
    · exact .inr ⟨⟨_, Algebra.fold_chain hfirst hterms l family o s⟩,
        Every.chain_iff.mpr ⟨trivial, hnumber, hnumeric⟩⟩
  | power l base exponent ihbase ihexponent =>
    obtain ⟨-, hbase, hexponent⟩ := Every.power_iff.mp h
    rcases ihexponent hexponent with hlast | ⟨⟨r', hlast⟩, hnumber'⟩
    · exact .inl (by rw [Algebra.fold, hlast]; rfl)
    rcases ihbase hbase with hfirst | ⟨⟨r, hfirst⟩, hnumber⟩
    · exact .inl (by rw [Algebra.fold, hlast, hfirst]; rfl)
    · exact .inr ⟨⟨_, Algebra.fold_power hfirst hlast l⟩,
        Every.power_iff.mpr ⟨trivial, hnumber, hnumber'⟩⟩
  | call l callee argument ih =>
    obtain ⟨⟨function, rfl⟩, hargument⟩ := Every.call_iff.mp h
    rcases ih hargument with hfold | ⟨⟨r, hfold⟩, hnumber⟩
    · exact .inl (by rw [Algebra.fold, hfold]; rfl)
    · exact .inr ⟨⟨_, Algebra.fold_call hfold l _⟩, Every.call_iff.mpr ⟨trivial, hnumber⟩⟩

theorem render_unwritable (h : root.Every Known) {l : Label} {v : Float}
    (hmem : const l v ∈ root.preorder) (hnan : v.isNaN = true) :
    root.render = .error .unwritable := by
  rcases fold_unwritable h with hfold | ⟨-, hnumeric⟩
  · rw [render_eq_fold, hfold]
    rfl
  · have hnumber : v.isNaN = false := hnumeric _ hmem
    rw [hnan] at hnumber
    simp at hnumber

end Expr

end Reckoner
