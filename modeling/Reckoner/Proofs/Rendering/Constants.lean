import Reckoner.Proofs.Number.Written
import Reckoner.Proofs.Rendering.Reread

/-!
A number on its own, written and read again. The four forms of a literal, infinity as a
number too large to hold, whole numbers by their digits, the other numbers with a point or an
exponent, and a minus in front, are all read as a tree that is worth the number, whatever
values variables have. One thing is lost: the whole number zero is written as one digit,
without the sign it may have.
-/

namespace Reckoner

open Numeral

/-- There is no variable in what a number is read as. -/
theorem Piece.agrees_ofConst (store : Store) (env : String → Float) (label : Nat) (v : Float) :
    Expr.Agrees store env (((Piece.ofConst v).within .sum).tree label) := by
  have hleaf : ∀ l x, Expr.Agrees store env (.const l x) :=
    fun l x => (Expr.Every.const_iff (P := Expr.Worth store env)).mpr trivial
  unfold Piece.ofConst
  cases Arithmetic.signOf v with
  | plus => exact hleaf label v
  | minus =>
    show Expr.Every (Expr.Worth store env)
      (.chain label .sum .minus (.minus, .const (label + 1) (-v)) [])
    exact Expr.Every.chain_iff.mpr ⟨trivial, hleaf _ _, by simp⟩

theorem Expr.render_const {v : Float} {text : String} (h : literal? v = some text) (l : Label) :
    (Expr.const l v).render = .ok text := by
  have hfold : ∃ level, textAlgebra.fold (.const l v) = .ok ⟨text, level⟩ := by
    show ∃ level, Rendered.ofConst v = .ok ⟨text, level⟩
    unfold Rendered.ofConst
    rw [h]
    exact ⟨_, rfl⟩
  obtain ⟨level, hfold⟩ := hfold
  rw [render_eq_fold, hfold]
  rfl

/-- All numbers but the negative zero. -/
theorem Numeral.exists_reread {v : Float} (hnan : v.isNaN = false) (hzero : v ≠ -0.0) :
    ∃ text, literal? v = some text ∧ ∀ label, ∃ r, Rooted.ofText label text = .ok r ∧
      ∀ store, r.root.evaluate store = .ok v := by
  obtain ⟨text, htext⟩ := exists_literal? hnan
  obtain ⟨r, hr, hwrites⟩ := Rendered.exists_writes_ofConst hnan hzero
  have hsame : r.text = text := by
    simp only [Rendered.ofConst, htext, Except.ok.injEq] at hr
    rw [← hr]
  have hlexes := hwrites.within .sum
  rw [Rendered.within_sum, hsame] at hlexes
  refine ⟨text, htext, fun label => ?_⟩
  obtain ⟨free, hread⟩ := Rooted.ofText_of_lexes hlexes label
  refine ⟨_, hread, fun store => ?_⟩
  have hagrees := Piece.agrees_ofConst store (fun _ => 0.0) label v
  rw [Expr.evaluate_eq_fold, Phrase.fold_tree _ hagrees, Piece.value_within,
    Piece.value_ofConst _ hnan]

/-- The negative zero is written as the positive one. -/
theorem Numeral.exists_reread_negative_zero :
    ∃ text, literal? (-0.0) = some text ∧ ∀ label, ∃ r, Rooted.ofText label text = .ok r ∧
      ∀ store, r.root.evaluate store = .ok 0.0 := by
  have hzero : (0.0 : Float).isNaN = false ∧ (0.0 : Float) ≠ -0.0 := by decide +kernel
  have hsame : literal? (-0.0) = literal? 0.0 := by decide +kernel
  rw [hsame]
  exact exists_reread hzero.1 hzero.2

/-- The literal of a number, and it is what is written of a constant node, is read as a tree
that is worth the number, with one exception: the negative zero comes back as the positive
one. -/
theorem Numeral.literal?_rereads {v : Float} (h : v.isNaN = false) :
    ∃ text, literal? v = some text ∧ (∀ l, (Expr.const l v).render = .ok text) ∧
      ∀ label, ∃ r, Rooted.ofText label text = .ok r ∧
        ∀ store, r.root.evaluate store = .ok (if v = -0.0 then 0.0 else v) := by
  by_cases hzero : v = -0.0
  · subst hzero
    obtain ⟨text, htext, hread⟩ := exists_reread_negative_zero
    rw [if_pos rfl]
    exact ⟨text, htext, Expr.render_const htext, hread⟩
  · obtain ⟨text, htext, hread⟩ := exists_reread h hzero
    rw [if_neg hzero]
    exact ⟨text, htext, Expr.render_const htext, hread⟩

/-- The least number above zero, negated: read through a minus, it comes back. -/
theorem Numeral.literal?_rereads_least_negative :
    literal? (-5e-324) = some "-5e-324" ∧ ∃ r, Rooted.ofText 0 "-5e-324" = .ok r ∧
      r.root.evaluate Store.empty = .ok (-5e-324) := by
  have hliteral : literal? (-5e-324) = some "-5e-324" := by decide +kernel
  have hnan : (-5e-324 : Float).isNaN = false ∧ (-5e-324 : Float) ≠ -0.0 := by decide +kernel
  obtain ⟨text, htext, -, hread⟩ := literal?_rereads hnan.1
  obtain rfl := Option.some.inj (hliteral.symm.trans htext)
  obtain ⟨r, hr, hvalue⟩ := hread 0
  rw [if_neg hnan.2] at hvalue
  exact ⟨hliteral, r, hr, hvalue Store.empty⟩

/-- What is written of the negative zero is worth the positive one, and dividing by the two
gives infinities of different signs. -/
theorem Numeral.negative_zero_loses_sign :
    (-0.0 : Float).isNaN = false ∧ ∃ text, literal? (-0.0) = some text ∧
      ∃ r, Rooted.ofText 0 text = .ok r ∧ r.root.evaluate Store.empty = .ok 0.0 ∧
        (0.0 : Float) ≠ -0.0 ∧ Arithmetic.divide 1.0 0.0 ≠ Arithmetic.divide 1.0 (-0.0) := by
  obtain ⟨text, htext, hread⟩ := exists_reread_negative_zero
  obtain ⟨r, hr, hvalue⟩ := hread 0
  exact ⟨by decide +kernel, text, htext, r, hr, hvalue Store.empty, by decide +kernel,
    by decide +kernel⟩

end Reckoner
