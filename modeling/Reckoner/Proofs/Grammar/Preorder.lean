import Mathlib.Data.List.Forall2
import Reckoner.Proofs.Grammar.Productions

/-!
The nodes of a phrase's tree against the symbols of its word. In pre-order the operands of
the tree stand as they do in the word: a term that goes on a chain becomes its last. The
operators do not keep their places, since a chain comes before all of its operands, but
the chains together have as many of each as the word.
-/

namespace Reckoner

namespace Symbol

def isOperand : Symbol → Bool
  | number _ | name _ | function _ => true
  | operator _ _ | caret | openBracket | closeBracket => false

end Symbol

/-- The operator between two terms of a chain. A plus of a sum leaves no trace, since one
before the first term is dropped. -/
def Family.operators : Family → Sign → List TokenKind
  | sum, .plus => []
  | sum, .minus => [.minus]
  | product, .plus => [.star]
  | product, .minus => [.slash]

def Symbol.operators : Symbol → List TokenKind
  | operator family sign => family.operators sign
  | caret => [.caret]
  | openBracket | closeBracket | function _ | number _ | name _ => []

namespace Expr

def isOperand : Expr → Bool
  | const _ _ | var _ _ | call _ _ _ => true
  | chain _ _ _ _ _ | power _ _ _ => false

inductive StandsFor : Expr → Symbol → Prop
  | const (l : Label) (v : Float) : StandsFor (const l v) (.number v)
  | var (l : Label) (n : String) : StandsFor (var l n) (.name n)
  | call (l : Label) (f : Builtin) (argument : Expr) :
      StandsFor (call l (.builtin f) argument) (.function f)

/-- The operator that a negative first term of a chain is told by. -/
def firstOperators (family : Family) : Sign → List TokenKind
  | .plus => []
  | .minus => family.operators .minus

def operators : Expr → List TokenKind
  | chain _ family _ first rest =>
      firstOperators family first.1 ++ rest.flatMap fun t => family.operators t.1
  | power _ _ _ => [.caret]
  | const _ _ | var _ _ | call _ _ _ => []

def operands (e : Expr) : List Expr := e.preorder.filter isOperand

def allOperators (e : Expr) : List TokenKind := e.preorder.flatMap operators

variable {l : Label} {family : Family} {o sign : Sign} {e : Expr} {rest : List (Sign × Expr)}

theorem operands_chain : (chain l family o (sign, e) rest).operands =
    e.operands ++ rest.flatMap fun t => t.2.operands := by
  simp [operands, preorder, preorderTerms_eq, isOperand, List.filter_flatMap]

theorem operands_power (base exponent : Expr) :
    (power l base exponent).operands = base.operands ++ exponent.operands := by
  simp [operands, preorder, isOperand]

theorem operands_call (callee : Callee) (argument : Expr) :
    (call l callee argument).operands = call l callee argument :: argument.operands := by
  simp [operands, preorder, List.filter_cons, isOperand]

/-- Going on a chain or opening one puts the operands of the term last. -/
theorem operands_extend (soFar term : Expr) :
    (soFar.extend family l sign term).operands = soFar.operands ++ term.operands := by
  cases soFar with
  | chain k f o first rest =>
    obtain ⟨s, e⟩ := first
    by_cases hf : f = family
    · simp [extend, hf, operands_chain]
    · simp [extend, hf, operands_chain]
  | const | var | power | call => simp [extend, operands_chain]

theorem allOperators_chain : (chain l family o (sign, e) rest).allOperators =
    firstOperators family sign ++ (rest.flatMap fun t => family.operators t.1) ++
      (e.allOperators ++ rest.flatMap fun t => t.2.allOperators) := by
  simp [allOperators, preorder, preorderTerms_eq, operators, List.flatMap_assoc]

theorem allOperators_power (base exponent : Expr) : (power l base exponent).allOperators =
    .caret :: (base.allOperators ++ exponent.allOperators) := by
  simp [allOperators, preorder, operators]

theorem allOperators_call (callee : Callee) (argument : Expr) :
    (call l callee argument).allOperators = argument.allOperators := by
  simp [allOperators, preorder, operators]

/-- Going on a chain or opening one adds one operator. -/
theorem allOperators_extend (soFar term : Expr) :
    (soFar.extend family l sign term).allOperators.Perm
      (soFar.allOperators ++ (family.operators sign ++ term.allOperators)) := by
  have hopened : (chain l family sign (.plus, soFar) [(sign, term)]).allOperators.Perm
      (soFar.allOperators ++ (family.operators sign ++ term.allOperators)) := by
    rw [allOperators_chain]
    simp only [firstOperators, List.flatMap_singleton, List.nil_append]
    rw [← List.append_assoc, ← List.append_assoc]
    exact List.perm_append_comm.append_right _
  cases soFar with
  | chain k f o first rest =>
    obtain ⟨s, e⟩ := first
    by_cases hf : f = family
    · subst hf
      rw [extend, if_pos rfl, allOperators_chain, allOperators_chain]
      simp only [List.flatMap_append, List.flatMap_singleton, List.append_assoc]
      -- The operator stands before the operands of the chain now, and not behind them.
      refine List.perm_iff_count.mpr fun k => ?_
      simp only [List.count_append]
      omega
    · rw [extend, if_neg hf]
      exact hopened
  | const | var | power | call => exact hopened

end Expr

namespace Phrase

open Reckoner.Expr

/-- A leading sign has no operand, and the node it makes is none. -/
theorem operands_signedTree {build : Label → Expr} {symbols : List Symbol}
    (sign : Option Sign) (h : ∀ label, List.Forall₂ StandsFor (build label).operands symbols)
    (label : Label) : List.Forall₂ StandsFor (signedTree label sign build).operands symbols := by
  cases sign with
  | none => exact h label
  | some sign =>
    cases sign with
    | plus => exact h (label + 1)
    | minus =>
      rw [signedTree, negate, operands_chain]
      simpa using h (label + 1)

theorem filter_signWord (sign : Option Sign) : (signWord sign).filter Symbol.isOperand = [] := by
  cases sign <;> rfl

/-- The operands of a phrase stand in its tree as in its word. -/
theorem forall₂_operands {level : Level} (p : Phrase level) (label : Label) :
    List.Forall₂ StandsFor (p.tree label).operands (p.word.filter Symbol.isOperand) := by
  induction p generalizing label with
  | signed sign t ih =>
    rw [word, List.filter_append, filter_signWord, List.nil_append]
    exact operands_signedTree sign ih label
  | sum p sign t ihp iht =>
    rw [tree, operands_extend, word, List.filter_append]
    exact List.rel_append (ihp _) (iht _)
  | factor f ih => exact ih label
  | product p sign factorSign f ihp ihf =>
    rw [tree, operands_extend, word, List.filter_append, List.filter_cons_of_neg Bool.false_ne_true,
      List.filter_append, filter_signWord]
    exact List.rel_append (ihp _) (operands_signedTree factorSign ihf _)
  | argument a ih => exact ih label
  | power b exponentSign e ihb ihe =>
    rw [tree, operands_power, word, List.filter_append, List.filter_cons_of_neg Bool.false_ne_true,
      List.filter_append, filter_signWord]
    exact List.rel_append (ihb _) (operands_signedTree exponentSign ihe _)
  | call function a ih =>
    rw [tree, operands_call]
    exact .cons (.call ..) (ih _)
  | bracketed e ih =>
    rw [tree, word, List.filter_cons_of_neg (by simp [Symbol.isOperand]), List.filter_append]
    simpa [Symbol.isOperand] using ih (label + 1)
  | number v => exact .cons (.const ..) .nil
  | name n => exact .cons (.var ..) .nil

/-- A leading minus makes a chain with one operator, a leading plus makes nothing. -/
theorem allOperators_signedTree {build : Label → Expr} {operators : List TokenKind}
    (sign : Option Sign) (h : ∀ label, (build label).allOperators.Perm operators)
    (label : Label) : (signedTree label sign build).allOperators.Perm
      ((signWord sign).flatMap Symbol.operators ++ operators) := by
  cases sign with
  | none => exact h label
  | some sign =>
    cases sign with
    | plus => exact h (label + 1)
    | minus =>
      rw [signedTree, negate, allOperators_chain]
      simpa [signWord, firstOperators, Symbol.operators] using (h (label + 1)).append_left _

/-- The tree of a phrase has the operators of its word. -/
theorem perm_allOperators {level : Level} (p : Phrase level) (label : Label) :
    (p.tree label).allOperators.Perm (p.word.flatMap Symbol.operators) := by
  induction p generalizing label with
  | signed sign t ih =>
    rw [word, List.flatMap_append]
    exact allOperators_signedTree sign ih label
  | sum p sign t ihp iht =>
    rw [tree, word, List.flatMap_append, List.flatMap_cons]
    exact (allOperators_extend ..).trans ((ihp _).append ((iht _).append_left _))
  | factor f ih => exact ih label
  | product p sign factorSign f ihp ihf =>
    rw [tree, word, List.flatMap_append, List.flatMap_cons, List.flatMap_append]
    exact (allOperators_extend ..).trans
      ((ihp _).append ((allOperators_signedTree factorSign ihf _).append_left _))
  | argument a ih => exact ih label
  | power b exponentSign e ihb ihe =>
    rw [tree, allOperators_power, word, List.flatMap_append, List.flatMap_cons,
      List.flatMap_append]
    have hboth := (ihb label).append
      (allOperators_signedTree exponentSign ihe (label + b.word.length + 1))
    exact (hboth.cons .caret).trans List.perm_middle.symm
  | call function a ih =>
    rw [tree, allOperators_call]
    exact ih _
  | bracketed e ih =>
    rw [tree, word, List.flatMap_cons, List.flatMap_append]
    simpa [Symbol.operators] using ih (label + 1)
  | number v => exact .nil
  | name n => exact .nil

end Phrase

end Reckoner
