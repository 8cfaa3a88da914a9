import Reckoner.Proofs.Binding
import Reckoner.Proofs.Grammar.Labels
import Reckoner.Proofs.Grammar.Soundness
import Reckoner.Proofs.Machines
import Reckoner.Proofs.Nodes
import Reckoner.Proofs.Source

/-!
A parsed tree is worth what its word says. Going on a chain in place, whether it came
out of brackets or was opened by a minus, adds one operation to those already done,
so it makes no difference to the result whether the chain was gone on or put into a
new one. No law of the operations on numbers is used.
-/

namespace Reckoner

open Reckoner.Algebra

namespace Expr

def Worth (store : Store) (env : String → Float) : Expr → Prop
  | var l n => store.get l = env n
  | _ => True

/-- All variable nodes are worth what the environment gives their names. -/
def Agrees (store : Store) (env : String → Float) (e : Expr) : Prop := e.Every (Worth store env)

/-- Going on a chain or opening one does one more operation. -/
theorem fold_extend {store : Store} {soFar term : Expr} {a b : Float}
    (hsoFar : (valueAlgebra store).fold soFar = .ok a)
    (hterm : (valueAlgebra store).fold term = .ok b)
    (family : Family) (l : Label) (sign : Sign) :
    (valueAlgebra store).fold (soFar.extend family l sign term) =
      .ok (accumulate family a (sign, b)) := by
  have hlast : (valueAlgebra store).foldTerms [(sign, term)] = .ok [(sign, b)] :=
    foldTerms_cons hterm rfl sign
  have hopened : (valueAlgebra store).fold (.chain l family sign (.plus, soFar) [(sign, term)]) =
      .ok (accumulate family a (sign, b)) := by
    rw [fold_chain hsoFar hlast]
    cases family <;> rfl
  cases soFar with
  | chain k f o first rest =>
    obtain ⟨s, e⟩ := first
    by_cases hf : f = family
    · subst hf
      obtain ⟨v, operands, he, hrest, rfl⟩ := fold_chain_iff.mp hsoFar
      simp only [extend, if_true]
      rw [fold_chain he (foldTerms_append hrest hlast)]
      simp [valueAlgebra, chainValue]
    · simpa only [extend, hf, if_false] using hopened
  | const | var | power | call => exact hopened

end Expr

namespace Phrase

open Reckoner.Expr

variable {store : Store} {env : String → Float} {label : Nat}

theorem fold_signedTree {build : Label → Expr} {v : Float} (sign : Option Sign)
    (h : (valueAlgebra store).fold (build (label + (signWord sign).length)) = .ok v) :
    (valueAlgebra store).fold (signedTree label sign build) = .ok (signedValue sign v) := by
  cases sign with
  | none => exact h
  | some sign =>
    cases sign with
    | plus => exact h
    | minus =>
      have hnone : (valueAlgebra store).foldTerms [] = .ok [] := rfl
      exact fold_chain h hnone label .sum .minus .minus

theorem agrees_signedTree {build : Label → Expr} {sign : Option Sign}
    (h : Agrees store env (signedTree label sign build)) :
    Agrees store env (build (label + (signWord sign).length)) := by
  cases sign with
  | none => exact h
  | some sign =>
    cases sign with
    | plus => exact h
    | minus => exact (Every.chain_iff.mp h).2.1

/-- The tree of a phrase is worth the value of the phrase. -/
theorem fold_tree {level : Level} (p : Phrase level) (h : Agrees store env (p.tree label)) :
    (valueAlgebra store).fold (p.tree label) = .ok (p.value env) := by
  induction p generalizing label with
  | signed sign t ih => exact fold_signedTree sign (ih (agrees_signedTree h))
  | sum p sign t ihp iht =>
    obtain ⟨hp, ht⟩ := Every.of_extend (fun _ _ _ _ _ => trivial) h
    rw [tree, fold_extend (ihp hp) (iht ht)]
    cases sign <;> rfl
  | factor f ih => exact ih h
  | product p sign factorSign f ihp ihf =>
    obtain ⟨hp, hf⟩ := Every.of_extend (fun _ _ _ _ _ => trivial) h
    have hfactor := ihf (agrees_signedTree hf)
    rw [tree, fold_extend (ihp hp) (fold_signedTree factorSign hfactor)]
    cases sign <;> rfl
  | argument a ih => exact ih h
  | power b exponentSign e ihb ihe =>
    obtain ⟨-, hb, he⟩ := Every.power_iff.mp h
    have hexponent := ihe (agrees_signedTree he)
    exact fold_power (ihb hb) (fold_signedTree exponentSign hexponent) _
  | call function a ih => exact fold_call (ih (Every.call_iff.mp h).2) _ _
  | bracketed e ih => exact ih h
  | number v => rfl
  | name n => exact congrArg Except.ok (Every.var_iff.mp h)

def Reads (p : Phrase .sum) (tokens : List Token) : Prop :=
  ∃ word ends, tokens = word ++ ends ∧ Spells word p.word ∧ Parser.Ended ends

end Phrase

namespace Expr

/-- Once bound, a tree agrees with the bindings, and where these have nothing with what it
agreed with before. -/
theorem agrees_bindAll {root : Expr} {store : Store} {env : String → Float}
    (h : root.Consistent) (bindings : Bindings)
    (hstore : ∀ l n, var l n ∈ root.preorder → bindings[n]? = none → store.get l = env n) :
    Agrees (root.bindAll bindings store).2 (fun n => bindings.getD n (env n)) root := by
  intro node hnode
  cases node with
  | var l n =>
    have hget := get_bindAll h bindings store hnode
    have hvalue : Binder.valueOf? bindings (var l n) = bindings[n]? := rfl
    simp only [label, hvalue] at hget
    change (root.bindAll bindings store).2.get l = bindings.getD n (env n)
    rw [hget, Std.TreeMap.getD_eq_getD_getElem?]
    cases hn : bindings[n]? with
    | none => exact hstore l n hnode hn
    | some v => rfl
  | const | chain | power | call => trivial

end Expr

/-- A parsed and bound tree evaluates to what the word says under the bindings, however
the word is read by the grammar; and there is such a reading. -/
theorem evaluate_ofTokens {label : Label} {tokens : List Token} {r : Rooted}
    (h : Rooted.ofTokens label tokens = .ok r) (bindings : Bindings) :
    (∃ p : Phrase .sum, p.Reads tokens) ∧
    ∀ p : Phrase .sum, p.Reads tokens →
      r.root.evaluate (r.root.bindAll bindings r.store).2 =
        .ok (p.value fun n => bindings.getD n 0.0) := by
  obtain ⟨tree, htree, rfl⟩ := Rooted.ofTokens_eq_ok.mp h
  constructor
  · obtain ⟨p, word, ends, heq, hword, hends, -⟩ := Parser.exists_phrase_of_parse htree
    exact ⟨p, word, ends, heq, hword, hends⟩
  · intro p hreads
    obtain ⟨word, ends, rfl, hword, hends⟩ := hreads
    obtain rfl := Except.ok.inj ((Parser.parse_phrase p hword hends).symm.trans htree)
    have hconsistent := Expr.Consistent.of_nodup (p.distinct_tree label)
    have hagrees := Expr.agrees_bindAll hconsistent bindings
      fun l _ _ _ => Store.get_empty l
    rw [Expr.evaluate_eq_fold]
    exact p.fold_tree hagrees

/-- With `x` worth one, `(-x - 2) + y` is worth minus three: the minus opens the chain and
the plus goes on it. -/
theorem evaluate_opened_chain :
    ∃ r, Rooted.ofTokens 0 [⟨.openBracket, "(", 0⟩, ⟨.minus, "-", 1⟩, ⟨.name, "x", 2⟩,
        ⟨.minus, "-", 4⟩, ⟨.number, "2", 6⟩, ⟨.closeBracket, ")", 7⟩, ⟨.plus, "+", 9⟩,
        ⟨.name, "y", 11⟩, ⟨.finish, "", 12⟩] = .ok r ∧
      r.root.evaluate (r.root.bindAll (Bindings.ofPairs [("x", 1.0)]) r.store).2 =
        .ok (-3.0) := by
  refine ⟨_, rfl, ?_⟩
  have htwo : Reading.number? "2" = some 2.0 := by decide +kernel
  let chain : Phrase .sum := .sum (.signed (some .minus) (.factor (.argument (.name "x"))))
    .minus (.factor (.argument (.number 2.0)))
  let whole : Phrase .sum := .sum (.signed none (.factor (.argument (.bracketed chain))))
    .plus (.factor (.argument (.name "y")))
  have hvalue : whole.value (fun n => (Bindings.ofPairs [("x", 1.0)]).getD n 0.0) = -3.0 := by
    decide +kernel
  rw [← hvalue]
  have hparsed : Rooted.ofTokens 0 [⟨.openBracket, "(", 0⟩, ⟨.minus, "-", 1⟩, ⟨.name, "x", 2⟩,
      ⟨.minus, "-", 4⟩, ⟨.number, "2", 6⟩, ⟨.closeBracket, ")", 7⟩, ⟨.plus, "+", 9⟩,
      ⟨.name, "y", 11⟩, ⟨.finish, "", 12⟩] = .ok _ := rfl
  refine (evaluate_ofTokens hparsed _).2 whole ?_
  refine ⟨_, [⟨.finish, "", 12⟩], (List.take_append_drop 8 _).symm, ?_, ?_⟩
  · simp [Spells, Token.symbol?, whole, chain, Phrase.word, Phrase.signWord, htwo]
  · simp [Parser.Ended]

end Reckoner
