import Mathlib.Data.List.Forall2
import Reckoner.Proofs.Nodes
import Reckoner.Proofs.Reduction

/-!
Algebras that go together. If two algebras keep a relation at every node of a tree, both
work the tree out and their results are related, so whatever is known of one result is
known of the other. Their machines keep it too, whatever nodes they are fed with: both get
on with equally many things on the stack, related place by place, or both fail.
-/

namespace Reckoner

namespace Algebra

variable {α β : Type}

def RelatedTerms (R : α → β → Prop) : List (Sign × α) → List (Sign × β) → Prop :=
  List.Forall₂ fun a b => a.1 = b.1 ∧ R a.2 b.2

/-- On nodes with the property two algebras agree up to a relation. -/
structure Related (P : Expr → Prop) (R : α → β → Prop) (g : Algebra α) (h : Algebra β) :
    Prop where
  const : ∀ {l v}, P (.const l v) → ∃ a b, g.const v = .ok a ∧ h.const v = .ok b ∧ R a b
  var : ∀ {l n}, P (.var l n) → R (g.var l n) (h.var l n)
  chain : ∀ {family sign a b as bs}, R a b → RelatedTerms R as bs →
    R (g.chain family (sign, a) as) (h.chain family (sign, b) bs)
  power : ∀ {a b a' b'}, R a b → R a' b' → R (g.power a a') (h.power b b')
  call : ∀ {l callee e a b}, P (.call l callee e) → R a b →
    ∃ a' b', g.call callee a = .ok a' ∧ h.call callee b = .ok b' ∧ R a' b'

namespace Related

variable {P : Expr → Prop} {R : α → β → Prop} {g : Algebra α} {h : Algebra β}

theorem foldTerms {rest : List (Sign × Expr)}
    (hrest : ∀ t ∈ rest, ∃ a b, g.fold t.2 = .ok a ∧ h.fold t.2 = .ok b ∧ R a b) :
    ∃ as bs, g.foldTerms rest = .ok as ∧ h.foldTerms rest = .ok bs ∧ RelatedTerms R as bs := by
  induction rest with
  | nil => exact ⟨[], [], rfl, rfl, List.Forall₂.nil⟩
  | cons t rest ih =>
    obtain ⟨s, e⟩ := t
    obtain ⟨a, b, ha, hb, hab⟩ := hrest (s, e) (by simp)
    obtain ⟨as, bs, has, hbs, habs⟩ := ih fun t ht => hrest t (List.mem_cons_of_mem _ ht)
    exact ⟨_, _, foldTerms_cons ha has s, foldTerms_cons hb hbs s,
      List.Forall₂.cons ⟨rfl, hab⟩ habs⟩

/-- Related algebras work out every such tree, to related results. -/
theorem fold (hrel : Related P R g h) {e : Expr} (he : e.Every P) :
    ∃ a b, g.fold e = .ok a ∧ h.fold e = .ok b ∧ R a b := by
  induction e using Expr.induct with
  | const l v => exact hrel.const (Expr.Every.const_iff.mp he)
  | var l n => exact ⟨_, _, rfl, rfl, hrel.var (Expr.Every.var_iff.mp he)⟩
  | chain l family o s e rest ihe ihrest =>
    obtain ⟨-, he, hrest⟩ := Expr.Every.chain_iff.mp he
    obtain ⟨a, b, ha, hb, hab⟩ := ihe he
    obtain ⟨as, bs, has, hbs, habs⟩ := foldTerms fun t ht => ihrest t ht (hrest t ht)
    exact ⟨_, _, fold_chain ha has l family o s, fold_chain hb hbs l family o s,
      hrel.chain hab habs⟩
  | power l base exponent ihbase ihexponent =>
    obtain ⟨-, hbase, hexponent⟩ := Expr.Every.power_iff.mp he
    obtain ⟨a, b, ha, hb, hab⟩ := ihbase hbase
    obtain ⟨a', b', ha', hb', hab'⟩ := ihexponent hexponent
    exact ⟨_, _, fold_power ha ha' l, fold_power hb hb' l, hrel.power hab hab'⟩
  | call l callee argument ih =>
    obtain ⟨hnode, hargument⟩ := Expr.Every.call_iff.mp he
    obtain ⟨a, b, ha, hb, hab⟩ := ih hargument
    obtain ⟨a', b', ha', hb', hab'⟩ := hrel.call hnode hab
    exact ⟨a', b', by rw [fold_call ha, ha'], by rw [fold_call hb, hb'], hab'⟩

section Stacks

variable {stack : List α} {stack' : List β} {e : Expr}

/-- From related stacks come related operands, with related stacks under them. -/
theorem take? (h : List.Forall₂ R stack stack') (terms : List (Sign × Expr)) :
    (∃ as bs left left', Algebra.take? terms stack = some (as, left) ∧
      Algebra.take? terms stack' = some (bs, left') ∧ RelatedTerms R as bs ∧
      List.Forall₂ R left left') ∨
    Algebra.take? terms stack = none ∧ Algebra.take? terms stack' = none := by
  induction terms generalizing stack stack' with
  | nil => exact .inl ⟨[], [], stack, stack', rfl, rfl, List.Forall₂.nil, h⟩
  | cons t rest ih =>
    obtain ⟨s, e⟩ := t
    cases h with
    | nil => exact .inr ⟨rfl, rfl⟩
    | @cons a b stack stack' hab hstacks =>
      rcases ih hstacks with ⟨as, bs, left, left', has, hbs, hterms, hleft⟩ | ⟨hnone, hnone'⟩
      · exact .inl ⟨(s, a) :: as, (s, b) :: bs, left, left', by simp only [Algebra.take?, has],
          by simp only [Algebra.take?, hbs], List.Forall₂.cons ⟨rfl, hab⟩ hterms, hleft⟩
      · exact .inr ⟨by simp only [Algebra.take?, hnone], by simp only [Algebra.take?, hnone']⟩

/-- One node leaves related stacks, or finds too few operands on both. -/
theorem step (hrel : Related P R g h) (he : P e) (hstacks : List.Forall₂ R stack stack') :
    (∃ next next', g.step stack e = ⟨next, none⟩ ∧ h.step stack' e = ⟨next', none⟩ ∧
      List.Forall₂ R next next') ∨
    g.step stack e = ⟨[], some g.tooFew⟩ ∧ h.step stack' e = ⟨[], some h.tooFew⟩ := by
  cases e with
  | const l v =>
    obtain ⟨a, b, ha, hb, hab⟩ := hrel.const he
    exact .inl ⟨_, _, by rw [Algebra.step, ha]; rfl, by rw [Algebra.step, hb]; rfl,
      List.Forall₂.cons hab hstacks⟩
  | var l n => exact .inl ⟨_, _, rfl, rfl, List.Forall₂.cons (hrel.var he) hstacks⟩
  | chain l family o first rest =>
    rcases take? hstacks (first :: rest) with
      ⟨as, bs, left, left', has, hbs, hterms, hleft⟩ | ⟨hnone, hnone'⟩
    · cases hterms with
      | nil => exact .inr ⟨by simp only [Algebra.step, has], by simp only [Algebra.step, hbs]⟩
      | @cons a b as bs hfirst hterms =>
        obtain ⟨s, a⟩ := a
        obtain ⟨s', b⟩ := b
        obtain ⟨rfl, hab⟩ := hfirst
        have hresult : R (g.chain family (s, a) as) (h.chain family (s, b) bs) :=
          hrel.chain hab hterms
        exact .inl ⟨_, _, by simp only [Algebra.step, has, push],
          by simp only [Algebra.step, hbs, push], List.Forall₂.cons hresult hleft⟩
    · exact .inr ⟨by simp only [Algebra.step, hnone], by simp only [Algebra.step, hnone']⟩
  | power l base exponent =>
    cases hstacks with
    | nil => exact .inr ⟨rfl, rfl⟩
    | cons hbase hstacks =>
      cases hstacks with
      | nil => exact .inr ⟨rfl, rfl⟩
      | cons hexponent hstacks =>
        exact .inl ⟨_, _, rfl, rfl, List.Forall₂.cons (hrel.power hbase hexponent) hstacks⟩
  | call l callee argument =>
    cases hstacks with
    | nil => exact .inr ⟨rfl, rfl⟩
    | cons hab hstacks =>
      obtain ⟨a, b, ha, hb, hresult⟩ := hrel.call he hab
      exact .inl ⟨_, _, by simp only [Algebra.step, ha, push],
        by simp only [Algebra.step, hb, push], List.Forall₂.cons hresult hstacks⟩

/-- Related machines fed with the same nodes have related stacks, or both have failed. -/
theorem run (hrel : Related P R g h) {nodes : List Expr} (hnodes : ∀ e ∈ nodes, P e)
    (hstacks : List.Forall₂ R stack stack') :
    (∃ as bs, g.machine.run stack nodes = .ok as ∧ h.machine.run stack' nodes = .ok bs ∧
      List.Forall₂ R as bs) ∨
    g.machine.run stack nodes = .error g.tooFew ∧
      h.machine.run stack' nodes = .error h.tooFew := by
  induction nodes generalizing stack stack' with
  | nil => exact .inl ⟨stack, stack', rfl, rfl, hstacks⟩
  | cons e rest ih =>
    obtain ⟨he, hrest⟩ := List.forall_mem_cons.mp hnodes
    rcases hrel.step he hstacks with ⟨next, next', hg, hh, hnext⟩ | ⟨hg, hh⟩
    · simpa only [Machine.run, step_machine, hg, hh] using ih hrest hnext
    · exact .inr ⟨by simp only [Machine.run, step_machine, hg],
        by simp only [Machine.run, step_machine, hh]⟩

end Stacks

end Related

end Algebra

end Reckoner
