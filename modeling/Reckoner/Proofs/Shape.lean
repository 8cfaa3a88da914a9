import Reckoner.Expr.Equality
import Reckoner.Proofs.Nodes
import Reckoner.Proofs.Reduction

/-!
Trees without their labels. Two trees of one shape are structurally equal once their
variables are worth the same and no number in them is not a number; what does not look
at labels makes the same of both.
-/

namespace Reckoner

namespace Expr

mutual

def unlabelled : Expr → Expr
  | const _ v => const 0 v
  | var _ n => var 0 n
  | chain _ f o (s, e) rest => chain 0 f o (s, unlabelled e) (unlabelledTerms rest)
  | power _ base exponent => power 0 (unlabelled base) (unlabelled exponent)
  | call _ c argument => call 0 c (unlabelled argument)

def unlabelledTerms : List (Sign × Expr) → List (Sign × Expr)
  | [] => []
  | (s, e) :: rest => (s, unlabelled e) :: unlabelledTerms rest

end

theorem unlabelledTerms_eq (rest : List (Sign × Expr)) :
    unlabelledTerms rest = rest.map fun t => (t.1, t.2.unlabelled) := by
  induction rest with
  | nil => rfl
  | cons t rest ih =>
    obtain ⟨s, e⟩ := t
    rw [unlabelledTerms, ih, List.map_cons]

/-- The names stand in the same order without the labels. -/
theorem filterMap_name?_unlabelled (e : Expr) :
    e.unlabelled.preorder.filterMap name? = e.preorder.filterMap name? := by
  induction e using induct with
  | const | var => rfl
  | chain l family o s e rest ihe ihrest =>
    have hrest : ((unlabelledTerms rest).flatMap fun t => t.2.preorder).filterMap name? =
        (rest.flatMap fun t => t.2.preorder).filterMap name? := by
      simp only [unlabelledTerms_eq, List.flatMap_map, List.filterMap_flatMap]
      exact congrArg List.flatten (List.map_congr_left ihrest)
    simp only [unlabelled, preorder, preorderTerms_eq, List.filterMap_cons, List.filterMap_append,
      name?, ihe, hrest]
  | power l base exponent ihbase ihexponent =>
    simp only [unlabelled, preorder, List.filterMap_cons, List.filterMap_append, name?, ihbase,
      ihexponent]
  | call l callee argument ih =>
    simp only [unlabelled, preorder, List.filterMap_cons, name?, ih]

theorem names_unlabelled (e : Expr) : e.unlabelled.names = e.names := by
  rw [names, names, filterMap_name?_unlabelled]

theorem unlabelled_extend (soFar : Expr) (family : Family) (l : Label) (sign : Sign)
    (term : Expr) :
    (soFar.extend family l sign term).unlabelled =
      soFar.unlabelled.extend family 0 sign term.unlabelled := by
  cases soFar with
  | chain k f o first rest =>
    obtain ⟨s, e⟩ := first
    by_cases hf : f = family <;> simp [extend, hf, unlabelled, unlabelledTerms_eq]
  | const | var | power | call => simp [extend, unlabelled, unlabelledTerms_eq]

theorem sameTerms_of_forall {s t : Store} {a b : List (Sign × Expr)}
    (h : ∀ x ∈ a, ∀ y ∈ b, x.2.unlabelled = y.2.unlabelled → same s t x.2 y.2 = true)
    (hab : unlabelledTerms a = unlabelledTerms b) : sameTerms s t a b = true := by
  induction a generalizing b with
  | nil =>
    cases b with
    | nil => rfl
    | cons y b => simp [unlabelledTerms_eq] at hab
  | cons x a ih =>
    cases b with
    | nil => simp [unlabelledTerms_eq] at hab
    | cons y b =>
      obtain ⟨p, e⟩ := x
      obtain ⟨q, f⟩ := y
      simp only [unlabelledTerms, List.cons.injEq, Prod.mk.injEq] at hab
      obtain ⟨⟨rfl, hef⟩, htail⟩ := hab
      have hhead := h (p, e) (by simp) (p, f) (by simp) hef
      have hrest := ih (fun x hx y hy => h x (by simp [hx]) y (by simp [hy])) htail
      simp [sameTerms, hhead, hrest]

/-- No number in the node is not a number, and the node is worth zero if it is a
variable. -/
def Settled (s : Store) : Expr → Prop
  | const _ v => (v == v) = true
  | var l _ => s.get l = 0.0
  | _ => True

/-- Trees of one shape are structurally equal while all their variables are zero. -/
theorem same_of_unlabelled {s t : Store} {a b : Expr} (ha : a.Every (Settled s))
    (hb : b.Every (Settled t)) (h : a.unlabelled = b.unlabelled) : same s t a b = true := by
  induction a using induct generalizing b with
  | const l v =>
    cases b with
    | const k w =>
      obtain rfl : v = w := by simpa [unlabelled] using h
      exact Every.const_iff.mp ha
    | chain | var | power | call => simp [unlabelled] at h
  | var l n =>
    cases b with
    | var k m =>
      obtain rfl : n = m := by simpa [unlabelled] using h
      have hl : s.get l = 0.0 := Every.var_iff.mp ha
      have hk : t.get k = 0.0 := Every.var_iff.mp hb
      have hzero : ((0.0 : Float) == 0.0) = true := by decide +kernel
      simp [same, hl, hk, hzero]
    | chain | const | power | call => simp [unlabelled] at h
  | chain l family o p e rest ihe ihrest =>
    cases b with
    | chain k f q first rest' =>
      obtain ⟨r, e'⟩ := first
      simp only [unlabelled, chain.injEq, Prod.mk.injEq] at h
      obtain ⟨-, rfl, rfl, ⟨rfl, he⟩, hrest⟩ := h
      obtain ⟨-, hae, harest⟩ := Every.chain_iff.mp ha
      obtain ⟨-, hbe, hbrest⟩ := Every.chain_iff.mp hb
      have hfirst := ihe hae hbe he
      have hterms : sameTerms s t rest rest' = true := by
        refine sameTerms_of_forall (fun x hx y hy hxy => ?_) hrest
        exact ihrest x hx (harest x hx) (hbrest y hy) hxy
      simp [same, hfirst, hterms]
    | const | var | power | call => simp [unlabelled] at h
  | power l base exponent ihbase ihexponent =>
    cases b with
    | power k base' exponent' =>
      simp only [unlabelled, power.injEq] at h
      obtain ⟨-, hbase, hexponent⟩ := h
      obtain ⟨-, habase, haexponent⟩ := Every.power_iff.mp ha
      obtain ⟨-, hbbase, hbexponent⟩ := Every.power_iff.mp hb
      have hfirst := ihbase habase hbbase hbase
      have hlast := ihexponent haexponent hbexponent hexponent
      simp [same, hfirst, hlast]
    | chain | const | var | call => simp [unlabelled] at h
  | call l callee argument ih =>
    cases b with
    | call k callee' argument' =>
      simp only [unlabelled, call.injEq] at h
      obtain ⟨-, rfl, hargument⟩ := h
      have harg := ih (Every.call_iff.mp ha).2 (Every.call_iff.mp hb).2 hargument
      simp [same, harg]
    | chain | const | var | power => simp [unlabelled] at h

end Expr

namespace Algebra

variable {α : Type}

theorem foldTerms_unlabelledTerms {g : Algebra α} {rest : List (Sign × Expr)}
    (h : ∀ t ∈ rest, g.fold t.2.unlabelled = g.fold t.2) :
    g.foldTerms (Expr.unlabelledTerms rest) = g.foldTerms rest := by
  induction rest with
  | nil => rfl
  | cons t rest ih =>
    obtain ⟨s, e⟩ := t
    have hhead := h (s, e) (by simp)
    have htail := ih fun t ht => h t (List.mem_cons_of_mem _ ht)
    simp only [Expr.unlabelledTerms, foldTerms, hhead, htail]

/-- An algebra that asks variables for their names alone sees only the shape. -/
theorem fold_unlabelled {g : Algebra α} (hvar : ∀ l k n, g.var l n = g.var k n) (e : Expr) :
    g.fold e.unlabelled = g.fold e := by
  induction e using Expr.induct with
  | const l v => rfl
  | var l n => exact congrArg Except.ok (hvar 0 l n)
  | chain l family o s e rest ihe ihrest =>
    simp only [Expr.unlabelled, fold, ihe, foldTerms_unlabelledTerms ihrest]
  | power l base exponent ihbase ihexponent =>
    simp only [Expr.unlabelled, fold, ihbase, ihexponent]
  | call l callee argument ih => simp only [Expr.unlabelled, fold, ih]

end Algebra

end Reckoner
