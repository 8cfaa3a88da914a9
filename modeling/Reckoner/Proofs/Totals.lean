import Mathlib
import Reckoner.Expr.Entry
import Reckoner.Proofs.Source

/-!
A binder applied to one tree after the other. In each tree it passes over what it has met
there before, so the bound leaves of a tree count once however many positions they have,
and the total is the sum over the trees. What the trees share is set again with the value
it has already, so the store only tells which leaves have been reached.
-/

namespace Reckoner

/-- Positions with one label are one node, whichever of the trees they are in. -/
def Coherent (roots : List Expr) : Prop :=
  ∀ a ∈ roots.flatMap Expr.preorder, ∀ b ∈ roots.flatMap Expr.preorder, a.label = b.label → a = b

namespace Coherent

variable {roots first : List Expr} {r : Expr}

theorem consistent (h : Coherent roots) (hr : r ∈ roots) : r.Consistent := fun a ha b hb =>
  h a (List.mem_flatMap.mpr ⟨r, hr, ha⟩) b (List.mem_flatMap.mpr ⟨r, hr, hb⟩)

theorem subset (h : Coherent roots) (hsub : first ⊆ roots) : Coherent first := by
  have hmem {e : Expr} (he : e ∈ first.flatMap Expr.preorder) :
      e ∈ roots.flatMap Expr.preorder := by
    obtain ⟨r, hr, he⟩ := List.mem_flatMap.mp he
    exact List.mem_flatMap.mpr ⟨r, hsub hr, he⟩
  exact fun a ha b hb => h a (hmem ha) b (hmem hb)

end Coherent

/-- The trees of an assembly share nodes only as positions with one label. -/
theorem Assembly.Sound.coherent {base : Nat} {a : Assembly} (h : a.Sound base)
    {roots : List Expr} (hroots : ∀ r ∈ roots, ∃ i : Nat, a.nodes[i]? = some r) :
    Coherent roots := by
  intro m hm n hn hlabel
  obtain ⟨r, hr, hm⟩ := List.mem_flatMap.mp hm
  obtain ⟨s, hs, hn⟩ := List.mem_flatMap.mp hn
  obtain ⟨i, hi⟩ := hroots r hr
  obtain ⟨j, hj⟩ := hroots s hs
  exact h.eq_of_label_eq hi hj hm hn hlabel

namespace Binder

variable {bindings : Bindings} {nodes visited : List Expr} {e root : Expr} {l : Label}
  {p : Pass} {base : Nat} {before after : Store}

def boundLabels (bindings : Bindings) (nodes : List Expr) : Finset Label :=
  ((nodes.filter fun e => (valueOf? bindings e).isSome).map Expr.label).toFinset

def boundLeaves (bindings : Bindings) (root : Expr) : Finset Label :=
  boundLabels bindings root.preorder

theorem label_mem_boundLabels (he : e ∈ nodes) (hbound : (valueOf? bindings e).isSome) :
    e.label ∈ boundLabels bindings nodes := by
  rw [boundLabels, List.mem_toFinset]
  exact List.mem_map_of_mem (List.mem_filter.mpr ⟨he, hbound⟩)

theorem mem_boundLabels : l ∈ boundLabels bindings nodes ↔
    ∃ n v, .var l n ∈ nodes ∧ bindings[n]? = some v := by
  constructor
  · intro hl
    rw [boundLabels, List.mem_toFinset] at hl
    obtain ⟨e, hmem, rfl⟩ := List.mem_map.mp hl
    obtain ⟨he, hbound⟩ := List.mem_filter.mp hmem
    obtain ⟨v, hv⟩ := Option.isSome_iff_exists.mp hbound
    cases e with
    | var l n => exact ⟨n, v, he, hv⟩
    | const | chain | power | call => simp [valueOf?, Expr.name?] at hv
  · rintro ⟨n, v, he, hv⟩
    exact label_mem_boundLabels he (by simp [valueOf?, Expr.name?, hv])

theorem mem_boundLeaves : l ∈ boundLeaves bindings root ↔
    ∃ n v, .var l n ∈ root.preorder ∧ bindings[n]? = some v :=
  mem_boundLabels

theorem boundLabels_snoc : boundLabels bindings (visited ++ [e]) =
    if (valueOf? bindings e).isSome then insert e.label (boundLabels bindings visited)
    else boundLabels bindings visited := by
  ext l
  by_cases hbound : (valueOf? bindings e).isSome
  · simp [boundLabels, hbound]
  · simp [boundLabels, hbound]

structure Counted (bindings : Bindings) (base : Nat) (before : Store) (visited : List Expr)
    (p : Pass) : Prop extends Passed bindings before visited p where
  updated_eq : p.updated = base + (boundLabels bindings visited).card

namespace Counted

theorem start (bindings : Bindings) (base : Nat) (before : Store) :
    Counted bindings base before [] ⟨{}, base, before⟩ :=
  ⟨.start bindings base before, rfl⟩

theorem visit (h : Counted bindings base before visited p)
    (hsame : ∀ a ∈ visited, a.label = e.label → a = e) :
    Counted bindings base before (visited ++ [e]) (Binder.visit bindings p e) := by
  refine ⟨h.toPassed.visit hsame, ?_⟩
  rw [boundLabels_snoc]
  by_cases hseen : p.seen.contains e.label = true
  · obtain ⟨a, ha, hlabel⟩ := (h.contains_iff e.label).mp hseen
    obtain rfl := hsame a ha hlabel
    rw [visit_of_seen hseen, h.updated_eq]
    split
    · rename_i hbound
      rw [Finset.insert_eq_of_mem (label_mem_boundLabels ha hbound)]
    · rfl
  · have hnew : e.label ∉ boundLabels bindings visited := by
      intro hmem
      obtain ⟨n, v, hn, -⟩ := mem_boundLabels.mp hmem
      exact hseen ((h.contains_iff e.label).mpr ⟨_, hn, rfl⟩)
    cases hv : valueOf? bindings e with
    | none => simpa [Binder.visit, hseen, hv] using h.updated_eq
    | some v =>
      have hcard := Finset.card_insert_of_notMem hnew
      have hcount := h.updated_eq
      simp only [Binder.visit, hseen, hv, Option.isSome_some, if_true, Bool.false_eq_true,
        if_false]
      omega

theorem visitAll (h : Counted bindings base before [] p) (h' : root.Consistent) :
    Counted bindings base before root.preorder
      (root.preorder.foldl (Binder.visit bindings) p) :=
  foldl_visit (Counted bindings base before) (fun _ _ _ h hsame => h.visit hsame) h
    root.preorder h'

end Counted

/-- What a binder has done once it was applied to some trees: their bound leaves are worth
what their names are bound to, and everything else is as it was. -/
structure Binds (bindings : Bindings) (roots : List Expr) (before after : Store) : Prop where
  bound : ∀ r ∈ roots, ∀ l n v, .var l n ∈ r.preorder → bindings[n]? = some v → after.get l = v
  unbound : ∀ l, (∀ r ∈ roots, l ∉ boundLeaves bindings r) → after.get l = before.get l
  entries : ∀ e : Expr, (∀ r ∈ roots, e.label ∉ boundLeaves bindings r) →
    e.entry after = e.entry before

namespace Binds

variable {roots first last : List Expr} {middle : Store}

theorem of_get
    (hbound : ∀ r ∈ roots, ∀ l n v, .var l n ∈ r.preorder → bindings[n]? = some v →
      after.get l = v)
    (hunbound : ∀ l, (∀ r ∈ roots, l ∉ boundLeaves bindings r) → after.get l = before.get l) :
    Binds bindings roots before after := by
  refine ⟨hbound, hunbound, fun e he => ?_⟩
  cases e with
  | var l n => rw [Expr.entry, Expr.entry, hunbound l he]
  | const | chain | power | call => rfl

/-- One pass over a tree sets its bound leaves. -/
theorem of_passed (h : root.Consistent) (hp : Passed bindings before root.preorder p) :
    Binds bindings [root] before p.store := by
  refine of_get ?_ ?_
  · intro r hr l n v hmem hv
    obtain rfl := List.mem_singleton.mp hr
    have hget := hp.get_visited _ hmem
    simpa [valueOf?, Expr.name?, Expr.label, hv] using hget
  · intro l hl
    have hnot := hl root (List.mem_singleton_self root)
    by_cases hvisited : ∃ e ∈ root.preorder, e.label = l
    · -- A node with the label was met, but it was no bound variable.
      obtain ⟨e, he, rfl⟩ := hvisited
      have hnone : valueOf? bindings e = none := by
        rw [← Option.not_isSome_iff_eq_none]
        exact fun hbound => hnot (label_mem_boundLabels he hbound)
      rw [hp.get_visited e he, hnone]
      rfl
    · exact hp.get_other l fun e he hlabel => hvisited ⟨e, he, hlabel⟩

/-- Binding some more trees keeps what the first ones were given. -/
theorem append (hfirst : Binds bindings first before middle)
    (hlast : Binds bindings last middle after) (h : Coherent (first ++ last)) :
    Binds bindings (first ++ last) before after := by
  refine of_get ?_ ?_
  · intro r hr l n v hmem hv
    rcases List.mem_append.mp hr with hr' | hr'
    · by_cases hagain : ∃ s ∈ last, l ∈ boundLeaves bindings s
      · -- The leaf is met again, as the same node and so under the same name.
        obtain ⟨s, hs, hl⟩ := hagain
        obtain ⟨n', v', hmem', hv'⟩ := mem_boundLeaves.mp hl
        have hsame : Expr.var l n = Expr.var l n' :=
          h _ (List.mem_flatMap.mpr ⟨r, hr, hmem⟩) _
            (List.mem_flatMap.mpr ⟨s, List.mem_append_right _ hs, hmem'⟩) rfl
        obtain ⟨-, rfl⟩ := Expr.var.inj hsame
        obtain rfl := Option.some.inj (hv.symm.trans hv')
        exact hlast.bound s hs l n v hmem' hv'
      · rw [hlast.unbound l fun s hs hl => hagain ⟨s, hs, hl⟩]
        exact hfirst.bound r hr' l n v hmem hv
    · exact hlast.bound r hr' l n v hmem hv
  · intro l hl
    rw [hlast.unbound l fun r hr => hl r (List.mem_append_right _ hr),
      hfirst.unbound l fun r hr => hl r (List.mem_append_left _ hr)]

end Binds

/-- One application counts the bound leaves of the tree on top of the total, and sets them. -/
theorem apply_spec (b : Binder) (h : root.Consistent) (store : Store) :
    (b.apply root store).1 = ⟨b.bindings, b.updated + (boundLeaves b.bindings root).card⟩ ∧
      Binds b.bindings [root] store (b.apply root store).2 := by
  have hcounted := (Counted.start b.bindings b.updated store).visitAll h
  exact ⟨congrArg (Binder.mk b.bindings) hcounted.updated_eq, .of_passed h hcounted.toPassed⟩

/-- After each of several trees the total is that of all trees so far. -/
theorem exists_totals {roots : List Expr} (h : Coherent roots) (b : Binder) (store : Store)
    {i : Nat} (hi : i < roots.length) :
    ∃ after, (b.totals store roots)[i]? = some (b.updated +
        ((roots.take (i + 1)).map fun r => (boundLeaves b.bindings r).card).sum, after) ∧
      Binds b.bindings (roots.take (i + 1)) store after := by
  induction roots generalizing b store i with
  | nil => exact absurd hi (Nat.not_lt_zero i)
  | cons root rest ih =>
    obtain ⟨hnext, hbinds⟩ := b.apply_spec (h.consistent List.mem_cons_self) store
    cases i with
    | zero => exact ⟨_, by simp [totals, hnext], hbinds⟩
    | succ i =>
      have hrest : Coherent rest := h.subset (List.subset_cons_self root rest)
      obtain ⟨after, htotal, hafter⟩ := ih hrest (b.apply root store).1 (b.apply root store).2
        (Nat.lt_of_succ_lt_succ hi)
      rw [hnext] at htotal hafter
      refine ⟨after, ?_, ?_⟩
      · rw [totals, List.getElem?_cons_succ, hnext, htotal, List.take_succ_cons, List.map_cons,
          List.sum_cons, Nat.add_assoc]
      · exact hbinds.append hafter (h.subset (List.cons_subset_cons root (List.take_subset _ _)))

/-- Where nothing is bound a pass sets and counts nothing. -/
theorem foldl_visit_of_isEmpty (h : bindings.isEmpty = true) (nodes : List Expr) (p : Pass) :
    (nodes.foldl (visit bindings) p).updated = p.updated ∧
      (nodes.foldl (visit bindings) p).store = p.store := by
  induction nodes generalizing p with
  | nil => exact ⟨rfl, rfl⟩
  | cons e rest ih =>
    have hkept : (visit bindings p e).updated = p.updated ∧
        (visit bindings p e).store = p.store := by
      rw [visit, valueOf?_of_isEmpty h]
      split <;> exact ⟨rfl, rfl⟩
    obtain ⟨hupdated, hstore⟩ := ih (visit bindings p e)
    exact ⟨hupdated.trans hkept.1, hstore.trans hkept.2⟩

theorem apply_of_isEmpty (h : bindings.isEmpty = true) (root : Expr) (store : Store) :
    (start bindings).apply root store = (start bindings, store) := by
  obtain ⟨hupdated, hstore⟩ := foldl_visit_of_isEmpty h root.preorder ⟨{}, 0, store⟩
  exact Prod.ext (congrArg (Binder.mk bindings) hupdated) hstore

/-- With no bindings nothing is walked through, but a walk would have come to the same. -/
theorem bindAll_eq_apply (bindings : Bindings) (root : Expr) (store : Store) :
    root.bindAll bindings store =
      (((start bindings).apply root store).1.updated, ((start bindings).apply root store).2) := by
  by_cases hempty : bindings.isEmpty = true
  · rw [Expr.bindAll, if_pos hempty, apply_of_isEmpty hempty]
    rfl
  · rw [Expr.bindAll, if_neg hempty]

/-- A binder applied to trees one after the other returns the sum of the numbers of bound
leaves in the trees so far, where a leaf that is reached in several ways counts once in a
tree, and leaves all of these leaves bound and everything else alone. Binding in one pass
is one application, also where that has nothing to bind. -/
theorem totals_binds (bindings : Bindings) {roots : List Expr} (h : Coherent roots)
    (store : Store) :
    (∀ i < roots.length, ∃ after, ((start bindings).totals store roots)[i]? =
        some (((roots.take (i + 1)).map fun r => (boundLeaves bindings r).card).sum, after) ∧
      Binds bindings (roots.take (i + 1)) store after) ∧
    ∀ root held,
      root.bindAll bindings held = (((start bindings).apply root held).1.updated,
        ((start bindings).apply root held).2) ∧
      (bindings.isEmpty = true → root.bindAll bindings held = (0, held)) := by
  constructor
  · intro i hi
    obtain ⟨after, htotal, hbinds⟩ := exists_totals h (start bindings) store hi
    rw [start, Nat.zero_add] at htotal
    exact ⟨after, htotal, hbinds⟩
  · intro root held
    refine ⟨bindAll_eq_apply bindings root held, fun hempty => ?_⟩
    rw [bindAll_eq_apply, apply_of_isEmpty hempty]
    rfl

/-- Of `x + sin(x)` and `x ^ y` with one node for `x`, the second application counts it once
more, and `y` keeps its value. -/
theorem totals_binds_shared :
    ∃ after, ((start (Bindings.ofPairs [("x", 2.0)])).totals Store.empty
        [.chain 3 .sum .plus (.plus, .var 0 "x")
          [(.plus, .call 1 (.builtin .sin) (.var 0 "x"))],
        .power 4 (.var 0 "x") (.var 2 "y")])[1]? = some (2, after) ∧
      after.get 0 = 2.0 ∧ after.get 2 = 0.0 := by
  have hassembly : Assembly.empty.extend 0 [.var "x" 0.0, .call (.builtin .sin) 0, .var "y" 0.0,
      .chain .sum .plus [(0, .plus), (1, .plus)], .power 0 2] = .ok _ := rfl
  have hcoherent : Coherent [.chain 3 .sum .plus (.plus, .var 0 "x")
      [(.plus, .call 1 (.builtin .sin) (.var 0 "x"))], .power 4 (.var 0 "x") (.var 2 "y")] := by
    refine ((Assembly.Sound.empty 0).extend hassembly).coherent fun r hr => ?_
    simp only [List.mem_cons, List.not_mem_nil, or_false] at hr
    rcases hr with rfl | rfl
    · exact ⟨3, rfl⟩
    · exact ⟨4, rfl⟩
  obtain ⟨after, htotal, hbinds⟩ :=
    (totals_binds (Bindings.ofPairs [("x", 2.0)]) hcoherent Store.empty).1 1 (by decide)
  have hx := hbinds.bound _ List.mem_cons_self 0 "x" 2.0 (by simp [Expr.preorder]) rfl
  have hy := hbinds.unbound 2 (by decide +kernel)
  exact ⟨after, htotal, hx, hy.trans (Store.get_empty 2)⟩

end Binder

end Reckoner
