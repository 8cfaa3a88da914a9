import Mathlib.Data.List.Forall2
import Reckoner.Expr.Entry
import Reckoner.Expr.Equality
import Reckoner.Proofs.Nodes
import Reckoner.Proofs.Number.Bits

/-!
Equality told from listings. An entry shows how many children its node has, so of two
listings with something after them it can be told where each of them ends: two trees are
equal exactly if their listings agree entry by entry. As agreement of entries is an
equivalence where all numbers are numbers, so is equality of trees.
-/

namespace Reckoner

namespace Entry

variable {x y z : Entry} {xs ys zs : List Entry}

def IsNumber : Entry → Prop
  | const v => v.isNaN = false
  | var _ v => v.isNaN = false
  | _ => True

theorem same_refl (h : x.IsNumber) : x.same x = true := by
  cases x with
  | const v => exact Binary64.beq_self h
  | var n v =>
    have hv : (v == v) = true := Binary64.beq_self h
    simp [same, hv]
  | chain | power | call => simp [same]

theorem same_symm (h : x.same y = true) : y.same x = true := by
  unfold same at h
  split at h
  · exact Binary64.beq_symm h
  · obtain ⟨hname, hvalue⟩ := Bool.and_eq_true_iff.mp h
    exact Bool.and_eq_true_iff.mpr ⟨Bool.beq_comm.trans hname, Binary64.beq_symm hvalue⟩
  · simp only [Bool.and_eq_true, beq_iff_eq] at h
    obtain ⟨⟨rfl, rfl⟩, rfl⟩ := h
    exact same_refl trivial
  · rfl
  · obtain rfl := beq_iff_eq.mp h
    exact same_refl trivial
  · simp at h

theorem same_trans (h : x.same y = true) (h' : y.same z = true) : x.same z = true := by
  unfold same at h
  split at h
  · cases z with
    | const w => exact Binary64.beq_trans h h'
    | var | chain | power | call => simp [same] at h'
  · cases z with
    | var n w =>
      obtain ⟨hname, hvalue⟩ := Bool.and_eq_true_iff.mp h
      obtain ⟨hname', hvalue'⟩ := Bool.and_eq_true_iff.mp h'
      obtain rfl := beq_iff_eq.mp hname
      exact Bool.and_eq_true_iff.mpr ⟨hname', Binary64.beq_trans hvalue hvalue'⟩
    | const | chain | power | call => simp [same] at h'
  · simp only [Bool.and_eq_true, beq_iff_eq] at h
    obtain ⟨⟨rfl, rfl⟩, rfl⟩ := h
    exact h'
  · exact h'
  · obtain rfl := beq_iff_eq.mp h
    exact h'
  · simp at h

def Alike : List Entry → List Entry → Prop := List.Forall₂ fun x y => x.same y = true

theorem alike_cons_iff : Alike (x :: xs) (y :: ys) ↔ x.same y = true ∧ Alike xs ys :=
  List.forall₂_cons

theorem Alike.refl (h : ∀ x ∈ xs, x.IsNumber) : Alike xs xs :=
  List.forall₂_same.mpr fun x hx => same_refl (h x hx)

theorem Alike.symm (h : Alike xs ys) : Alike ys xs := by
  induction h with
  | nil => exact .nil
  | cons hhead _ ih => exact .cons (same_symm hhead) ih

theorem Alike.trans (h : Alike xs ys) (h' : Alike ys zs) : Alike xs zs := by
  induction h generalizing zs with
  | nil => exact h'
  | cons hhead _ ih =>
    cases h' with
    | cons hhead' htail' => exact .cons (same_trans hhead hhead') (ih htail')

end Entry

namespace Expr

open Entry

variable {s t : Store} {a b : Expr} {as bs : List Expr} {xs ys : List Entry}

theorem listing_eq (s : Store) (e : Expr) :
    e.listing s = e.entry s :: e.children.flatMap (listing s) := by
  unfold listing
  rw [preorder_eq, List.map_cons, List.map_flatMap]

theorem sameTerms_iff {terms others : List (Sign × Expr)} : sameTerms s t terms others = true ↔
    terms.map Prod.fst = others.map Prod.fst ∧
      List.Forall₂ (fun a b => same s t a b = true) (terms.map Prod.snd) (others.map Prod.snd) := by
  induction terms generalizing others with
  | nil => cases others <;> simp [sameTerms]
  | cons term terms ih =>
    obtain ⟨p, a⟩ := term
    cases others with
    | nil => simp [sameTerms]
    | cons other others =>
      obtain ⟨q, b⟩ := other
      simp only [sameTerms, Bool.and_eq_true, beq_iff_eq, ih, List.map_cons, List.cons.injEq,
        List.forall₂_cons]
      constructor
      · rintro ⟨⟨hsign, hsame⟩, hsigns, hrest⟩
        exact ⟨⟨hsign, hsigns⟩, hsame, hrest⟩
      · rintro ⟨⟨hsign, hsigns⟩, hsame, hrest⟩
        exact ⟨⟨hsign, hsame⟩, hsigns, hrest⟩

theorem same_chain {l k : Label} {f g : Family} {o q : Sign} {first other : Sign × Expr}
    {rest others : List (Sign × Expr)} :
    same s t (chain l f o first rest) (chain k g q other others) =
      (f == g && o == q && sameTerms s t (first :: rest) (other :: others)) := by
  obtain ⟨p, a⟩ := first
  obtain ⟨r, b⟩ := other
  simp only [same, sameTerms, Bool.and_assoc]

/-- Trees are equal if their roots' entries agree and their children are equal in turn. -/
theorem same_iff : same s t a b = true ↔ (a.entry s).same (b.entry t) = true ∧
    List.Forall₂ (fun a b => same s t a b = true) a.children b.children := by
  cases a with
  | chain l f o first rest =>
    cases b with
    | chain k g q other others =>
      rw [same_chain, Bool.and_eq_true_iff, sameTerms_iff]
      simp only [entry, Entry.same, children, Bool.and_eq_true, beq_iff_eq, and_assoc]
    | const | var | power | call => simp [same, entry, Entry.same]
  | const | var | power | call => cases b <;> simp [same, entry, Entry.same, children]

/-- An entry shows how many children there are. -/
theorem length_children_of_same (h : (a.entry s).same (b.entry t) = true) :
    a.children.length = b.children.length := by
  cases a with
  | chain l f o first rest =>
    cases b with
    | chain k g q other others =>
      simp only [entry, Entry.same, Bool.and_eq_true, beq_iff_eq] at h
      have hsigns := congrArg List.length h.2
      rw [List.length_map, List.length_map] at hsigns
      unfold children
      rw [List.length_map, List.length_map, hsigns]
    | const | var | power | call => simp [entry, Entry.same] at h
  | const | var | power | call => cases b <;> simp_all [entry, Entry.same, children]

/-- If for each child it can be told where its listing ends, it can for all of them. -/
theorem alike_children_iff
    (h : ∀ a ∈ as, ∀ (b : Expr) (xs ys : List Entry),
      Alike (a.listing s ++ xs) (b.listing t ++ ys) ↔ same s t a b = true ∧ Alike xs ys)
    (hlength : as.length = bs.length) :
    Alike (as.flatMap (listing s) ++ xs) (bs.flatMap (listing t) ++ ys) ↔
      List.Forall₂ (fun a b => same s t a b = true) as bs ∧ Alike xs ys := by
  induction as generalizing bs with
  | nil =>
    obtain rfl := List.length_eq_zero_iff.mp hlength.symm
    simp
  | cons a as ih =>
    obtain ⟨b, bs, rfl⟩ := List.exists_cons_of_length_eq_add_one hlength.symm
    have hrest := ih (fun a ha => h a (List.mem_cons_of_mem _ ha)) (Nat.succ.inj hlength)
    rw [List.flatMap_cons, List.flatMap_cons, List.append_assoc, List.append_assoc,
      h a List.mem_cons_self, hrest, List.forall₂_cons, and_assoc]

/-- With something behind both listings it can be told from the entries alone where each
listing ends. -/
theorem alike_append_iff (s t : Store) (a b : Expr) (xs ys : List Entry) :
    Alike (a.listing s ++ xs) (b.listing t ++ ys) ↔ same s t a b = true ∧ Alike xs ys := by
  -- What comes after is general: behind a child's listing come those of its siblings.
  induction a using induct_children generalizing b xs ys with
  | h a ih =>
    rw [listing_eq, listing_eq, List.cons_append, List.cons_append, alike_cons_iff, same_iff,
      and_assoc]
    refine and_congr_right fun hentry => ?_
    exact alike_children_iff ih (length_children_of_same hentry)

theorem same_iff_alike : same s t a b = true ↔ Alike (a.listing s) (b.listing t) := by
  have h := alike_append_iff s t a b [] []
  rw [List.append_nil, List.append_nil] at h
  rw [h]
  exact (and_iff_left List.Forall₂.nil).symm

theorem sameKind_comm (a b : Expr) : sameKind a b = sameKind b a := by
  cases a <;> cases b <;> simp [sameKind, Bool.beq_comm]

theorem sameKind_of_same (h : same s t a b = true) : sameKind a b = true := by
  cases a <;> cases b <;> simp_all [same, sameKind]

/-- A node has an answer for each of its kind, and with all others it is not equal. -/
theorem differs_eq (s t : Store) (a b : Expr) : differs s t a b = !same s t a b := by
  unfold differs answer?
  rw [sameKind_comm b a]
  by_cases hkind : sameKind a b = true
  · rw [if_pos hkind, if_pos hkind]
    rfl
  · rw [if_neg hkind, if_neg hkind, Bool.eq_false_iff.mpr (mt sameKind_of_same hkind)]
    rfl

end Expr

structure NumberTree where
  root : Expr
  store : Store
  isNumber : ∀ x ∈ root.listing store, x.IsNumber

def NumberTree.Equals (a b : NumberTree) : Prop := Expr.same a.store b.store a.root b.root = true

theorem NumberTree.equals_equivalence : Equivalence Equals where
  refl a := Expr.same_iff_alike.mpr (Entry.Alike.refl a.isNumber)
  symm h := Expr.same_iff_alike.mpr (Expr.same_iff_alike.mp h).symm
  trans h h' :=
    Expr.same_iff_alike.mpr ((Expr.same_iff_alike.mp h).trans (Expr.same_iff_alike.mp h'))

/-- Trees are equal exactly if their listings are of one length and agree entry by entry, so
where all numbers are numbers equality is an equivalence; and trees differ exactly if they
are not equal. -/
theorem Expr.same_iff_listings :
    (∀ s t a b, same s t a b = true ↔ Entry.Alike (a.listing s) (b.listing t)) ∧
    Equivalence NumberTree.Equals ∧ ∀ s t a b, differs s t a b = !same s t a b :=
  ⟨fun _ _ _ _ => same_iff_alike, NumberTree.equals_equivalence, differs_eq⟩

/-- The zeros are equal, and a sum opened by a plus is of another kind than one opened by a
minus. -/
example :
    let terms (zero : Float) : List (Sign × Expr) := [(.minus, .const 1 zero)]
    let plus (zero : Float) : Expr := .chain 2 .sum .plus (.plus, .const 0 1.0) (terms zero)
    let minus : Expr := .chain 2 .sum .minus (.plus, .const 0 1.0) (terms 0.0)
    Expr.same Store.empty Store.empty (plus 0.0) (plus (-0.0)) = true ∧
      Expr.differs Store.empty Store.empty (plus 0.0) minus = true := by
  decide +kernel

end Reckoner
