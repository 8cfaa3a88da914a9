import Mathlib.Data.Set.Card
import Mathlib.Logic.Relation
import Reckoner.Expr.Sharing
import Reckoner.Proofs.Grammar.Labels
import Reckoner.Proofs.Nodes

/-!
What the check of a structure finds out. It meets positions, of which a shared node has
several and all that is under it as many again, and it stops at the first node it knows.
So it gets to the end exactly if there are as many positions as nodes, and otherwise the
node it stops at is the first in pre-order that an earlier position has too.
-/

namespace Reckoner.Expr

def Reaches : Expr → Expr → Prop :=
  Relation.ReflTransGen fun parent child => child ∈ parent.children

/-- The nodes that a structure has, by their labels. However many ways lead to a node, it is
one of them. -/
def objects (root : Expr) : Set Label := {l | ∃ node, root.Reaches node ∧ node.label = l}

variable {root node e : Expr} {nodes before : List Expr} {met : Std.TreeSet Label}

theorem reaches_of_mem_preorder (h : node ∈ root.preorder) : root.Reaches node := by
  induction root using induct_children with
  | h root ih =>
    rw [preorder_eq, List.mem_cons, List.mem_flatMap] at h
    rcases h with rfl | ⟨child, hchild, hnode⟩
    · exact Relation.ReflTransGen.refl
    · exact Relation.ReflTransGen.head hchild (ih child hchild hnode)

theorem mem_preorder_of_reaches (h : root.Reaches node) : node ∈ root.preorder := by
  induction h using Relation.ReflTransGen.head_induction_on with
  | refl =>
    rw [preorder_eq]
    exact List.mem_cons_self
  | @head parent child hchild _ ih =>
    rw [preorder_eq, List.mem_cons, List.mem_flatMap]
    exact Or.inr ⟨child, hchild, ih⟩

theorem objects_eq (root : Expr) : root.objects = root.labels.toFinset := by
  ext l
  simp only [objects, labels, Set.mem_ofPred_eq, List.coe_toFinset, List.mem_map]
  constructor
  · rintro ⟨node, hnode, hl⟩
    exact ⟨node, mem_preorder_of_reaches hnode, hl⟩
  · rintro ⟨node, hnode, hl⟩
    exact ⟨node, reaches_of_mem_preorder hnode, hl⟩

/-- No node has two positions exactly if there are as many nodes as positions. -/
theorem distinct_iff_ncard (root : Expr) :
    root.Distinct ↔ root.objects.ncard = root.preorder.length := by
  have hlength : root.labels.length = root.preorder.length := List.length_map ..
  have hcard := Multiset.toFinset_card_eq_card_iff_nodup (m := (root.labels : Multiset Label))
  rw [objects_eq, Set.ncard_coe_finset, ← hlength]
  exact hcard.symm

/-- The node stands at the first position whose node has stood at an earlier one. -/
def FirstMetAgain (nodes : List Expr) (node : Expr) : Prop :=
  ∃ before after, nodes = before ++ node :: after ∧ (before.map label).Nodup ∧
    node.label ∈ before.map label

theorem exists_firstMetAgain (h : ¬(nodes.map label).Nodup) : ∃ node, FirstMetAgain nodes node := by
  induction nodes using List.reverseRecOn with
  | nil => exact absurd List.nodup_nil h
  | append_singleton nodes e ih =>
    by_cases hnodup : (nodes.map label).Nodup
    · refine ⟨e, nodes, [], rfl, hnodup, ?_⟩
      by_contra hnew
      apply h
      rw [List.map_append, List.map_singleton]
      exact List.nodup_append.mpr ⟨hnodup, List.nodup_singleton _, by simpa using hnew⟩
    · obtain ⟨node, before, after, hnodes, hbefore, hnode⟩ := ih hnodup
      refine ⟨node, before, after ++ [e], ?_, hbefore, hnode⟩
      rw [hnodes, List.append_assoc, List.cons_append]

theorem label_notMem_of_nodup {after : List Expr}
    (h : ((before ++ node :: after).map label).Nodup) : node.label ∉ before.map label := by
  intro hmem
  rw [List.map_append, List.map_cons] at h
  exact (List.nodup_append.mp h).2.2 _ hmem _ List.mem_cons_self rfl

theorem not_nodup_of_firstMetAgain (h : FirstMetAgain nodes node) : ¬(nodes.map label).Nodup := by
  obtain ⟨before, after, rfl, -, hnode⟩ := h
  intro hnodup
  exact label_notMem_of_nodup hnodup hnode

structure Met (nodes : List Expr) (met : Std.TreeSet Label) : Prop where
  contains_iff : ∀ l, met.contains l = true ↔ l ∈ nodes.map label
  size_eq : met.size = nodes.length

namespace Met

theorem start : Met [] {} where
  contains_iff := by simp
  size_eq := by simp

theorem meet_new (h : Met nodes met) (hnew : e.label ∉ nodes.map label) :
    ∃ after, meet met e = .ok after ∧ Met (nodes ++ [e]) after := by
  have hcontains : ¬met.contains e.label = true := mt (h.contains_iff e.label).mp hnew
  refine ⟨met.insert e.label, if_neg hcontains, ?_, ?_⟩
  · intro l
    rw [Std.TreeSet.contains_insert, Bool.or_eq_true, beq_iff_eq, Std.compare_eq_iff_eq,
      h.contains_iff, List.map_append, List.mem_append, List.map_singleton, List.mem_singleton,
      eq_comm, or_comm]
  · rw [Std.TreeSet.size_insert, if_neg hcontains, h.size_eq, List.length_append]
    rfl

theorem meet_known (h : Met nodes met) (hknown : e.label ∈ nodes.map label) :
    meet met e = .error e :=
  if_pos ((h.contains_iff e.label).mpr hknown)

/-- As long as no node is met again, the check goes on. -/
theorem meet_all (h : Met before met) (hnodup : ((before ++ nodes).map label).Nodup) :
    ∃ after, nodes.foldlM meet met = .ok after ∧ Met (before ++ nodes) after := by
  -- On the nodes still to meet, with those met before general.
  induction nodes generalizing before met with
  | nil => exact ⟨met, rfl, by rwa [List.append_nil]⟩
  | cons e rest ih =>
    have hnew := label_notMem_of_nodup hnodup
    rw [List.append_cons] at hnodup ⊢
    obtain ⟨next, hmeet, hnext⟩ := h.meet_new hnew
    obtain ⟨after, hrest, hafter⟩ := ih hnext hnodup
    refine ⟨after, ?_, hafter⟩
    rw [List.foldlM_cons, hmeet]
    exact hrest

end Met

theorem check_of_distinct (h : root.Distinct) (store : Store) :
    root.check store = .ok root.preorder.length := by
  obtain ⟨met, hmet, hall⟩ := Met.start.meet_all h
  rw [List.nil_append] at hall
  unfold check
  rw [meetAll_eq, hmet]
  exact congrArg Except.ok hall.size_eq

theorem check_of_firstMetAgain (h : FirstMetAgain root.preorder node) (store : Store) :
    root.check store = .error (.shared (node.description store)) := by
  obtain ⟨before, after, hnodes, hnodup, hnode⟩ := h
  obtain ⟨met, hmet, hall⟩ := Met.start.meet_all hnodup
  have hrest : (node :: after).foldlM meet met = .error node := by
    rw [List.foldlM_cons, hall.meet_known hnode]
    rfl
  have hstop : root.preorder.foldlM meet {} = .error node := by
    rw [hnodes, List.foldlM_append, hmet]
    exact hrest
  unfold check
  rw [meetAll_eq, hstop]

/-- The check succeeds exactly if no node has two positions, that is, if there are as many
positions as nodes, and this number is its answer. Otherwise it fails, and its message
spells out the first node in pre-order that was met before. -/
theorem check_counts_objects (store : Store) (root : Expr) :
    (∀ count, root.check store = .ok count ↔
      root.Distinct ∧ count = root.preorder.length ∧ count = root.objects.ncard) ∧
    ((∃ count, root.check store = .ok count) ↔ root.objects.ncard = root.preorder.length) ∧
    ∀ fault, root.check store = .error fault ↔
      ∃ node, FirstMetAgain root.preorder node ∧ fault = .shared (node.description store) ∧
        fault.message = "node " ++ node.description store ++
          " is reachable through more than one parent" := by
  rw [← distinct_iff_ncard]
  by_cases h : root.Distinct
  · have hcheck := check_of_distinct h store
    have hncard := (distinct_iff_ncard root).mp h
    refine ⟨fun count => ?_, ?_, fun fault => ?_⟩
    · rw [hcheck, hncard, Except.ok.injEq, eq_comm]
      exact ⟨fun hcount => ⟨h, hcount, hcount⟩, fun hcount => hcount.2.1⟩
    · exact iff_of_true ⟨_, hcheck⟩ h
    · rw [hcheck]
      refine iff_of_false (by simp) ?_
      rintro ⟨node, hnode, -⟩
      exact not_nodup_of_firstMetAgain hnode h
  · obtain ⟨node, hnode⟩ := exists_firstMetAgain h
    have hcheck := check_of_firstMetAgain hnode store
    refine ⟨fun count => ?_, ?_, fun fault => ?_⟩
    · rw [hcheck]
      exact iff_of_false (by simp) fun hcount => h hcount.1
    · rw [hcheck]
      exact iff_of_false (by simp) h
    · constructor
      · intro hfault
        obtain rfl := Except.error.inj (hcheck.symm.trans hfault)
        exact ⟨node, hnode, rfl, rfl⟩
      · rintro ⟨again, hagain, rfl, -⟩
        exact check_of_firstMetAgain hagain store

/-- In `sin(x) ^ sin(x)` with one node for both sines, the sine is met again before its
argument is. -/
example :
    let sine := call 1 (.builtin .sin) (var 0 "x")
    (power 2 sine sine).check Store.empty = .error (.shared (sine.description Store.empty)) := by
  decide +kernel

end Reckoner.Expr
