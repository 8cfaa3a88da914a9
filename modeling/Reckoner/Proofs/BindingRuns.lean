import Mathlib
import Reckoner.Proofs.Rendering.Reread
import Reckoner.Proofs.Totals
import Reckoner.Proofs.Walks

/-!
Bindings one after the other. A call that binds gives the leaves of each name it binds their
value and changes nothing else, so runs of calls come together like updates of a map: only the
last value of a name is left, whatever the calls it came in with. The counts do not come
together in this way, but where no name is bound twice the leaves that two calls count are
different leaves.
-/

namespace Reckoner

inductive BindCall
  | one (name : String) (value : Float)
  | several (bindings : Bindings)

namespace BindCall

def pairs : BindCall → List (String × Float)
  | one name value => [(name, value)]
  | several bindings => bindings.toList

def run (root : Expr) (store : Store) : BindCall → Nat × Store
  | one name value => root.bind name value store
  | several bindings => root.bindAll bindings store

end BindCall

namespace Expr

/-- Calls in turn: the sum of their counts, and the store after the last. -/
def bindRun (root : Expr) (store : Store) : List BindCall → Nat × Store
  | [] => (0, store)
  | first :: calls =>
      let (count, next) := first.run root store
      let (total, after) := root.bindRun next calls
      (count + total, after)

def bindEach (root : Expr) (store : Store) (pairs : List (String × Float)) : Nat × Store :=
  root.bindRun store (pairs.map fun p => .one p.1 p.2)

end Expr

def Store.Alike (s t : Store) : Prop := ∀ l, s.get l = t.get l

/-- The leaves of a tree are worth what their names were given, and what they were worth
before if that is nothing; where no leaf of the tree is, nothing has changed. -/
structure Assigned (root : Expr) (given : String → Option Float) (before after : Store) :
    Prop where
  leaf : ∀ l n, .var l n ∈ root.preorder → after.get l = (given n).getD (before.get l)
  other : ∀ l, (∀ n, .var l n ∉ root.preorder) → after.get l = before.get l

namespace Bindings

variable {pairs : List (String × Float)} {bindings : Bindings} {name : String} {value : Float}

theorem last?_cons (p : String × Float) (rest : List (String × Float)) (name : String) :
    last? (p :: rest) name = (last? rest name).or (if name = p.1 then some p.2 else none) := by
  have happend := last?_append [p] rest name
  rw [List.singleton_append] at happend
  rw [happend]
  congr 1
  rw [last?, List.reverse_singleton, List.lookup_cons]
  by_cases hname : name = p.1
  · simp [hname]
  · rw [beq_false_of_ne hname, if_neg hname]
    rfl

theorem last?_eq_none_iff : last? pairs name = none ↔ name ∉ pairs.map Prod.fst := by
  induction pairs with
  | nil => simp [last?]
  | cons p rest ih =>
    rw [last?_cons, Option.or_eq_none_iff, ih]
    simp [and_comm, not_or]

/-- Where no name comes twice, the order of the pairs does not matter. -/
theorem last?_eq_some_iff (hnodup : (pairs.map Prod.fst).Nodup) :
    last? pairs name = some value ↔ (name, value) ∈ pairs := by
  induction pairs with
  | nil => simp [last?]
  | cons p rest ih =>
    obtain ⟨n, v⟩ := p
    rw [List.map_cons, List.nodup_cons] at hnodup
    obtain ⟨hnew, hrest⟩ := hnodup
    rw [last?_cons, List.mem_cons, ← ih hrest]
    by_cases hname : name = n
    · subst hname
      rw [last?_eq_none_iff.mpr hnew]
      simp [eq_comm]
    · simp [hname]

theorem last?_eq_ofPairs (pairs : List (String × Float)) (name : String) :
    last? pairs name = (ofPairs pairs)[name]? := by
  rw [ofPairs, getElem?_update]
  simp [empty]

theorem nodup_toList (bindings : Bindings) : (bindings.toList.map Prod.fst).Nodup := by
  have hdistinct := bindings.distinct_keys_toList
  rw [List.Nodup, List.pairwise_map]
  exact hdistinct.imp fun hne heq => hne (Std.compare_eq_iff_eq.mpr heq)

/-- The entries of a map in any order are pairs for its names. -/
theorem last?_of_perm (h : pairs.Perm bindings.toList) (name : String) :
    last? pairs name = bindings[name]? := by
  have hnodup : (pairs.map Prod.fst).Nodup := (h.map Prod.fst).nodup_iff.mpr bindings.nodup_toList
  ext value
  rw [last?_eq_some_iff hnodup, h.mem_iff, Std.TreeMap.mem_toList_iff_getElem?_eq_some]

end Bindings

namespace Assigned

variable {root : Expr} {given later : String → Option Float} {before middle after after' : Store}

theorem refl (root : Expr) (store : Store) : Assigned root (fun _ => none) store store :=
  ⟨fun _ _ _ => rfl, fun _ _ => rfl⟩

theorem trans (h : Assigned root given before middle) (h' : Assigned root later middle after) :
    Assigned root (fun n => (later n).or (given n)) before after := by
  constructor
  · intro l n hmem
    rw [h'.leaf l n hmem, h.leaf l n hmem]
    cases later n <;> rfl
  · intro l hl
    rw [h'.other l hl, h.other l hl]

/-- What the names were given decides what is left. -/
theorem alike (h : Assigned root given before after) (h' : Assigned root later before after')
    (hgiven : ∀ n ∈ root.names, given n = later n) : after.Alike after' := by
  intro l
  by_cases hl : ∃ n, .var l n ∈ root.preorder
  · obtain ⟨n, hmem⟩ := hl
    rw [h.leaf l n hmem, h'.leaf l n hmem, hgiven n (Expr.mem_names hmem)]
  · have hl : ∀ n, .var l n ∉ root.preorder := not_exists.mp hl
    rw [h.other l hl, h'.other l hl]

end Assigned

namespace Expr

variable {root : Expr} {bindings : Bindings}

theorem bindAll_count (h : root.Consistent) (bindings : Bindings) (store : Store) :
    (root.bindAll bindings store).1 = (Binder.boundLeaves bindings root).card := by
  have hcount := (Binder.apply_spec (.start bindings) h store).1
  rw [Binder.bindAll_eq_apply, hcount]
  exact Nat.zero_add _

theorem bindAll_assigned (h : root.Consistent) (bindings : Bindings) (store : Store) :
    Assigned root (bindings[·]?) store (root.bindAll bindings store).2 := by
  have hbinds := (Binder.apply_spec (.start bindings) h store).2
  rw [Binder.bindAll_eq_apply]
  refine ⟨fun l n hmem => ?_, fun l hl => ?_⟩
  · have hget := get_bindAll h bindings store hmem
    rwa [Binder.bindAll_eq_apply] at hget
  · refine hbinds.unbound l fun r hr hbound => ?_
    obtain rfl := List.mem_singleton.mp hr
    obtain ⟨n, -, hmem, -⟩ := Binder.mem_boundLeaves.mp hbound
    exact hl n hmem

theorem run_assigned (h : root.Consistent) (store : Store) (step : BindCall) :
    Assigned root (Bindings.last? step.pairs) store (step.run root store).2 := by
  cases step with
  | one name value =>
    have hlast : Bindings.last? [(name, value)] = ((Bindings.ofPairs [(name, value)])[·]?) := by
      funext n
      exact Bindings.last?_eq_ofPairs _ n
    rw [BindCall.run, BindCall.pairs, bind_eq_bindAll, hlast]
    exact bindAll_assigned h _ store
  | several bindings =>
    have hlast : Bindings.last? bindings.toList = (bindings[·]?) := by
      funext n
      exact Bindings.last?_of_perm (List.Perm.refl _) n
    rw [BindCall.run, BindCall.pairs, hlast]
    exact bindAll_assigned h bindings store

/-- After any calls a name has been given the last value bound to it. -/
theorem bindRun_assigned (h : root.Consistent) (store : Store) (calls : List BindCall) :
    Assigned root (Bindings.last? (calls.flatMap BindCall.pairs)) store
      (root.bindRun store calls).2 := by
  induction calls generalizing store with
  | nil => exact .refl root store
  | cons first calls ih =>
    have hassigned := (run_assigned h store first).trans (ih (first.run root store).2)
    have hlast : Bindings.last? ((first :: calls).flatMap BindCall.pairs) =
        fun n => (Bindings.last? (calls.flatMap BindCall.pairs) n).or
          (Bindings.last? first.pairs n) := by
      funext n
      rw [List.flatMap_cons, Bindings.last?_append]
    rw [hlast]
    exact hassigned

/-- The leaves that are counted are those of the names bound. -/
theorem mem_boundLeaves_iff {pairs : List (String × Float)} {l : Label}
    (hpairs : ∀ n, Bindings.last? pairs n = bindings[n]?) :
    l ∈ Binder.boundLeaves bindings root ↔
      ∃ n ∈ pairs.map Prod.fst, .var l n ∈ root.preorder := by
  rw [Binder.mem_boundLeaves]
  constructor
  · rintro ⟨n, v, hmem, hv⟩
    refine ⟨n, ?_, hmem⟩
    by_contra hnot
    rw [← hpairs, Bindings.last?_eq_none_iff.mpr hnot] at hv
    cases hv
  · rintro ⟨n, hn, hmem⟩
    have hsome : bindings[n]? ≠ none := by
      rw [← hpairs, ne_eq, Bindings.last?_eq_none_iff]
      exact not_not.mpr hn
    obtain ⟨v, hv⟩ := Option.ne_none_iff_exists'.mp hsome
    exact ⟨n, v, hmem, hv⟩

/-- Two pairs of different names count different leaves. -/
theorem bindEach_count (h : root.Consistent) (store : Store) {pairs : List (String × Float)}
    (hnodup : (pairs.map Prod.fst).Nodup) :
    (root.bindEach store pairs).1 = (Binder.boundLeaves (Bindings.ofPairs pairs) root).card := by
  induction pairs generalizing store with
  | nil =>
    have hnone : Binder.boundLeaves (Bindings.ofPairs []) root = ∅ := by
      ext l
      simp [mem_boundLeaves_iff (Bindings.last?_eq_ofPairs [])]
    rw [hnone]
    rfl
  | cons p rest ih =>
    obtain ⟨name, value⟩ := p
    rw [List.map_cons, List.nodup_cons] at hnodup
    obtain ⟨hnew, hrest⟩ := hnodup
    have hmem : ∀ pairs l, l ∈ Binder.boundLeaves (Bindings.ofPairs pairs) root ↔
        ∃ n ∈ pairs.map Prod.fst, .var l n ∈ root.preorder :=
      fun pairs l => mem_boundLeaves_iff (Bindings.last?_eq_ofPairs pairs)
    have hunion : Binder.boundLeaves (Bindings.ofPairs ((name, value) :: rest)) root =
        Binder.boundLeaves (Bindings.ofPairs [(name, value)]) root ∪
          Binder.boundLeaves (Bindings.ofPairs rest) root := by
      ext l
      simp only [Finset.mem_union, hmem, List.map_cons, List.map_nil, List.mem_cons,
        List.not_mem_nil, or_false, exists_eq_left, exists_eq_or_imp]
    have hdisjoint : Disjoint (Binder.boundLeaves (Bindings.ofPairs [(name, value)]) root)
        (Binder.boundLeaves (Bindings.ofPairs rest) root) := by
      rw [Finset.disjoint_left]
      intro l hl hl'
      obtain ⟨n, hn, hleaf⟩ := (hmem _ l).mp hl
      obtain ⟨n', hn', hleaf'⟩ := (hmem _ l).mp hl'
      -- A leaf has one name, and the two calls bind none in common.
      obtain ⟨-, rfl⟩ := Expr.var.inj (h _ hleaf _ hleaf' rfl)
      obtain rfl := List.mem_singleton.mp hn
      exact hnew hn'
    rw [hunion, Finset.card_union_of_disjoint hdisjoint, ← bindAll_count h _ store,
      ← ih (root.bind name value store).2 hrest, ← bind_eq_bindAll]
    rfl

def SameLeaf (s t : Store) (e : Expr) : Prop := ∀ l n, e = .var l n → s.get l = t.get l

theorem foldTerms_congr {s t : Store} {rest : List (Sign × Expr)}
    (h : ∀ term ∈ rest, (valueAlgebra s).fold term.2 = (valueAlgebra t).fold term.2) :
    (valueAlgebra s).foldTerms rest = (valueAlgebra t).foldTerms rest := by
  induction rest with
  | nil => rfl
  | cons term rest ih =>
    obtain ⟨sign, e⟩ := term
    obtain ⟨he, hrest⟩ := List.forall_mem_cons.mp h
    rw [Algebra.foldTerms, Algebra.foldTerms, he, ih hrest]

/-- The value of a tree, or its fault, depends on its leaves alone. -/
theorem fold_congr {s t : Store} {e : Expr} (h : e.Every (SameLeaf s t)) :
    (valueAlgebra s).fold e = (valueAlgebra t).fold e := by
  induction e using Expr.induct with
  | const l v => rfl
  | var l n => exact congrArg Except.ok (Every.var_iff.mp h l n rfl)
  | chain l family o sign e rest ihe ihrest =>
    obtain ⟨-, he, hrest⟩ := Every.chain_iff.mp h
    have hterms := foldTerms_congr fun term hterm => ihrest term hterm (hrest term hterm)
    rw [Algebra.fold, Algebra.fold, ihe he, hterms]
    rfl
  | power l base exponent ihbase ihexponent =>
    obtain ⟨-, hbase, hexponent⟩ := Every.power_iff.mp h
    rw [Algebra.fold, Algebra.fold, ihbase hbase, ihexponent hexponent]
    rfl
  | call l callee argument ih =>
    obtain ⟨-, hargument⟩ := Every.call_iff.mp h
    rw [Algebra.fold, Algebra.fold, ih hargument]
    rfl

theorem evaluate_congr {s t : Store} (h : root.Every (SameLeaf s t)) :
    root.evaluate s = root.evaluate t := by
  rw [evaluate_eq_fold, evaluate_eq_fold, fold_congr h]

/-- Before any calls come what the names were given last and what the others are worth. -/
theorem evaluate_bindRun (h : root.Consistent) {store held : Store} {calls calls' : List BindCall}
    (hlast : ∀ n ∈ root.names, Bindings.last? (calls.flatMap BindCall.pairs) n =
      Bindings.last? (calls'.flatMap BindCall.pairs) n)
    (hunbound : ∀ l n, .var l n ∈ root.preorder →
      Bindings.last? (calls.flatMap BindCall.pairs) n = none → store.get l = held.get l) :
    root.evaluate (root.bindRun store calls).2 = root.evaluate (root.bindRun held calls').2 := by
  refine evaluate_congr fun node hnode l n hleaf => ?_
  subst hleaf
  rw [(bindRun_assigned h store calls).leaf l n hnode,
    (bindRun_assigned h held calls').leaf l n hnode, ← hlast n (mem_names hnode)]
  cases hgiven : Bindings.last? (calls.flatMap BindCall.pairs) n with
  | none => exact hunbound l n hnode hgiven
  | some v => rfl

/-- Binding a map is binding its entries by calls of their own, in any order, with the counts
added up. Of two maps bound one after the other what is left is what the first updated with the
second would leave, so binding a map again changes nothing, and maps without a common name
can be bound in either order. After any run of calls each leaf is worth the last value bound
to its name, or what it was worth before, and these alone decide what the tree is worth. -/
theorem bindRun_last (h : root.Consistent) (store : Store) :
    (∀ bindings : Bindings, ∀ pairs : List (String × Float), pairs.Perm bindings.toList →
      (root.bindEach store pairs).1 = (root.bindAll bindings store).1 ∧
        (root.bindEach store pairs).2.Alike (root.bindAll bindings store).2) ∧
    (∀ first second : Bindings,
      (root.bindAll second (root.bindAll first store).2).2.Alike
        (root.bindAll (first.update second.toList) store).2) ∧
    (∀ bindings : Bindings,
      (root.bindAll bindings (root.bindAll bindings store).2).2.Alike
        (root.bindAll bindings store).2) ∧
    (∀ first second : Bindings, (∀ n ∈ first, n ∉ second) →
      (root.bindAll second (root.bindAll first store).2).2.Alike
        (root.bindAll first (root.bindAll second store).2).2) ∧
    (∀ calls, Assigned root (Bindings.last? (calls.flatMap BindCall.pairs)) store
      (root.bindRun store calls).2) ∧
    ∀ calls calls' held,
      (∀ n ∈ root.names, Bindings.last? (calls.flatMap BindCall.pairs) n =
        Bindings.last? (calls'.flatMap BindCall.pairs) n) →
      (∀ l n, .var l n ∈ root.preorder →
        Bindings.last? (calls.flatMap BindCall.pairs) n = none → store.get l = held.get l) →
      root.evaluate (root.bindRun store calls).2 = root.evaluate (root.bindRun held calls').2 := by
  have hboth : ∀ first second : Bindings, Assigned root (fun n => second[n]?.or first[n]?) store
      (root.bindAll second (root.bindAll first store).2).2 := fun first second =>
    (bindAll_assigned h first store).trans (bindAll_assigned h second _)
  refine ⟨fun bindings pairs hperm => ⟨?_, ?_⟩, fun first second => ?_, fun bindings => ?_,
    fun first second hdisjoint => ?_, bindRun_assigned h store,
    fun calls calls' held hlast hunbound => evaluate_bindRun h hlast hunbound⟩
  · have hnodup : (pairs.map Prod.fst).Nodup :=
      (hperm.map Prod.fst).nodup_iff.mpr bindings.nodup_toList
    have hsame : Binder.boundLeaves (Bindings.ofPairs pairs) root =
        Binder.boundLeaves bindings root := by
      ext l
      rw [mem_boundLeaves_iff (Bindings.last?_eq_ofPairs pairs),
        mem_boundLeaves_iff (Bindings.last?_of_perm hperm)]
    rw [bindEach_count h store hnodup, hsame, bindAll_count h]
  · have heach := bindRun_assigned h store (pairs.map fun p => .one p.1 p.2)
    have hpairs : (pairs.map fun p => BindCall.one p.1 p.2).flatMap BindCall.pairs = pairs := by
      rw [List.flatMap_map]
      exact List.flatMap_singleton' pairs
    rw [hpairs] at heach
    exact heach.alike (bindAll_assigned h bindings store) fun n _ => Bindings.last?_of_perm hperm n
  · refine (hboth first second).alike (bindAll_assigned h _ store) fun n _ => ?_
    rw [Bindings.getElem?_update, Bindings.last?_of_perm (List.Perm.refl _)]
  · exact (hboth bindings bindings).alike (bindAll_assigned h bindings store) fun n _ =>
      Option.or_self
  · refine (hboth first second).alike (hboth second first) fun n _ => ?_
    by_cases hn : n ∈ first
    · rw [Std.TreeMap.getElem?_eq_none (hdisjoint n hn), Option.none_or, Option.or_none]
    · rw [Std.TreeMap.getElem?_eq_none hn, Option.none_or, Option.or_none]

/-- In `x + sin(x) - y`, with one node for `x`, two names count two leaves in either order, and
a value that is bound over does not matter. -/
theorem bindRun_last_shared :
    ∃ root : Expr, root.Consistent ∧
      (root.bindEach Store.empty [("y", 5.0), ("x", 2.0)]).1 =
        (root.bindAll (Bindings.ofPairs [("x", 2.0), ("y", 5.0)]) Store.empty).1 ∧
      (root.bindAll (Bindings.ofPairs [("x", 2.0), ("y", 5.0)]) Store.empty).1 = 2 ∧
      root.evaluate (root.bindRun Store.empty [.one "x" 1.0, .one "x" 2.0]).2 =
        root.evaluate (root.bindRun Store.empty [.several (Bindings.ofPairs [("x", 2.0)])]).2 := by
  have hassembly : Assembly.empty.extend 0 [.var "x" 0.0, .call (.builtin .sin) 0, .var "y" 0.0,
      .chain .sum .plus [(0, .plus), (1, .plus), (2, .minus)]] = .ok _ := rfl
  have hconsistent : Expr.Consistent (.chain 3 .sum .plus (.plus, .var 0 "x")
      [(.plus, .call 1 (.builtin .sin) (.var 0 "x")), (.minus, .var 2 "y")]) := by
    refine (((Assembly.Sound.empty 0).extend hassembly).coherent fun r hr => ?_).consistent
      (List.mem_singleton_self _)
    obtain rfl := List.mem_singleton.mp hr
    exact ⟨3, rfl⟩
  obtain ⟨heach, -, -, -, -, hvalue⟩ := bindRun_last hconsistent Store.empty
  have hentries : (Bindings.ofPairs [("x", 2.0), ("y", 5.0)]).toList =
      [("x", 2.0), ("y", 5.0)] := rfl
  refine ⟨_, hconsistent, (heach _ _ (hentries ▸ List.Perm.swap _ _ _)).1, rfl, ?_⟩
  refine hvalue _ _ Store.empty (fun n _ => ?_) fun _ _ _ _ => rfl
  show Bindings.last? [("x", 1.0), ("x", 2.0)] n = Bindings.last? [("x", 2.0)] n
  rw [Bindings.last?_cons, Bindings.last?_cons]
  by_cases hname : n = "x"
  · rw [if_pos hname]
    rfl
  · rw [if_neg hname, if_neg hname]
    rfl

end Expr

end Reckoner
