import Reckoner.Proofs.Binding
import Reckoner.Proofs.Reduction
import Reckoner.Source

/-!
What a source is built into. Tokens and texts give the tree that is read from them, with
nothing in the store. Of trees put together from parts, every node under a part is itself
a part, and a part has the label of its place, so positions with one label are one node,
however often parts are shared.
-/

namespace Reckoner

namespace Rooted

variable {label : Label} {r : Rooted}

theorem ofTokens_eq_ok {tokens : List Token} : ofTokens label tokens = .ok r ↔
    ∃ tree, Parser.parse label tokens = .ok tree ∧
      ⟨tree, Store.empty, label + tokens.length⟩ = r := by
  rw [ofTokens, bind_eq_ok]
  simp [pure, Except.pure]

theorem ofText_eq_ok {text : String} : ofText label text = .ok r ↔
    ∃ tokens, Lexer.tokenize text = .ok tokens ∧ ofTokens label tokens = .ok r :=
  bind_eq_ok

theorem ofTokens_eq_error {tokens : List Token} {error : ParseError} :
    ofTokens label tokens = .error error ↔ Parser.parse label tokens = .error error := by
  rw [ofTokens, bind_eq_error]
  simp [pure, Except.pure]

theorem ofText_eq_error {text : String} {error : ParseError} :
    ofText label text = .error error ↔ Lexer.tokenize text = .error error ∨
      ∃ tokens, Lexer.tokenize text = .ok tokens ∧ ofTokens label tokens = .error error :=
  bind_eq_error

theorem ofParts_eq_ok {parts : List Part} : ofParts label parts = .ok r ↔
    ∃ assembly root, Assembly.empty.extend label parts = .ok assembly ∧
      assembly.node (parts.length - 1) = .ok root ∧
        ⟨root, assembly.store, label + parts.length⟩ = r := by
  simp [ofParts, bind_eq_ok, pure, Except.pure]

end Rooted

namespace Assembly

variable {base : Nat} {a b : Assembly} {label : Nat} {part : Part} {e : Expr}

/-- The nodes are labelled by their places, and have only such nodes under them. -/
structure Sound (base : Nat) (a : Assembly) : Prop where
  label_eq : ∀ {i : Nat} {e : Expr}, a.nodes[i]? = some e → e.label = base + i
  closed : ∀ {i : Nat} {e : Expr}, a.nodes[i]? = some e →
    ∀ n ∈ e.preorder, ∃ j : Nat, a.nodes[j]? = some n

theorem Sound.empty (base : Nat) : Sound base empty where
  label_eq h := by simp [Assembly.empty] at h
  closed h := by simp [Assembly.empty] at h

/-- Nodes under any parts are one node if they have one label. -/
theorem Sound.eq_of_label_eq (h : Sound base a) {i i' : Nat} {e' m n : Expr}
    (he : a.nodes[i]? = some e) (he' : a.nodes[i']? = some e') (hm : m ∈ e.preorder)
    (hn : n ∈ e'.preorder) (hlabel : m.label = n.label) : m = n := by
  obtain ⟨j, hj⟩ := h.closed he m hm
  obtain ⟨k, hk⟩ := h.closed he' n hn
  have hplace : base + j = base + k := by rw [← h.label_eq hj, hlabel, h.label_eq hk]
  obtain rfl : j = k := Nat.add_left_cancel hplace
  exact Option.some.inj (hj.symm.trans hk)

theorem Sound.consistent (h : Sound base a) {i : Nat} (he : a.nodes[i]? = some e) :
    e.Consistent :=
  fun _ hm _ hn hlabel => h.eq_of_label_eq he he hm hn hlabel

theorem node_ok {i : Nat} (h : a.node i = .ok e) : a.nodes[i]? = some e := by
  simp only [node] at h
  split at h
  · rename_i hi
    rw [hi, Except.ok.inj h]
  · simp at h

theorem terms_ok {parts : List (Nat × Sign)} {terms : List (Sign × Expr)}
    (h : a.terms parts = .ok terms) : ∀ t ∈ terms, ∃ j : Nat, a.nodes[j]? = some t.2 := by
  induction parts generalizing terms with
  | nil =>
    obtain rfl := Except.ok.inj h
    simp
  | cons p parts ih =>
    obtain ⟨i, sign⟩ := p
    obtain ⟨e, hnode, h⟩ := bind_eq_ok.mp h
    obtain ⟨rest, hrest, h⟩ := bind_eq_ok.mp h
    obtain rfl := Except.ok.inj h
    intro t ht
    rcases List.mem_cons.mp ht with rfl | ht
    · exact ⟨i, node_ok hnode⟩
    · exact ih hrest t ht

/-- A new node has its label and earlier nodes for children. -/
theorem make_ok (h : a.make label part = .ok e) :
    e.label = label ∧ ∀ c ∈ e.children, ∃ j : Nat, a.nodes[j]? = some c := by
  cases part with
  | const v =>
    obtain rfl := Except.ok.inj h
    simp [Expr.label, Expr.children]
  | var n v =>
    obtain rfl := Except.ok.inj h
    simp [Expr.label, Expr.children]
  | chain family opener parts =>
    obtain ⟨terms, hterms, h⟩ := bind_eq_ok.mp h
    cases terms with
    | nil => simp [throw, throwThe, MonadExceptOf.throw] at h
    | cons first rest =>
      obtain rfl := Except.ok.inj h
      refine ⟨rfl, ?_⟩
      intro c hc
      obtain ⟨t, ht, rfl⟩ := List.mem_map.mp hc
      exact terms_ok hterms t ht
  | power base exponent =>
    obtain ⟨b, hbase, h⟩ := bind_eq_ok.mp h
    obtain ⟨x, hexponent, h⟩ := bind_eq_ok.mp h
    obtain rfl := Except.ok.inj h
    refine ⟨rfl, ?_⟩
    intro c hc
    rcases List.mem_cons.mp hc with rfl | hc
    · exact ⟨base, node_ok hbase⟩
    · obtain rfl := List.mem_singleton.mp hc
      exact ⟨exponent, node_ok hexponent⟩
  | call callee argument =>
    obtain ⟨x, hargument, h⟩ := bind_eq_ok.mp h
    obtain rfl := Except.ok.inj h
    refine ⟨rfl, ?_⟩
    intro c hc
    obtain rfl := List.mem_singleton.mp hc
    exact ⟨argument, node_ok hargument⟩

theorem Sound.push (h : Sound base a) (hlabel : e.label = base + a.nodes.size)
    (hchildren : ∀ c ∈ e.children, ∃ j : Nat, a.nodes[j]? = some c) (store : Store) :
    Sound base ⟨a.nodes.push e, store⟩ := by
  have hearlier {j : Nat} {n : Expr} (hj : a.nodes[j]? = some n) :
      (a.nodes.push e)[j]? = some n := by
    have hlt := (Array.getElem?_eq_some_iff.mp hj).1
    rw [Array.getElem?_push_lt hlt, ← hj, Array.getElem?_eq_getElem hlt]
  constructor
  · intro i x hx
    rw [Array.getElem?_push] at hx
    split at hx
    · rename_i hi
      obtain rfl := Option.some.inj hx
      rw [hlabel, hi]
    · exact h.label_eq hx
  · intro i x hx n hn
    rw [Array.getElem?_push] at hx
    split at hx
    · obtain rfl := Option.some.inj hx
      rw [Expr.preorder_eq] at hn
      rcases List.mem_cons.mp hn with rfl | hn
      · exact ⟨a.nodes.size, by simp⟩
      · obtain ⟨c, hc, hmem⟩ := List.mem_flatMap.mp hn
        obtain ⟨j, hj⟩ := hchildren c hc
        obtain ⟨k, hk⟩ := h.closed hj n hmem
        exact ⟨k, hearlier hk⟩
    · obtain ⟨k, hk⟩ := h.closed hx n hn
      exact ⟨k, hearlier hk⟩

theorem Sound.add (h : Sound base a) (hadd : a.add (base + a.nodes.size) part = .ok b) :
    Sound base b ∧ b.nodes.size = a.nodes.size + 1 := by
  obtain ⟨e, hmake, hpushed⟩ := bind_eq_ok.mp hadd
  obtain ⟨hlabel, hchildren⟩ := make_ok hmake
  obtain rfl := Except.ok.inj hpushed
  exact ⟨h.push hlabel hchildren _, Array.size_push ..⟩

theorem Sound.extend {parts : List Part} (h : Sound base a)
    (hextend : a.extend (base + a.nodes.size) parts = .ok b) : Sound base b := by
  induction parts generalizing a with
  | nil =>
    obtain rfl := Except.ok.inj hextend
    exact h
  | cons part parts ih =>
    obtain ⟨next, hadd, hrest⟩ := bind_eq_ok.mp hextend
    obtain ⟨hnext, hsize⟩ := h.add hadd
    apply ih hnext
    rwa [hsize, ← Nat.add_assoc]

end Assembly

/-- In a tree put together from parts, positions with one label are one node. -/
theorem Rooted.consistent_of_ofParts {label : Nat} {parts : List Part} {r : Rooted}
    (h : Rooted.ofParts label parts = .ok r) : r.root.Consistent := by
  obtain ⟨assembly, root, hassembly, hroot, rfl⟩ := Rooted.ofParts_eq_ok.mp h
  have hsound : Assembly.Sound label assembly := (Assembly.Sound.empty label).extend hassembly
  exact hsound.consistent (Assembly.node_ok hroot)

end Reckoner
