import Reckoner.Proofs.BindingRuns
import Reckoner.Proofs.Rendering.Guarding
import Reckoner.Proofs.Rendering.Reread

/-!
The texts on the stack of the rendering machine. Fed with the same nodes as the machine of
values, in whatever order, it has at each place of its stack a text of the level that is
stated with it, and that text is worth the value at the same place. The two stacks are
compared through the phrases a third machine would have.
-/

namespace Reckoner

def leafPair? (store : Store) : Expr → Option (String × Float)
  | .var l n => some (n, store.get l)
  | _ => none

def leafValues (store : Store) (nodes : List Expr) : Bindings :=
  Bindings.ofPairs (nodes.filterMap (leafPair? store))

theorem getElem?_leafValues {store : Store} {nodes : List Expr} {l : Label} {n : String}
    (hone : ∀ l k n, .var l n ∈ nodes → .var k n ∈ nodes → store.get l = store.get k)
    (hmem : .var l n ∈ nodes) : (leafValues store nodes)[n]? = some (store.get l) := by
  have hpair : (n, store.get l) ∈ nodes.filterMap (leafPair? store) :=
    List.mem_filterMap.mpr ⟨_, hmem, rfl⟩
  rw [leafValues, ← Bindings.last?_eq_ofPairs]
  cases hlast : Bindings.last? (nodes.filterMap (leafPair? store)) n with
  | none => exact absurd (List.mem_map_of_mem hpair) (Bindings.last?_eq_none_iff.mp hlast)
  | some v =>
    obtain ⟨before, after, heq, -⟩ := List.lookup_eq_some_iff.mp hlast
    have hfound : (n, v) ∈ nodes.filterMap (leafPair? store) :=
      List.mem_reverse.mp (heq ▸ by simp)
    obtain ⟨node, hnode, hv⟩ := List.mem_filterMap.mp hfound
    cases node with
    | var k m =>
      obtain ⟨rfl, rfl⟩ := Prod.mk.inj (Option.some.inj hv)
      exact congrArg some (hone k l m hnode hmem)
    | const | chain | power | call => simp [leafPair?] at hv

namespace Lexer

/-- A text with a minus in front is read with the minus first. -/
theorem Lexes.eq_minus {cs : List Char} {symbol : Symbol} {word : List Symbol}
    (h : Lexes ('-' :: cs) (symbol :: word)) : symbol = .operator .sum .minus := by
  obtain ⟨tokens, hword, hscan⟩ := h [] 0 (by simp [Stops])
  obtain ⟨t, rest, rfl, ht, -⟩ := Spells.cons_iff.mp hword
  have hlexeme : lexeme? ('-' :: [] ++ cs) = some (.minus, ['-']) := rfl
  have hminus := scan_lexeme 0 (by decide) hlexeme
  rw [List.append_nil] at hscan
  rw [List.singleton_append, hscan] at hminus
  cases hrest : scan (0 + ['-'].length) 0 cs with
  | error e =>
    rw [hrest] at hminus
    cases hminus
  | ok left =>
    rw [hrest] at hminus
    obtain ⟨rfl, -⟩ := List.cons.inj (Except.ok.inj hminus)
    exact (Option.some.inj ht).symm

end Lexer

/-- The text is a word of its level, so that it has no sign in front if it is a term, and
with the names bound it is worth the value. -/
structure Rendered.Denotes (bindings : Bindings) (r : Rendered) (v : Float) : Prop where
  derives : ∃ word finish, Lexer.tokenize r.text = .ok (word ++ [finish]) ∧
    finish.kind = .finish ∧ (∀ t ∈ word, t.kind ≠ .finish ∧ t.Readable) ∧
    Derives r.level.nonterminal (word.map Token.kind)
  minus : r.text.toList.head? = some '-' → r.level = .sum
  value : ∀ label, ∃ again, Rooted.ofText label r.text = .ok again ∧
    again.root.evaluate (again.root.bindAll bindings again.store).2 = .ok v

namespace Rendered

variable {r : Rendered} {p : Piece}

theorem Writes.derives (h : r.Writes p) :
    ∃ word finish, Lexer.tokenize r.text = .ok (word ++ [finish]) ∧ finish.kind = .finish ∧
      (∀ t ∈ word, t.kind ≠ .finish ∧ t.Readable) ∧
      Derives r.level.nonterminal (word.map Token.kind) := by
  obtain ⟨word, hword, htokenize⟩ := h.lexes.tokenize
  refine ⟨word, _, htokenize, rfl, fun t ht => ?_, ?_⟩
  · exact ((exists_spells_iff word).mp ⟨_, hword⟩ t ht).symm
  · rw [hword.map_kind, h.level]
    exact Derives.of_phrase p.phrase

theorem Writes.minus (h : r.Writes p) (hhead : r.text.toList.head? = some '-') :
    r.level = .sum := by
  by_contra hlevel
  rw [h.level] at hlevel
  obtain ⟨b, v, hword, hopens⟩ := p.phrase.exists_first hlevel
  have hlexes := h.lexes
  obtain ⟨cs, hcs⟩ := List.head?_eq_some_iff.mp hhead
  rw [hcs, hword] at hlexes
  rw [hlexes.eq_minus] at hopens
  exact hopens

theorem Writes.value (h : r.Writes p) (bindings : Bindings) (label : Nat) :
    ∃ again, Rooted.ofText label r.text = .ok again ∧
      again.root.evaluate (again.root.bindAll bindings again.store).2 =
        .ok (p.phrase.value fun n => bindings.getD n 0.0) := by
  have hlexes := h.within .sum
  rw [within_sum] at hlexes
  obtain ⟨free, hread⟩ := Rooted.ofText_of_lexes hlexes label
  have hagrees := Expr.agrees_bindAll
    (Expr.Consistent.of_nodup ((p.within .sum).distinct_tree label)) bindings
    fun l _ _ _ => Store.get_empty l
  refine ⟨_, hread, ?_⟩
  rw [Expr.evaluate_eq_fold, Phrase.fold_tree _ hagrees, Piece.value_within]

/-- A text read as a phrase denotes what the phrase is worth. -/
theorem Writes.denotes (h : r.Writes p) (bindings : Bindings) :
    r.Denotes bindings (p.phrase.value fun n => bindings.getD n 0.0) :=
  ⟨h.derives, h.minus, h.value bindings⟩

end Rendered

/-- Texts that are read as phrases denote what these are worth, place by place. -/
theorem forall₂_denotes {bindings : Bindings} {texts : List Rendered} {pieces : List Piece}
    {values : List Float} (htexts : List.Forall₂ Rendered.Writes texts pieces)
    (hvalues : List.Forall₂ (fun p v => p.phrase.value (fun n => bindings.getD n 0.0) = v)
      pieces values) : List.Forall₂ (Rendered.Denotes bindings) texts values := by
  induction htexts generalizing values with
  | nil =>
    obtain rfl := List.forall₂_nil_left_iff.mp hvalues
    exact .nil
  | cons hwrites htexts ih =>
    cases hvalues with
    | cons hvalue hvalues =>
      subst hvalue
      exact .cons (hwrites.denotes bindings) (ih hvalues)

/-- The machine of values and the machine of texts, both started empty and fed with the same
nodes in any order. As long as they go on, each text denotes the value at its place under the
values of the leaves; and they go on equally long. -/
theorem texts_denote_values (store : Store) {nodes : List Expr}
    (hwritable : ∀ e ∈ nodes, e.Writable)
    (hone : ∀ l k n, .var l n ∈ nodes → .var k n ∈ nodes → store.get l = store.get k) :
    (∀ l n, .var l n ∈ nodes → (leafValues store nodes)[n]? = some (store.get l)) ∧
    ∀ bindings : Bindings, (∀ l n, .var l n ∈ nodes → bindings[n]? = some (store.get l)) →
      ∀ i, (∃ values texts, (valuation store).run [] (nodes.take i) = .ok values ∧
          rendition.run [] (nodes.take i) = .ok texts ∧
          List.Forall₂ (Rendered.Denotes bindings) texts values) ∨
        (valuation store).run [] (nodes.take i) = .error .tooFewValues ∧
          rendition.run [] (nodes.take i) = .error .tooFewTexts := by
  refine ⟨fun l n hmem => getElem?_leafValues hone hmem, fun bindings hbindings i => ?_⟩
  rw [valuation_eq, rendition_eq]
  have hwritten : ∀ e ∈ nodes.take i, e.Writable := fun e he =>
    hwritable e (List.mem_of_mem_take he)
  have hworth : ∀ e ∈ nodes.take i,
      e.Writable ∧ Expr.Worth store (fun n => bindings.getD n 0.0) e := by
    intro e he
    refine ⟨hwritten e he, ?_⟩
    cases e with
    | var l n =>
      have hn := hbindings l n (List.mem_of_mem_take he)
      simp [Expr.Worth, Std.TreeMap.getD_eq_getD_getElem?, hn]
    | const | chain | power | call => trivial
  rcases related_texts_phrasing.run hwritten .nil with
    ⟨texts, pieces, htexts, hpieces, hwrites⟩ | ⟨htexts, hpieces⟩
  · rcases (related_phrasing_values store _).run hworth .nil with
      ⟨pieces', values, hpieces', hvalues, hworth⟩ | ⟨hpieces', -⟩
    · obtain rfl : pieces = pieces' := Except.ok.inj (hpieces.symm.trans hpieces')
      exact .inl ⟨values, texts, hvalues, htexts, forall₂_denotes hwrites hworth⟩
    · exact absurd (hpieces.symm.trans hpieces') nofun
  · rcases (related_phrasing_values store _).run hworth .nil with
      ⟨pieces', values, hpieces', -, -⟩ | ⟨-, hvalues⟩
    · exact absurd (hpieces.symm.trans hpieces') nofun
    · exact .inr ⟨hvalues, htexts⟩

/-- A quotient that is nobody's child, made of a constant and a leaf, under another leaf of
the same name. -/
theorem texts_denote_values_by_hand :
    let store := (Store.empty.set 0 4.0).set 3 4.0
    let nodes := [.var 0 "x", .const 1 (-2.0),
      .chain 2 .product .plus (.minus, .var 0 "x") [(.plus, .var 0 "x")], .var 3 "x"]
    ∃ texts, rendition.run [] nodes = .ok texts ∧
      List.Forall₂ (Rendered.Denotes (leafValues store nodes)) texts [4.0, -2.0] := by
  intro store nodes
  have hx : Lexer.IsName "x" := ⟨'x', [], rfl, by decide, by simp⟩
  have htwo : (-2.0 : Float).isNaN = false ∧ (-2.0 : Float) ≠ -0.0 := by decide +kernel
  have hwritable : ∀ e ∈ nodes, e.Writable := by
    simp [nodes, Expr.Writable, hx, htwo]
    decide
  have hleaf : ∀ l n, .var l n ∈ nodes → store.get l = 4.0 := by
    intro l n hmem
    simp only [nodes, List.mem_cons, Expr.var.injEq, reduceCtorEq, List.not_mem_nil, or_false,
      false_or] at hmem
    rcases hmem with ⟨rfl, -⟩ | ⟨rfl, -⟩ <;> simp [store, Store.get_set]
  have hone : ∀ l k n, .var l n ∈ nodes → .var k n ∈ nodes → store.get l = store.get k :=
    fun l k n hl hk => (hleaf l n hl).trans (hleaf k n hk).symm
  have hrun : (valuation store).run [] nodes = .ok [4.0, -2.0] := by
    have hshape : (valuation store).run [] nodes =
        .ok [store.get 3, Arithmetic.divide 1.0 (-2.0) * store.get 0] := rfl
    have hquotient : Arithmetic.divide 1.0 (-2.0) * 4.0 = -2.0 := by decide +kernel
    rw [hshape, hleaf 3 "x" (by simp [nodes]), hleaf 0 "x" (by simp [nodes]), hquotient]
  obtain ⟨hagree, hdenote⟩ := texts_denote_values store hwritable hone
  rcases hdenote _ hagree 4 with ⟨values, texts, hvalues, htexts, hrel⟩ | ⟨hfailed, -⟩
  · obtain rfl := Except.ok.inj (hrun.symm.trans hvalues)
    exact ⟨texts, htexts, hrel⟩
  · cases hrun.symm.trans hfailed

end Reckoner
