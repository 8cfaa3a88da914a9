import Mathlib.Data.List.Induction
import Reckoner.Proofs.Grammar.Preorder
import Reckoner.Proofs.Source

/-!
The names of a tree and those of its tokens. However chains are gone on, the variables
of a parsed tree stand in pre-order as their tokens stand in the text. So the names that
a tree lists are those of the text, each once and in the order in which they first appear.
-/

namespace Reckoner

/-- Each name of a list once, in the order in which the names first appear in the list. -/
structure FirstAppearances (names all : List String) : Prop where
  nodup : names.Nodup
  mem_iff : ∀ n, n ∈ names ↔ n ∈ all
  ordered : names.Pairwise fun a b => all.idxOf a < all.idxOf b

theorem pairwise_idxOf_eraseDups (all : List String) :
    all.eraseDups.Pairwise fun a b => all.idxOf a < all.idxOf b := by
  -- From the left, since a later name changes no earlier place.
  induction all using List.reverseRecOn with
  | nil => exact List.Pairwise.nil
  | append_singleton all n ih =>
    have hearlier : all.eraseDups.Pairwise
        fun a b => (all ++ [n]).idxOf a < (all ++ [n]).idxOf b := by
      refine ih.imp_of_mem fun ha hb hlt => ?_
      rw [List.mem_eraseDups] at ha hb
      rwa [List.idxOf_append_of_mem ha, List.idxOf_append_of_mem hb]
    rw [List.eraseDups_append]
    by_cases hn : n ∈ all
    · have hnone : [n].removeAll all = [] := by simp [List.removeAll, hn]
      rw [hnone, List.eraseDups_nil, List.append_nil]
      exact hearlier
    · have hlast : ([n].removeAll all).eraseDups = [n] := by
        simp [List.removeAll, hn, List.eraseDups_cons]
      rw [hlast, List.pairwise_append]
      refine ⟨hearlier, List.pairwise_singleton .., fun a ha b hb => ?_⟩
      obtain rfl := List.mem_singleton.mp hb
      rw [List.mem_eraseDups] at ha
      have hplace := List.idxOf_lt_length_of_mem ha
      rw [List.idxOf_append_of_mem ha, List.idxOf_append_of_notMem hn]
      omega

theorem firstAppearances_eraseDups (all : List String) : FirstAppearances all.eraseDups all where
  nodup := by
    refine (pairwise_idxOf_eraseDups all).imp fun hlt => ?_
    rintro rfl
    exact Nat.lt_irrefl _ hlt
  mem_iff _ := List.mem_eraseDups
  ordered := pairwise_idxOf_eraseDups all

def Token.name? (t : Token) : Option String := if t.kind = .name then some t.lexeme else none

def Symbol.name? : Symbol → Option String
  | name n => some n
  | _ => none

theorem Token.name?_eq {t : Token} {symbol : Symbol} (h : t.symbol? = some symbol) :
    t.name? = symbol.name? := by
  have hkind := (Token.kind_of_symbol? h).1
  cases symbol with
  | name n =>
    have hname : t.kind = .name := hkind
    rw [Token.name?, if_pos hname]
    simpa [Token.symbol?, hname, Symbol.name?] using h
  | operator family sign =>
    cases family <;> cases sign <;> simp [Token.name?, hkind, Symbol.kind, Symbol.name?]
  | caret | openBracket | closeBracket | function | number =>
    simp [Token.name?, hkind, Symbol.kind, Symbol.name?]

theorem Spells.names {tokens : List Token} {word : List Symbol} (h : Spells tokens word) :
    tokens.filterMap Token.name? = word.filterMap Symbol.name? := by
  induction word generalizing tokens with
  | nil =>
    obtain rfl := Spells.nil_iff.mp h
    rfl
  | cons symbol word ih =>
    obtain ⟨t, rest, rfl, ht, hrest⟩ := Spells.cons_iff.mp h
    rw [List.filterMap_cons, List.filterMap_cons, Token.name?_eq ht, ih hrest]

theorem names_of_ended {tokens : List Token} (h : Parser.Ended tokens) :
    tokens.filterMap Token.name? = [] := by
  rw [List.filterMap_eq_nil_iff]
  intro t ht
  simp [Token.name?, h t ht]

theorem Expr.StandsFor.name? {node : Expr} {symbol : Symbol} (h : node.StandsFor symbol) :
    node.name? = symbol.name? := by
  cases h <;> rfl

theorem Expr.filterMap_name?_of_standsFor {nodes : List Expr} {symbols : List Symbol}
    (h : List.Forall₂ Expr.StandsFor nodes symbols) :
    nodes.filterMap Expr.name? = symbols.filterMap Symbol.name? := by
  induction h with
  | nil => rfl
  | cons hnode _ ih => rw [List.filterMap_cons, List.filterMap_cons, hnode.name?, ih]

/-- The names stand in the tree of a phrase as in its word. -/
theorem Phrase.filterMap_name? {level : Level} (p : Phrase level) (label : Label) :
    (p.tree label).preorder.filterMap Expr.name? = p.word.filterMap Symbol.name? := by
  -- Only operands have names, and the operands stand in one order.
  have hnodes : (p.tree label).operands.filterMap Expr.name? =
      (p.tree label).preorder.filterMap Expr.name? := by
    rw [Expr.operands, List.filterMap_filter]
    refine List.filterMap_congr fun node _ => ?_
    cases node <;> rfl
  have hsymbols : (p.word.filter Symbol.isOperand).filterMap Symbol.name? =
      p.word.filterMap Symbol.name? := by
    rw [List.filterMap_filter]
    refine List.filterMap_congr fun symbol _ => ?_
    cases symbol <;> rfl
  rw [← hnodes, ← hsymbols]
  exact Expr.filterMap_name?_of_standsFor (p.forall₂_operands label)

/-- A parsed tree lists the names of its tokens in the order of their first appearance. -/
theorem Rooted.firstAppearances_names {label : Label} {tokens : List Token} {r : Rooted}
    (h : Rooted.ofTokens label tokens = .ok r) :
    FirstAppearances r.root.names (tokens.filterMap Token.name?) := by
  obtain ⟨tree, hparse, rfl⟩ := Rooted.ofTokens_eq_ok.mp h
  obtain ⟨p, word, ends, rfl, hword, hends, rfl⟩ := Parser.exists_phrase_of_parse hparse
  have hnames : (word ++ ends).filterMap Token.name? =
      (p.tree label).preorder.filterMap Expr.name? := by
    rw [List.filterMap_append, names_of_ended hends, List.append_nil, hword.names,
      p.filterMap_name?]
  rw [hnames]
  exact firstAppearances_eraseDups _

end Reckoner
