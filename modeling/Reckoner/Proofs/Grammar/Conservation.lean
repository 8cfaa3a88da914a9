import Reckoner.Proofs.Grammar.Names
import Reckoner.Proofs.Grammar.Preorder

/-!
Parsing keeps every operand and every operator. The constants, variables and calls of a
parsed tree are its numbers, names and functions, one for one and in their order. Of the
operators as many are left as were written: a minus is a negative term of a sum, a slash a
negative term of a product, a star a term of a product that is positive and not its first,
and a caret is a power. Only pluses of sums and brackets leave nothing behind.
-/

namespace Reckoner

namespace Token

def isOperand (t : Token) : Bool := t.kind ∈ [.number, .name, .function]

end Token

namespace Expr

def MadeBy (node : Expr) (t : Token) : Prop :=
  match node with
  | const _ v => t.kind = .number ∧ Reading.number? t.lexeme = some v
  | var _ n => t.kind = .name ∧ t.lexeme = n
  | call _ (.builtin f) _ => t.kind = .function ∧ Builtin.ofName? t.lexeme = some f
  | _ => False

def termSigns (family : Family) : Expr → List Sign
  | chain _ f _ first rest => if f = family then (first :: rest).map Prod.fst else []
  | _ => []

def isPower : Expr → Bool
  | power _ _ _ => true
  | _ => false

end Expr

/-- The tree has the operands and the operators of the tokens. -/
structure Accounts (tokens : List Token) (tree : Expr) : Prop where
  operands : List.Forall₂ Expr.MadeBy (tree.preorder.filter Expr.isOperand)
    (tokens.filter Token.isOperand)
  subtracted : (tree.preorder.flatMap (Expr.termSigns .sum)).count .minus =
    (tokens.map Token.kind).count .minus
  divided : (tree.preorder.flatMap (Expr.termSigns .product)).count .minus =
    (tokens.map Token.kind).count .slash
  multiplied : (tree.preorder.flatMap fun e => (e.termSigns .product).tail).count .plus =
    (tokens.map Token.kind).count .star
  raised : tree.preorder.countP Expr.isPower = (tokens.map Token.kind).count .caret
  names : FirstAppearances tree.names (tokens.filterMap Token.name?)

/-- What is counted alike node by node is counted alike in the whole. -/
theorem count_flatMap_congr {α β γ : Type} [BEq β] [BEq γ] {l : List α} {f : α → List β}
    {g : α → List γ} {b : β} {c : γ} (h : ∀ a ∈ l, (f a).count b = (g a).count c) :
    (l.flatMap f).count b = (l.flatMap g).count c := by
  induction l with
  | nil => rfl
  | cons a l ih =>
    obtain ⟨ha, hl⟩ := List.forall_mem_cons.mp h
    rw [List.flatMap_cons, List.flatMap_cons, List.count_append, List.count_append, ha, ih hl]

theorem count_flatMap_eq_count_map {α β γ : Type} [BEq β] [BEq γ] {l : List α} {f : α → List β}
    {g : α → γ} {b : β} {c : γ} (h : ∀ a ∈ l, (f a).count b = [g a].count c) :
    (l.flatMap f).count b = (l.map g).count c := by
  rw [List.map_eq_flatMap]
  exact count_flatMap_congr h

def TokenKind.isKept (kind : TokenKind) : Bool := kind ∈ [.minus, .star, .slash, .caret]

theorem Spells.count_operators {tokens : List Token} {word : List Symbol}
    (h : Spells tokens word) {kind : TokenKind} (hkept : kind.isKept) :
    (word.flatMap Symbol.operators).count kind = (tokens.map Token.kind).count kind := by
  rw [h.map_kind]
  refine count_flatMap_eq_count_map fun symbol _ => ?_
  cases symbol with
  | operator family sign =>
    cases family <;> cases sign <;> cases kind <;>
      first | rfl | simp [TokenKind.isKept] at hkept
  | caret | openBracket | closeBracket | function | number | name =>
    cases kind <;> first | rfl | simp [TokenKind.isKept] at hkept

theorem count_of_ended {tokens : List Token} (h : Parser.Ended tokens) {kind : TokenKind}
    (hkept : kind.isKept) : (tokens.map Token.kind).count kind = 0 := by
  rw [List.count_eq_zero]
  intro hmem
  obtain ⟨t, ht, rfl⟩ := List.mem_map.mp hmem
  simp [h t ht, TokenKind.isKept] at hkept

namespace Expr

theorem notMem_operators_chain {family : Family} {kind : TokenKind}
    (h : ∀ s, kind ∉ family.operators s) (l : Label) (o : Sign) (first : Sign × Expr)
    (rest : List (Sign × Expr)) : kind ∉ (chain l family o first rest).operators := by
  have hfirst : kind ∉ firstOperators family first.1 := by
    cases first.1
    · exact List.not_mem_nil
    · exact h .minus
  simp [operators, hfirst, h]

/-- A negative term of a chain is told by its operator. -/
theorem count_operators_minus (e : Expr) (family : Family) :
    e.operators.count (Symbol.operator family .minus).kind =
      (e.termSigns family).count .minus := by
  cases e with
  | chain l f o first rest =>
    by_cases hf : f = family
    · subst hf
      have hfirst : (firstOperators f first.1).count (Symbol.operator f .minus).kind =
          [first.1].count .minus := by
        cases f <;> cases first.1 <;> rfl
      have hterm (s : Sign) : (f.operators s).count (Symbol.operator f .minus).kind =
          [s].count .minus := by
        cases f <;> cases s <;> rfl
      rw [operators, List.count_append, hfirst,
        count_flatMap_eq_count_map fun t _ => hterm t.1, termSigns, if_pos rfl]
      exact List.count_append.symm
    · have hother (s : Sign) : (Symbol.operator family .minus).kind ∉ f.operators s := by
        cases f <;> cases family <;> cases s <;> first | decide | exact absurd rfl hf
      rw [termSigns, if_neg hf, List.count_nil, List.count_eq_zero]
      exact notMem_operators_chain hother l o first rest
  | const | var | power | call => cases family <;> rfl

/-- A star is a later positive term of a product. -/
theorem count_operators_star (e : Expr) :
    e.operators.count .star = (e.termSigns .product).tail.count .plus := by
  cases e with
  | chain l f o first rest =>
    cases f with
    | sum =>
      have hother (s : Sign) : TokenKind.star ∉ Family.sum.operators s := by
        cases s <;> decide
      exact List.count_eq_zero.mpr (notMem_operators_chain hother l o first rest)
    | product =>
      have hfirst : (firstOperators .product first.1).count .star = 0 := by
        cases first.1 <;> rfl
      have hterm (s : Sign) : (Family.product.operators s).count .star = [s].count .plus := by
        cases s <;> rfl
      rw [operators, List.count_append, hfirst, Nat.zero_add]
      exact count_flatMap_eq_count_map fun t _ => hterm t.1
  | const | var | power | call => rfl

theorem count_operators_caret (e : Expr) : e.operators.count .caret = [e.isPower].count true := by
  cases e with
  | chain l f o first rest =>
    have hother (s : Sign) : TokenKind.caret ∉ f.operators s := by
      cases f <;> cases s <;> decide
    exact List.count_eq_zero.mpr (notMem_operators_chain hother l o first rest)
  | const | var | power | call => rfl

end Expr

theorem Token.isOperand_eq {t : Token} {symbol : Symbol} (h : t.symbol? = some symbol) :
    t.isOperand = symbol.isOperand := by
  rw [Token.isOperand, (Token.kind_of_symbol? h).1]
  cases symbol with
  | operator family sign => cases family <;> cases sign <;> rfl
  | caret | openBracket | closeBracket | function | number | name => rfl

theorem Spells.filter_isOperand {tokens : List Token} {word : List Symbol}
    (h : Spells tokens word) :
    Spells (tokens.filter Token.isOperand) (word.filter Symbol.isOperand) := by
  induction word generalizing tokens with
  | nil =>
    obtain rfl := Spells.nil_iff.mp h
    rfl
  | cons symbol word ih =>
    obtain ⟨t, rest, rfl, ht, hrest⟩ := Spells.cons_iff.mp h
    rw [List.filter_cons, List.filter_cons, Token.isOperand_eq ht]
    split
    · exact Spells.cons_iff.mpr ⟨t, _, rfl, ht, ih hrest⟩
    · exact ih hrest

theorem filter_isOperand_of_ended {tokens : List Token} (h : Parser.Ended tokens) :
    tokens.filter Token.isOperand = [] := by
  rw [List.filter_eq_nil_iff]
  intro t ht
  simp [Token.isOperand, h t ht]

namespace Expr

theorem StandsFor.madeBy {node : Expr} {symbol : Symbol} {t : Token}
    (h : node.StandsFor symbol) (ht : t.symbol? = some symbol) : node.MadeBy t := by
  have hkind := (Token.kind_of_symbol? ht).1
  cases h with
  | const | var | call => exact ⟨hkind, by simpa [Token.symbol?, hkind, Symbol.kind] using ht⟩

theorem forall₂_madeBy {nodes : List Expr} {tokens : List Token} {symbols : List Symbol}
    (hnodes : List.Forall₂ StandsFor nodes symbols) (htokens : Spells tokens symbols) :
    List.Forall₂ MadeBy nodes tokens := by
  induction hnodes generalizing tokens with
  | nil =>
    obtain rfl := Spells.nil_iff.mp htokens
    exact .nil
  | cons hnode _ ih =>
    obtain ⟨t, rest, rfl, ht, hrest⟩ := Spells.cons_iff.mp htokens
    exact .cons (hnode.madeBy ht) (ih hrest)

end Expr

/-- A token list with a tree has its operands and operators kept in the tree. -/
theorem Parser.accounts_of_parse {label : Label} {tokens : List Token} {tree : Expr}
    (h : Parser.parse label tokens = .ok tree) : Accounts tokens tree := by
  have hnames := Rooted.firstAppearances_names (Rooted.ofTokens_eq_ok.mpr ⟨tree, h, rfl⟩)
  obtain ⟨p, before, ends, rfl, hword, hends, rfl⟩ := Parser.exists_phrase_of_parse h
  have hoperands : (before ++ ends).filter Token.isOperand = before.filter Token.isOperand := by
    rw [List.filter_append, filter_isOperand_of_ended hends, List.append_nil]
  have hcount {kind : TokenKind} (hkept : kind.isKept) :
      (p.tree label).allOperators.count kind = ((before ++ ends).map Token.kind).count kind := by
    rw [(p.perm_allOperators label).count_eq, hword.count_operators hkept, List.map_append,
      List.count_append, count_of_ended hends hkept, Nat.add_zero]
  have hminus (family : Family) :
      ((p.tree label).preorder.flatMap (Expr.termSigns family)).count .minus =
        (p.tree label).allOperators.count (Symbol.operator family .minus).kind :=
    count_flatMap_congr fun e _ => (e.count_operators_minus family).symm
  have hstar : ((p.tree label).preorder.flatMap fun e => (e.termSigns .product).tail).count .plus =
      (p.tree label).allOperators.count .star :=
    count_flatMap_congr fun e _ => e.count_operators_star.symm
  have hcaret : (p.tree label).preorder.countP Expr.isPower =
      (p.tree label).allOperators.count .caret := by
    rw [Expr.allOperators, count_flatMap_eq_count_map fun e _ => e.count_operators_caret,
      List.count, List.countP_map]
    simp [Function.comp_def]
  exact {
    operands := hoperands ▸ Expr.forall₂_madeBy (p.forall₂_operands label) hword.filter_isOperand
    subtracted := (hminus .sum).trans (hcount rfl)
    divided := (hminus .product).trans (hcount rfl)
    multiplied := hstar.trans (hcount rfl)
    raised := hcaret.trans (hcount rfl)
    names := hnames }

/-- In `-(a*2-b)^-sin b/3*a` the chain in brackets, the exponent and the whole are negated
or subtracted from. -/
theorem Parser.accounts_of_parse_signs :
    ∃ tree, Parser.parse 0 [⟨.minus, "-", 0⟩, ⟨.openBracket, "(", 1⟩, ⟨.name, "a", 2⟩,
        ⟨.star, "*", 3⟩, ⟨.number, "2", 4⟩, ⟨.minus, "-", 5⟩, ⟨.name, "b", 6⟩,
        ⟨.closeBracket, ")", 7⟩, ⟨.caret, "^", 8⟩, ⟨.minus, "-", 9⟩, ⟨.function, "sin", 10⟩,
        ⟨.name, "b", 14⟩, ⟨.slash, "/", 15⟩, ⟨.number, "3", 16⟩, ⟨.star, "*", 17⟩,
        ⟨.name, "a", 18⟩] = .ok tree ∧
      (tree.preorder.filter Expr.isOperand).length = 7 ∧
      (tree.preorder.flatMap (Expr.termSigns .sum)).count .minus = 3 := by
  obtain ⟨tree, htree⟩ : ∃ tree, Parser.parse 0 [⟨.minus, "-", 0⟩, ⟨.openBracket, "(", 1⟩,
      ⟨.name, "a", 2⟩, ⟨.star, "*", 3⟩, ⟨.number, "2", 4⟩, ⟨.minus, "-", 5⟩, ⟨.name, "b", 6⟩,
      ⟨.closeBracket, ")", 7⟩, ⟨.caret, "^", 8⟩, ⟨.minus, "-", 9⟩, ⟨.function, "sin", 10⟩,
      ⟨.name, "b", 14⟩, ⟨.slash, "/", 15⟩, ⟨.number, "3", 16⟩, ⟨.star, "*", 17⟩,
      ⟨.name, "a", 18⟩] = .ok tree := ⟨_, rfl⟩
  have haccounts := Parser.accounts_of_parse htree
  exact ⟨tree, htree, haccounts.operands.length_eq, haccounts.subtracted⟩

end Reckoner
