import Reckoner.Proofs.Grammar.Brackets
import Reckoner.Proofs.Grammar.Productions

/-!
Pairs of brackets in a list of tokens, and which of them the grammar can do without. A
factor operator takes an operand with a sign, so a minus and a factor behind it need no
brackets, as long as no caret comes next.
-/

namespace Reckoner

/-- The lists before, between and behind the two brackets of a pair. -/
def Paired (tokens before inside after : List Token) : Prop :=
  ∃ opening closing, tokens = before ++ opening :: (inside ++ closing :: after) ∧
    opening.kind = .openBracket ∧ Balanced inside ∧ closing.kind = .closeBracket

/-- The end of input is behind the pair. -/
theorem Paired.exists_of_end {word before inside after : List Token} {t : Token}
    (h : Paired (word ++ [t]) before inside after) (ht : t.kind = .finish) :
    ∃ rest, after = rest ++ [t] ∧ Paired word before inside rest := by
  obtain ⟨opening, closing, heq, hopening, hinside, hclosing⟩ := h
  rcases List.eq_nil_or_concat after with rfl | ⟨rest, last, rfl⟩
  · have hlast : word ++ [t] = (before ++ opening :: inside) ++ [closing] := by simp [heq]
    obtain ⟨-, hend⟩ := List.append_inj' hlast rfl
    obtain rfl := List.singleton_inj.mp hend
    exact absurd (ht.symm.trans hclosing) (by decide)
  · have hlast : word ++ [t] =
        (before ++ opening :: (inside ++ closing :: rest)) ++ [last] := by simp [heq]
    obtain ⟨rfl, hend⟩ := List.append_inj' hlast rfl
    obtain rfl := List.singleton_inj.mp hend
    exact ⟨rest, List.concat_eq_append .., opening, closing, rfl, hopening, hinside, hclosing⟩

/-- Between the brackets are a minus and a factor, before them is a factor operator, and behind
them is no caret. -/
structure Dispensable (before inside after : List Token) : Prop where
  operator : ∃ t ∈ before.getLast?, t.kind = .star ∨ t.kind = .slash ∨ t.kind = .caret
  operand : ∃ t rest, inside = t :: rest ∧ t.kind = .minus ∧
    Derives .factor (rest.map Token.kind)
  next : ∀ t ∈ after.head?, t.kind ≠ .caret

/-- Ends of input are no carets. -/
theorem Dispensable.append_ends_iff {before inside after ends : List Token}
    (hends : Parser.Ended ends) :
    Dispensable before inside (after ++ ends) ↔ Dispensable before inside after := by
  have hnext : (∀ t ∈ (after ++ ends).head?, t.kind ≠ .caret) ↔
      ∀ t ∈ after.head?, t.kind ≠ .caret := by
    cases after with
    | cons t after => rfl
    | nil =>
      refine ⟨fun _ => by simp, fun _ t ht hcaret => ?_⟩
      have hfinish := hends t (List.mem_of_mem_head? ht)
      exact absurd (hfinish.symm.trans hcaret) (by decide)
  exact ⟨fun h => ⟨h.operator, h.operand, hnext.mp h.next⟩,
    fun h => ⟨h.operator, h.operand, hnext.mpr h.next⟩⟩

namespace Token

variable {t : Token}

theorem symbol?_openBracket (h : t.kind = .openBracket) : t.symbol? = some .openBracket := by
  simp [symbol?, h]

theorem symbol?_closeBracket (h : t.kind = .closeBracket) : t.symbol? = some .closeBracket := by
  simp [symbol?, h]

theorem symbol?_minus (h : t.kind = .minus) : t.symbol? = some (.operator .sum .minus) := by
  simp [symbol?, h]

end Token

theorem Balanced.cons_of_symbol? {t : Token} {symbol : Symbol} {rest : List Token}
    (h : t.symbol? = some symbol) (hopening : symbol ≠ .openBracket)
    (hclosing : symbol ≠ .closeBracket) (hrest : Balanced rest) : Balanced (t :: rest) := by
  refine .other (fun hkind => hopening ?_) (fun hkind => hclosing ?_) hrest
  · exact Option.some.inj (h.symm.trans (Token.symbol?_openBracket hkind))
  · exact Option.some.inj (h.symm.trans (Token.symbol?_closeBracket hkind))

namespace Phrase

theorem balanced_signWord {sign : Option Sign} {tokens : List Token}
    (h : Spells tokens (signWord sign)) : Balanced tokens := by
  cases sign with
  | none =>
    obtain rfl := Spells.nil_iff.mp h
    exact .nil
  | some sign =>
    obtain ⟨t, rest, rfl, ht, hrest⟩ := Spells.cons_iff.mp h
    obtain rfl := Spells.nil_iff.mp hrest
    exact .cons_of_symbol? ht (by simp) (by simp) .nil

/-- The operand of a factor operator, with the operator. -/
theorem balanced_operand {a : Symbol} (hopening : a ≠ .openBracket)
    (hclosing : a ≠ .closeBracket) {sign : Option Sign} {f : Phrase .power}
    (ih : ∀ {tokens}, Spells tokens f.word → Balanced tokens) {tokens : List Token}
    (h : Spells tokens (a :: (signWord sign ++ f.word))) : Balanced tokens := by
  obtain ⟨t, rest, rfl, ht, hrest⟩ := Spells.cons_iff.mp h
  obtain ⟨signs, last, rfl, hsign, hlast⟩ := Spells.append_iff.mp hrest
  exact .cons_of_symbol? ht hopening hclosing ((balanced_signWord hsign).append (ih hlast))

/-- In the tokens of a phrase every bracket has its partner. -/
theorem balanced {level : Level} (p : Phrase level) {tokens : List Token}
    (h : Spells tokens p.word) : Balanced tokens := by
  induction p generalizing tokens with
  | signed sign t ih =>
    obtain ⟨signs, rest, rfl, hsign, hrest⟩ := Spells.append_iff.mp h
    exact (balanced_signWord hsign).append (ih hrest)
  | sum p sign t ihp iht =>
    obtain ⟨soFar, rest, rfl, hp, hrest⟩ := Spells.append_iff.mp h
    obtain ⟨t, last, rfl, ht, hlast⟩ := Spells.cons_iff.mp hrest
    exact (ihp hp).append (.cons_of_symbol? ht (by simp) (by simp) (iht hlast))
  | factor f ih => exact ih h
  | product p sign factorSign f ihp ihf =>
    obtain ⟨soFar, rest, rfl, hp, hrest⟩ := Spells.append_iff.mp h
    exact (ihp hp).append (balanced_operand (by simp) (by simp) ihf hrest)
  | argument a ih => exact ih h
  | power b exponentSign e ihb ihe =>
    obtain ⟨base, rest, rfl, hb, hrest⟩ := Spells.append_iff.mp h
    exact (ihb hb).append (balanced_operand (by simp) (by simp) ihe hrest)
  | call function a ih =>
    obtain ⟨t, rest, rfl, ht, hrest⟩ := Spells.cons_iff.mp h
    exact .cons_of_symbol? ht (by simp) (by simp) (ih hrest)
  | bracketed e ih =>
    obtain ⟨opening, rest, rfl, hopening, hrest⟩ := Spells.cons_iff.mp h
    obtain ⟨inside, last, rfl, hinside, hlast⟩ := Spells.append_iff.mp hrest
    obtain ⟨closing, none, rfl, hclosing, hnone⟩ := Spells.cons_iff.mp hlast
    obtain rfl := Spells.nil_iff.mp hnone
    exact .pair (Token.kind_of_symbol? hopening).1 (ih hinside)
      (Token.kind_of_symbol? hclosing).1 .nil
  | number v | name n =>
    obtain ⟨t, rest, rfl, ht, hrest⟩ := Spells.cons_iff.mp h
    obtain rfl := Spells.nil_iff.mp hrest
    exact .cons_of_symbol? ht (by simp) (by simp) .nil

end Phrase

namespace Spells

variable {tokens : List Token} {word word' : List Symbol}

/-- Tokens spell one word. -/
theorem unique (h : Spells tokens word) (h' : Spells tokens word') : word = word' :=
  (List.map_inj_right fun _ _ => Option.some.inj).mp (h.symm.trans h')

theorem exists_last {first : List Symbol} {a : Symbol} (h : Spells tokens (first ++ [a])) :
    ∃ start t, tokens = start ++ [t] ∧ t.symbol? = some a := by
  obtain ⟨start, last, rfl, -, hlast⟩ := append_iff.mp h
  obtain ⟨t, none, rfl, ht, hnone⟩ := cons_iff.mp hlast
  obtain rfl := nil_iff.mp hnone
  exact ⟨start, t, rfl, ht⟩

/-- The tokens around and between brackets spell what stands around and between these. -/
theorem exists_of_brackets {before inside after : List Token} {opening closing : Token}
    (h : Spells (before ++ opening :: (inside ++ closing :: after)) word)
    (hopening : opening.kind = .openBracket) (hclosing : closing.kind = .closeBracket) :
    ∃ u v w, Spells before u ∧ Spells inside v ∧ Spells after w ∧
      word = u ++ .openBracket :: (v ++ .closeBracket :: w) := by
  have hreadable := (exists_spells_iff _).mp ⟨word, h⟩
  obtain ⟨u, hu⟩ := (exists_spells_iff before).mpr fun t ht => hreadable t (by simp [ht])
  obtain ⟨v, hv⟩ := (exists_spells_iff inside).mpr fun t ht => hreadable t (by simp [ht])
  obtain ⟨w, hw⟩ := (exists_spells_iff after).mpr fun t ht => hreadable t (by simp [ht])
  have hclose : Spells (closing :: after) (.closeBracket :: w) :=
    cons_iff.mpr ⟨closing, after, rfl, Token.symbol?_closeBracket hclosing, hw⟩
  have hopen : Spells (opening :: (inside ++ closing :: after))
      (.openBracket :: (v ++ .closeBracket :: w)) :=
    cons_iff.mpr ⟨opening, _, rfl, Token.symbol?_openBracket hopening, hv.append hclose⟩
  exact ⟨u, v, w, hu, hv, hw, h.unique (hu.append hopen)⟩

end Spells

/-- Tokens before the ends of an accepted list are those of its phrase. -/
theorem Parser.exists_phrase_before_ends {label : Label} {word ends : List Token} {tree : Expr}
    (h : parse label (word ++ ends) = .ok tree) (hword : ∀ t ∈ word, t.kind ≠ .finish)
    (hends : Ended ends) : ∃ q : Phrase .sum, Spells word q.word ∧ q.tree label = tree := by
  have hnone : Ended [] := by simp [Ended]
  have hparse := parse_ends h hends hnone
  rw [List.append_nil] at hparse
  obtain ⟨q, before, rest, rfl, hbefore, hrest, htree⟩ := exists_phrase_of_parse hparse
  cases rest with
  | nil => exact ⟨q, by rwa [List.append_nil], htree⟩
  | cons t rest => exact absurd (hrest t (by simp)) (hword t (by simp))

end Reckoner
