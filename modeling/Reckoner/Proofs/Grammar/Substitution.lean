import Reckoner.Proofs.Grammar.Productions
import Reckoner.Proofs.Grammar.Value

/-!
Putting an expression in brackets in the place of a name. The name may be the head of a
chain, stand under a sign or be an argument, a base or an exponent; a phrase has a place
for the brackets wherever it has one for the name, so the tokens stay readable. The
brackets may be gone on in place by the operators that follow, and then the tree has
another shape than the one it had with the name. Values know nothing of this: the phrase
with the brackets is worth what the phrase with the name is worth when the name has the
value of the expression.
-/

namespace Reckoner

/-- The tokens with others in the place of every token of a name. -/
def substitute (x : String) (replacement tokens : List Token) : List Token :=
  tokens.flatMap fun t => if t.kind = .name ∧ t.lexeme = x then replacement else [t]

namespace Symbol

def replaceName (x : String) (replacement : List Symbol) : Symbol → List Symbol
  | name n => if n = x then replacement else [name n]
  | symbol => [symbol]

end Symbol

section Substitute

variable {x : String} {replacement tokens : List Token} {inner word : List Symbol}

theorem substitute_append (x : String) (replacement first last : List Token) :
    substitute x replacement (first ++ last) =
      substitute x replacement first ++ substitute x replacement last :=
  List.flatMap_append

theorem substitute_of_ended (h : Parser.Ended tokens) :
    substitute x replacement tokens = tokens := by
  induction tokens with
  | nil => rfl
  | cons t rest ih =>
    obtain ⟨ht, hrest⟩ := List.forall_mem_cons.mp h
    have hkept : ¬(t.kind = .name ∧ t.lexeme = x) := by simp [ht]
    have htail := ih hrest
    rw [substitute] at htail ⊢
    rw [List.flatMap_cons, if_neg hkept, htail]
    rfl

/-- Tokens and symbols are replaced alike. -/
theorem Spells.replace {t : Token} {symbol : Symbol} (ht : t.symbol? = some symbol)
    (hinner : Spells replacement inner) :
    Spells (if t.kind = .name ∧ t.lexeme = x then replacement else [t])
      (symbol.replaceName x inner) := by
  have hkind := (Token.kind_of_symbol? ht).1
  have hkept : Spells [t] [symbol] := Spells.cons_iff.mpr ⟨t, [], rfl, ht, rfl⟩
  cases symbol with
  | name n =>
    obtain rfl : t.lexeme = n := by simpa [Token.symbol?, hkind, Symbol.kind] using ht
    by_cases hx : t.lexeme = x
    · rwa [if_pos ⟨hkind, hx⟩, Symbol.replaceName, if_pos hx]
    · rwa [if_neg fun h => hx h.2, Symbol.replaceName, if_neg hx]
  | operator family sign =>
    cases family <;> cases sign <;> rwa [if_neg (by simp [hkind, Symbol.kind])]
  | caret | openBracket | closeBracket | function | number =>
    rwa [if_neg (by simp [hkind, Symbol.kind])]

theorem Spells.substitute (h : Spells tokens word) (hinner : Spells replacement inner) :
    Spells (Reckoner.substitute x replacement tokens)
      (word.flatMap (Symbol.replaceName x inner)) := by
  induction word generalizing tokens with
  | nil =>
    obtain rfl := Spells.nil_iff.mp h
    rfl
  | cons symbol word ih =>
    obtain ⟨t, rest, rfl, ht, hrest⟩ := Spells.cons_iff.mp h
    exact (Spells.replace ht hinner).append (ih hrest)

end Substitute

namespace Phrase

def subst (x : String) (q : Phrase .sum) : {level : Level} → Phrase level → Phrase level
  | _, signed sign t => signed sign (subst x q t)
  | _, sum p sign t => sum (subst x q p) sign (subst x q t)
  | _, factor f => factor (subst x q f)
  | _, product p sign factorSign f => product (subst x q p) sign factorSign (subst x q f)
  | _, argument a => argument (subst x q a)
  | _, power b exponentSign e => power (subst x q b) exponentSign (subst x q e)
  | _, call function a => call function (subst x q a)
  | _, bracketed e => bracketed (subst x q e)
  | _, number v => number v
  | _, name n => if n = x then bracketed q else name n

theorem replaceName_signWord (x : String) (inner : List Symbol) (sign : Option Sign) :
    (signWord sign).flatMap (Symbol.replaceName x inner) = signWord sign := by
  cases sign <;> rfl

/-- The word of the phrase changes as its tokens do. -/
theorem word_subst (x : String) (q : Phrase .sum) {level : Level} (p : Phrase level) :
    (subst x q p).word = p.word.flatMap (Symbol.replaceName x (bracketed q).word) := by
  induction p with
  | signed sign t ih => simp only [subst, word, List.flatMap_append, replaceName_signWord, ih]
  | sum p sign t ihp iht =>
    simp only [subst, word, List.flatMap_append, List.flatMap_cons, ihp, iht]
    rfl
  | product p sign factorSign f ihp ihf =>
    simp only [subst, word, List.flatMap_append, List.flatMap_cons, replaceName_signWord, ihp, ihf]
    rfl
  | power b exponentSign e ihb ihe =>
    simp only [subst, word, List.flatMap_append, List.flatMap_cons, replaceName_signWord, ihb, ihe]
    rfl
  | factor f ih => exact ih
  | argument a ih => exact ih
  | call function a ih =>
    simp only [subst, word, List.flatMap_cons, ih]
    rfl
  | bracketed e ih =>
    simp only [subst, word, List.flatMap_append, List.flatMap_cons, ih]
    rfl
  | number v => rfl
  | name n =>
    by_cases hn : n = x
    · simp [subst, word, Symbol.replaceName, hn]
    · simp [subst, word, Symbol.replaceName, hn]

/-- The phrase is worth what it was when the name has the value of what replaces it. -/
theorem value_subst (x : String) (q : Phrase .sum) (env : String → Float) {level : Level}
    (p : Phrase level) :
    (subst x q p).value env = p.value (Function.update env x (q.value env)) := by
  induction p with
  | signed sign t ih => rw [subst, value, value, ih]
  | sum p sign t ihp iht => cases sign <;> rw [subst, value, value, ihp, iht]
  | factor f ih => exact ih
  | product p sign factorSign f ihp ihf => cases sign <;> rw [subst, value, value, ihp, ihf]
  | argument a ih => exact ih
  | power b exponentSign e ihb ihe => rw [subst, value, value, ihb, ihe]
  | call function a ih => rw [subst, value, value, ih]
  | bracketed e ih => exact ih
  | number v => rfl
  | name n =>
    by_cases hn : n = x
    · subst hn
      rw [subst, if_pos rfl, value, value, Function.update_self]
    · rw [subst, if_neg hn, value, value, Function.update_of_ne hn]

end Phrase

namespace Phrase

/-- Tokens that read as a phrase are built into a tree that is worth what the phrase is worth. -/
theorem Reads.exists_ofTokens {p : Phrase .sum} {tokens : List Token} (h : p.Reads tokens)
    (label : Label) : ∃ r, Rooted.ofTokens label tokens = .ok r ∧ ∀ bindings : Bindings,
      r.root.evaluate (r.root.bindAll bindings r.store).2 =
        .ok (p.value fun n => bindings.getD n 0.0) := by
  obtain ⟨word, ends, rfl, hword, hends⟩ := h
  have hparse : Parser.parse label (word ++ ends) = .ok (p.tree label) :=
    Parser.parse_phrase p hword hends
  refine ⟨_, Rooted.ofTokens_eq_ok.mpr ⟨_, hparse, rfl⟩, fun bindings => ?_⟩
  have hconsistent := Expr.Consistent.of_nodup (p.distinct_tree label)
  have hagrees := Expr.agrees_bindAll hconsistent bindings fun l _ _ _ => Store.get_empty l
  rw [Expr.evaluate_eq_fold]
  exact p.fold_tree hagrees

/-- Without an end of the input among them, the tokens are those of the phrase and no more. -/
theorem Reads.spells {p : Phrase .sum} {tokens : List Token} (h : p.Reads tokens)
    (hends : ∀ t ∈ tokens, t.kind ≠ .finish) : Spells tokens p.word := by
  obtain ⟨word, ends, rfl, hword, hended⟩ := h
  obtain rfl : ends = [] := by
    refine List.eq_nil_iff_forall_not_mem.mpr fun t ht => ?_
    exact hends t (List.mem_append_right _ ht) (hended t ht)
  rwa [List.append_nil]

theorem Reads.substitute {p q : Phrase .sum} {tokens inner : List Token} (hp : p.Reads tokens)
    (hq : Spells inner q.word) (x : String) {opening closing : Token}
    (hopening : opening.symbol? = some .openBracket)
    (hclosing : closing.symbol? = some .closeBracket) :
    (subst x q p).Reads (Reckoner.substitute x (opening :: (inner ++ [closing])) tokens) := by
  obtain ⟨word, ends, rfl, hword, hends⟩ := hp
  have hlast : Spells [closing] [.closeBracket] :=
    Spells.cons_iff.mpr ⟨closing, [], rfl, hclosing, rfl⟩
  have hbracketed : Spells (opening :: (inner ++ [closing])) (bracketed q).word :=
    Spells.cons_iff.mpr ⟨opening, _, rfl, hopening, hq.append hlast⟩
  have hsubst := hword.substitute (x := x) hbracketed
  rw [← word_subst] at hsubst
  refine ⟨_, ends, ?_, hsubst, hends⟩
  rw [substitute_append, substitute_of_ended hends]

end Phrase

theorem Rooted.exists_reads {label : Label} {tokens : List Token} {r : Rooted}
    (h : Rooted.ofTokens label tokens = .ok r) : ∃ p : Phrase .sum, p.Reads tokens := by
  obtain ⟨tree, hparse, -⟩ := Rooted.ofTokens_eq_ok.mp h
  obtain ⟨p, word, ends, heq, hword, hends, -⟩ := Parser.exists_phrase_of_parse hparse
  exact ⟨p, word, ends, heq, hword, hends⟩

theorem Bindings.getD_insert (bindings : Bindings) (x : String) (v : Float) :
    (fun n => (bindings.insert x v).getD n 0.0) =
      Function.update (fun n => bindings.getD n 0.0) x v := by
  funext n
  simp only [Std.TreeMap.getD_insert, Std.LawfulEqCmp.compare_eq_iff_eq, Function.update_apply,
    @eq_comm _ n x]

/-- A token list with an expression in brackets in the place of every token of a name is read,
and it is worth what the list is worth when the name has the value of the expression. -/
theorem evaluate_substitute {label label' : Label} {tokens inner : List Token} {r q : Rooted}
    (hr : Rooted.ofTokens label tokens = .ok r) (hq : Rooted.ofTokens label' inner = .ok q)
    (hinner : ∀ t ∈ inner, t.kind ≠ .finish) (x : String) {opening closing : Token}
    (hopening : opening.kind = .openBracket) (hclosing : closing.kind = .closeBracket)
    (label'' : Label) :
    ∃ s, Rooted.ofTokens label'' (substitute x (opening :: (inner ++ [closing])) tokens) = .ok s ∧
      ∀ bindings : Bindings, ∃ v w,
        q.root.evaluate (q.root.bindAll bindings q.store).2 = .ok v ∧
        r.root.evaluate (r.root.bindAll (bindings.insert x v) r.store).2 = .ok w ∧
        s.root.evaluate (s.root.bindAll bindings s.store).2 = .ok w := by
  obtain ⟨p, hp⟩ := Rooted.exists_reads hr
  obtain ⟨p', hp'⟩ := Rooted.exists_reads hq
  have hword : Spells inner p'.word := hp'.spells hinner
  have hopening : opening.symbol? = some .openBracket := by simp [Token.symbol?, hopening]
  have hclosing : closing.symbol? = some .closeBracket := by simp [Token.symbol?, hclosing]
  have hsubst := hp.substitute hword x hopening hclosing
  obtain ⟨r', hr', hvalue⟩ := hp.exists_ofTokens label
  obtain rfl := Except.ok.inj (hr.symm.trans hr')
  obtain ⟨q', hq', hvalue'⟩ := hp'.exists_ofTokens label'
  obtain rfl := Except.ok.inj (hq.symm.trans hq')
  obtain ⟨s, hs, hsvalue⟩ := hsubst.exists_ofTokens label''
  refine ⟨s, hs, fun bindings => ⟨_, _, hvalue' bindings, hvalue _, ?_⟩⟩
  rw [hsvalue, Phrase.value_subst, Bindings.getD_insert]

/-- In `x + y - x` the difference `y - 2` replaces `x`. With `y` worth one, both are one: the
brackets at the head are gone on in place, the others stay a term. -/
theorem evaluate_substitute_head :
    ∃ s, Rooted.ofTokens 0 [⟨.openBracket, "(", 0⟩, ⟨.name, "y", 0⟩, ⟨.minus, "-", 1⟩,
        ⟨.number, "2", 2⟩, ⟨.closeBracket, ")", 0⟩, ⟨.plus, "+", 1⟩, ⟨.name, "y", 2⟩,
        ⟨.minus, "-", 3⟩, ⟨.openBracket, "(", 0⟩, ⟨.name, "y", 0⟩, ⟨.minus, "-", 1⟩,
        ⟨.number, "2", 2⟩, ⟨.closeBracket, ")", 0⟩] = .ok s ∧
      s.root.evaluate (s.root.bindAll (Bindings.ofPairs [("y", 1.0)]) s.store).2 = .ok 1.0 := by
  have hr : Rooted.ofTokens 0 [⟨.name, "x", 0⟩, ⟨.plus, "+", 1⟩, ⟨.name, "y", 2⟩,
      ⟨.minus, "-", 3⟩, ⟨.name, "x", 4⟩] = .ok _ := rfl
  have hq : Rooted.ofTokens 0 [⟨.name, "y", 0⟩, ⟨.minus, "-", 1⟩, ⟨.number, "2", 2⟩] = .ok _ := rfl
  have hopening : (⟨.openBracket, "(", 0⟩ : Token).kind = .openBracket := rfl
  have hclosing : (⟨.closeBracket, ")", 0⟩ : Token).kind = .closeBracket := rfl
  obtain ⟨s, hs, hvalue⟩ := evaluate_substitute hr hq (by decide) "x" hopening hclosing 0
  obtain ⟨v, w, hv, hw, hsw⟩ := hvalue (Bindings.ofPairs [("y", 1.0)])
  refine ⟨s, hs, ?_⟩
  rw [hsw]
  obtain rfl : (-1.0 : Float) = v := Except.ok.inj hv
  exact hw.symm

end Reckoner
