import Reckoner.Proofs.Grammar.Pairs
import Reckoner.Proofs.Grammar.SignedOperands
import Reckoner.Proofs.Rendering.Guarding

/-!
Which brackets in the text of a tree can be left out. If the tokens without a pair of brackets
are still read as the tree, they spell a phrase shorter by two than the text. Then the phrase
has one crowded place, guarding it gives the text, and so the pair stands in the one place
where guarding puts brackets.
-/

namespace Reckoner

/-- What guarding encloses in a crowded place: the argument of a function, or a minus and a
factor that no caret follows. -/
inductive Enclosed : Symbol → List Symbol → List Symbol → Prop
  | argument {function b inside after} (h : Symbol.crowds (.function function) b = true) :
      Enclosed (.function function) (b :: inside) after
  | operand {a after} (h : a.crowds (.operator .sum .minus) = true) (f : Phrase .power)
      (hafter : after.head? ≠ some .caret) : Enclosed a (.operator .sum .minus :: f.word) after

inductive Bracketing : List Symbol → List Symbol → Prop
  | intro {a inside after} (before : List Symbol) (h : Enclosed a inside after) :
      Bracketing (before ++ a :: (inside ++ after))
        (before ++ a :: .openBracket :: (inside ++ .closeBracket :: after))

theorem Enclosed.exists_crowded {a : Symbol} {inside after : List Symbol}
    (h : Enclosed a inside after) : ∃ b rest, inside = b :: rest ∧ a.crowds b = true := by
  cases h with
  | argument h => exact ⟨_, _, rfl, h⟩
  | operand h f hafter => exact ⟨_, _, rfl, h⟩

namespace Bracketing

variable {u v : List Symbol}

theorem length_eq (h : Bracketing u v) : v.length = u.length + 2 := by
  obtain ⟨before, -⟩ := h
  simp only [List.length_append, List.length_cons]
  omega

theorem append_left (h : Bracketing u v) (w : List Symbol) : Bracketing (w ++ u) (w ++ v) := by
  obtain ⟨before, henclosed⟩ := h
  rw [← List.append_assoc, ← List.append_assoc]
  exact .intro (w ++ before) henclosed

end Bracketing

/-- In front of the rest, the second word is the first one with one pair of brackets put in a
crowded place, or it is too short for that. -/
def Guards (rest u v : List Symbol) : Prop :=
  v.length < u.length + 2 ∨ Bracketing (u ++ rest) (v ++ rest)

namespace Guards

variable {rest u v w w' : List Symbol}

theorem length_le (h : Guards rest u v) : v.length ≤ u.length + 2 := by
  rcases h with h | h
  · omega
  · have hlength := h.length_eq
    simp only [List.length_append] at hlength
    omega

theorem of_briefer (h : Briefer v u) : Guards rest u v := by
  have hle := h.length_le
  left
  omega

/-- With more text beside both words, the same or less beside the second, the brackets stay where
they are or the second word is still too short. -/
theorem lengthen {rest' u' v' : List Symbol} (h : Guards rest' u v) (hw : Briefer w' w)
    (hu : u'.length = u.length + w.length) (hv : v'.length = v.length + w'.length)
    (hbracketing : w' = w → Bracketing (u ++ rest') (v ++ rest') →
      Bracketing (u' ++ rest) (v' ++ rest)) : Guards rest u' v' := by
  have hle := h.length_le
  rcases hw with rfl | hlt
  · rcases h with h | h
    · left
      omega
    · exact .inr (hbracketing rfl h)
  · left
    omega

theorem append_right (h : Guards (w ++ rest) u v) (hw : Briefer w' w) :
    Guards rest (u ++ w) (v ++ w') := by
  refine h.lengthen hw List.length_append List.length_append fun heq hbracketing => ?_
  rwa [heq, List.append_assoc, List.append_assoc]

theorem append_left (hw : Briefer w' w) (h : Guards rest u v) :
    Guards rest (w ++ u) (w' ++ v) := by
  refine h.lengthen hw (by simp [Nat.add_comm]) (by simp [Nat.add_comm]) fun heq hbracketing => ?_
  rw [heq, List.append_assoc, List.append_assoc]
  exact hbracketing.append_left w

theorem cons (a : Symbol) (h : Guards rest u v) : Guards rest (a :: u) (a :: v) :=
  append_left (.refl [a]) h

/-- What is longer by two is the word with the brackets put in. -/
theorem bracketing (h : Guards rest u v) (hlength : u.length + 2 ≤ v.length) :
    Bracketing (u ++ rest) (v ++ rest) := by
  rcases h with h | h
  · omega
  · exact h

end Guards

namespace Phrase

/-- Behind a function guarding puts brackets unless there are some. -/
theorem word_guard_call (function : Builtin) (a : Phrase .atom) :
    (crowded (call function a).word = crowded a.word ∧
        (call function a).guard.word = .function function :: a.guard.word) ∨
      ∃ b v, a.word = b :: v ∧ Symbol.crowds (.function function) b = true ∧
        (call function a).guard.word =
          .function function :: .openBracket :: (a.guard.word ++ [.closeBracket]) := by
  cases a with
  | bracketed e =>
    left
    exact ⟨(crowded_call_bracketed function e).trans (crowded_bracketed e).symm, rfl⟩
  | call g a => exact .inr ⟨_, _, rfl, rfl, rfl⟩
  | number v => exact .inr ⟨_, _, rfl, rfl, rfl⟩
  | name n => exact .inr ⟨_, _, rfl, rfl, rfl⟩

theorem briefer_guardOperand {a : Symbol} (ha : a.IsFactorOperator) (sign : Option Sign)
    (f : Phrase .power) (h : crowded (a :: (signWord sign ++ f.word)) = 0)
    (ih : crowded f.word = 0 → Briefer f.guard.word f.word) :
    Briefer (a :: (guardOperand sign f.guard).word) (a :: (signWord sign ++ f.word)) := by
  rw [crowded_operand ha] at h
  cases sign with
  | none => exact (ih (by simpa using h)).cons a
  | some sign => exact absurd h (by simp)

/-- Guarding puts no brackets where nothing is crowded. -/
theorem briefer_guard {level : Level} (q : Phrase level) (h : crowded q.word = 0) :
    Briefer q.guard.word q.word := by
  induction q with
  | signed sign t ih =>
    rw [crowded_signed] at h
    have hguard := ih h
    cases sign with
    | none => exact hguard
    | some sign =>
      cases sign with
      | plus => exact .inr (Nat.lt_succ_of_le hguard.length_le)
      | minus => exact hguard.cons _
  | sum p sign t ihp iht =>
    rw [crowded_sum] at h
    obtain ⟨hp, ht⟩ := Nat.add_eq_zero_iff.mp h
    exact (ihp hp).append ((iht ht).cons _)
  | factor f ih => exact ih h
  | product p sign factorSign f ihp ihf =>
    rw [word, crowded_word_append] at h
    obtain ⟨hp, hf⟩ := Nat.add_eq_zero_iff.mp h
    exact (ihp hp).append (briefer_guardOperand (.inr ⟨sign, rfl⟩) factorSign f hf ihf)
  | argument a ih => exact ih h
  | power b exponentSign e ihb ihe =>
    rw [word, crowded_word_append] at h
    obtain ⟨hb, he⟩ := Nat.add_eq_zero_iff.mp h
    exact (ihb hb).append (briefer_guardOperand (.inl rfl) exponentSign e he ihe)
  | call function a ih =>
    rcases word_guard_call function a with ⟨hcrowded, hword⟩ | ⟨b, v, ha, hcrowds, -⟩
    · rw [hcrowded] at h
      rw [hword]
      exact (ih h).cons _
    · rw [word, ha] at h
      exact absurd h (Nat.ne_of_gt (crowded_pos hcrowds [] v))
  | bracketed e ih =>
    rw [crowded_bracketed] at h
    exact (ih h).bracket
  | number | name => exact .refl _

theorem guards_operand {a : Symbol} (ha : a.IsFactorOperator) (sign : Option Sign)
    (f : Phrase .power) (h : crowded (a :: (signWord sign ++ f.word)) ≤ 1)
    {rest : List Symbol} (hrest : rest.head? ≠ some .caret)
    (ih : crowded f.word ≤ 1 → Guards rest f.word f.guard.word) :
    Guards rest (a :: (signWord sign ++ f.word)) (a :: (guardOperand sign f.guard).word) := by
  rw [crowded_operand ha] at h
  cases sign with
  | none => exact (ih (by simpa using h)).cons a
  | some sign =>
    have hbrief : Briefer f.guard.word f.word := f.briefer_guard (by simpa using h)
    have hle := hbrief.length_le
    cases sign with
    | plus =>
      left
      simp only [signWord, guardOperand, List.length_cons, List.singleton_append]
      omega
    | minus =>
      rcases hbrief with heq | hlt
      · right
        have hbracket := Bracketing.intro [] (.operand (ha.crowds_sign .minus) f hrest)
        simpa [guardOperand, word, signWord, heq] using hbracket
      · left
        simp only [guardOperand, word, signWord, List.length_cons, List.length_append,
          List.length_nil]
        omega

theorem guards_factors {level : Level} (p : Phrase level) (f : Phrase .power) {a : Symbol}
    (ha : a.IsFactorOperator) (sign : Option Sign)
    (h : crowded (p.word ++ a :: (signWord sign ++ f.word)) ≤ 1)
    {rest : List Symbol} (hrest : rest.head? ≠ some .caret)
    (ihp : crowded p.word ≤ 1 →
      Guards (a :: (signWord sign ++ f.word) ++ rest) p.word p.guard.word)
    (ihf : crowded f.word ≤ 1 → Guards rest f.word f.guard.word) :
    Guards rest (p.word ++ a :: (signWord sign ++ f.word))
      (p.guard.word ++ a :: (guardOperand sign f.guard).word) := by
  rw [crowded_word_append] at h
  by_cases hf : crowded (a :: (signWord sign ++ f.word)) = 0
  · have hoperand := briefer_guardOperand ha sign f hf f.briefer_guard
    exact (ihp (by omega)).append_right hoperand
  · have hguards := guards_operand ha sign f (by omega) hrest ihf
    exact hguards.append_left (p.briefer_guard (by omega))

theorem guards_call (function : Builtin) (a : Phrase .atom) {b : Symbol} {v : List Symbol}
    (ha : a.word = b :: v) (hcrowds : Symbol.crowds (.function function) b = true)
    (hword : (call function a).guard.word =
      .function function :: .openBracket :: (a.guard.word ++ [.closeBracket]))
    (h : crowded (call function a).word ≤ 1) (rest : List Symbol) :
    Guards rest (call function a).word (call function a).guard.word := by
  have hbrief : Briefer a.guard.word a.word := by
    refine a.briefer_guard ?_
    rw [word, ha, crowded, hcrowds, Bool.toNat_true] at h
    rw [ha]
    omega
  rw [hword]
  rcases hbrief with heq | hlt
  · right
    have henclosed : Enclosed (.function function) (b :: v) rest := .argument hcrowds
    simpa [word, heq, ha] using Bracketing.intro [] henclosed
  · left
    simp only [word, List.length_cons, List.length_append, List.length_nil]
    omega

/-- Where one place is crowded, guarding puts at most one pair of brackets, and puts it
there. Only an argument may have a caret behind it. -/
theorem guards_guard {level : Level} (q : Phrase level) (h : crowded q.word ≤ 1)
    {rest : List Symbol} (hrest : level = .atom ∨ rest.head? ≠ some .caret) :
    Guards rest q.word q.guard.word := by
  induction q generalizing rest with
  | signed sign t ih =>
    rw [crowded_signed] at h
    have hguards := ih h (.inr (hrest.resolve_left (by decide)))
    cases sign with
    | none => exact hguards
    | some sign =>
      cases sign with
      | plus => exact .inl (Nat.lt_succ_of_le hguards.length_le)
      | minus => exact hguards.cons _
  | sum p sign t ihp iht =>
    have hcaret := hrest.resolve_left (by decide)
    rw [crowded_sum] at h
    by_cases ht : crowded t.word = 0
    · have hguards := @ihp (by omega) (.operator .sum sign :: t.word ++ rest) (.inr (by simp))
      exact hguards.append_right ((t.briefer_guard ht).cons _)
    · have hguards := iht (by omega) (.inr hcaret)
      exact (hguards.cons _).append_left (p.briefer_guard (by omega))
  | factor f ih => exact ih h (.inr (hrest.resolve_left (by decide)))
  | product p sign factorSign f ihp ihf =>
    have hcaret := hrest.resolve_left (by decide)
    exact guards_factors p f (.inr ⟨sign, rfl⟩) factorSign h hcaret
      (fun hp => ihp hp (.inr (by simp))) fun hf => ihf hf (.inr hcaret)
  | argument a ih => exact ih h (.inl rfl)
  | power b exponentSign e ihb ihe =>
    have hcaret := hrest.resolve_left (by decide)
    exact guards_factors b e (.inl rfl) exponentSign h hcaret
      (fun hb => ihb hb (.inl rfl)) fun he => ihe he (.inr hcaret)
  | call function a ih =>
    rcases word_guard_call function a with ⟨hcrowded, hword⟩ | ⟨b, v, ha, hcrowds, hword⟩
    · rw [hcrowded] at h
      rw [hword]
      exact (ih h (.inl rfl)).cons _
    · exact guards_call function a ha hcrowds hword h rest
  | bracketed e ih =>
    rw [crowded_bracketed] at h
    have hguards := @ih h (.closeBracket :: rest) (.inr (by simp))
    exact (hguards.append_right (.refl [.closeBracket])).cons _
  | number | name => exact .of_briefer (.refl _)

/-- A text longer by two than a phrase with one crowded place is the phrase with brackets put
in that place. -/
theorem WrittenBriefly.bracketing {q : Phrase .sum} {label : Label} {p : Piece}
    (h : WrittenBriefly q label p) (hcrowded : crowded q.word ≤ 1)
    (hlength : (p.within .sum).word.length = q.word.length + 2) :
    Bracketing q.word (p.within .sum).word := by
  have hguards : Guards [] q.word q.guard.word := q.guards_guard hcrowded (.inr (by simp))
  rcases h.within with heq | hlt
  · have hbracketing := hguards.bracketing (by rw [← heq, hlength])
    rwa [List.append_nil, List.append_nil, ← heq] at hbracketing
  · have hle := hguards.length_le
    omega

end Phrase

section Cut

variable {before inside after : List Symbol}

/-- A pair of brackets taken out of a word without crowded places: what is left on either side
of the opening bracket has none. -/
theorem crowded_of_brackets
    (h : crowded (before ++ .openBracket :: (inside ++ .closeBracket :: after)) = 0) :
    crowded before = 0 ∧ crowded (inside ++ after) = 0 := by
  have hsplit := crowded_append_le before (.openBracket :: (inside ++ .closeBracket :: after))
  rw [crowded_cons fun _ => rfl] at hsplit
  refine ⟨by omega, ?_⟩
  have hrest : crowded (inside ++ .closeBracket :: after) = 0 := by omega
  rcases List.eq_nil_or_concat inside with rfl | ⟨inside, a, rfl⟩
  · rwa [List.nil_append, crowded_cons fun _ => rfl] at hrest
  · rw [List.concat_eq_append, List.append_assoc, List.singleton_append, crowded_append_cons,
      crowded_cons fun _ => rfl] at hrest
    have hclose : a.crowds .closeBracket = false := by
      cases ha : a.crowds .closeBracket with
      | false => rfl
      | true => simp [ha] at hrest
    rw [List.concat_eq_append, crowded_concat_append (Symbol.not_crowds_of_closeBracket hclose)]
    omega

/-- The only crowded place is where the bracket opens. -/
theorem Bracketing.exists_of_append {rest rest' : List Symbol}
    (h : Bracketing (before ++ rest) (before ++ .openBracket :: rest'))
    (hbefore : crowded before = 0) (hrest : crowded rest = 0) :
    ∃ first a inside after, before = first ++ [a] ∧ rest' = inside ++ .closeBracket :: after ∧
      Enclosed a inside after := by
  generalize hu : before ++ rest = u at h
  generalize hv : before ++ .openBracket :: rest' = v at h
  cases h with
  | @intro a inside after first henclosed =>
    obtain ⟨c, inner, rfl, hcrowds⟩ := henclosed.exists_crowded
    have hplace := crowded_pos hcrowds
    rcases List.append_eq_append_iff.mp hu with ⟨more, -, rfl⟩ | ⟨more, rfl, htail⟩
    · exact absurd hrest (hplace more (inner ++ after)).ne'
    · cases more with
      | nil =>
        subst htail
        exact absurd hrest (hplace [] (inner ++ after)).ne'
      | cons b more =>
        obtain ⟨rfl, hmore⟩ := List.cons.inj htail
        cases more with
        | nil =>
          refine ⟨first, a, c :: inner, after, rfl, ?_, henclosed⟩
          simpa using hv
        | cons d more =>
          obtain ⟨rfl, -⟩ := List.cons.inj hmore
          exact absurd hbefore (hplace first more).ne'

end Cut

theorem Symbol.IsFactorOperator.kind {a : Symbol} (h : a.IsFactorOperator) :
    a.kind = .star ∨ a.kind = .slash ∨ a.kind = .caret := by
  rcases h with rfl | ⟨sign, rfl⟩
  · exact .inr (.inr rfl)
  · cases sign with
    | plus => exact .inl rfl
    | minus => exact .inr (.inl rfl)

/-- If a phrase is the text of its tree without a pair of brackets, and no function stands
before these, then they were around a minus and a factor behind a factor operator. -/
theorem Phrase.WrittenBriefly.of_brackets {q : Phrase .sum} {label : Label} {p : Piece}
    (h : WrittenBriefly q label p) {before inside after : List Symbol}
    (hp : (p.within .sum).word = before ++ .openBracket :: (inside ++ .closeBracket :: after))
    (hq : q.word = before ++ (inside ++ after))
    (hfunction : ∀ function first, before ≠ first ++ [.function function]) :
    ∃ first a rest, ∃ f : Phrase .power, before = first ++ [a] ∧ a.IsFactorOperator ∧
      inside ++ .closeBracket :: after =
        .operator .sum .minus :: f.word ++ .closeBracket :: rest ∧
      rest.head? ≠ some .caret := by
  have huncrowded := Piece.crowded_within h.uncrowded .sum
  rw [hp] at huncrowded
  obtain ⟨hbefore, hrest⟩ := crowded_of_brackets huncrowded
  have hcrowded : crowded q.word ≤ 1 := by
    rw [hq]
    have hle := (crowded_append_le before (inside ++ after)).2
    omega
  have hlength : (p.within .sum).word.length = q.word.length + 2 := by
    rw [hp, hq]
    simp only [List.length_append, List.length_cons]
    omega
  have hbracketing := h.bracketing hcrowded hlength
  rw [hp, hq] at hbracketing
  obtain ⟨first, a, enclosed, rest, rfl, hinside, henclosed⟩ :=
    hbracketing.exists_of_append hbefore hrest
  cases henclosed with
  | @argument function => exact absurd rfl (hfunction function first)
  | operand hcrowds f hcaret =>
    have ha := Symbol.isFactorOperator_of_crowds hcrowds fun function ha =>
      hfunction function first (by rw [ha])
    exact ⟨first, a, rest, f, rfl, ha, hinside, hcaret⟩

section Dispensable

variable {before inside after ends : List Token} {opening closing : Token} {label : Label}
  {tree root : Expr} {store : Store} {p : Piece}

/-- The pair is dispensable if its symbols are those of such a pair. -/
theorem dispensable_of_spells {first rest : List Symbol} {a : Symbol} {f : Phrase .power}
    (hbefore : Spells before (first ++ [a])) (ha : a.IsFactorOperator) (hinside : Balanced inside)
    (hclosing : closing.kind = .closeBracket)
    (hbehind : Spells (inside ++ closing :: after)
      (.operator .sum .minus :: f.word ++ .closeBracket :: rest))
    (hcaret : rest.head? ≠ some .caret) : Dispensable before inside after := by
  obtain ⟨start, t, rfl, ht⟩ := hbefore.exists_last
  obtain ⟨operand, last, heq, hoperand, hlast⟩ := Spells.append_iff.mp hbehind
  obtain ⟨closing', after', rfl, hclosing', hafter⟩ := Spells.cons_iff.mp hlast
  -- The pair is closed by the same bracket, as it has only one partner.
  have hbalanced := (Phrase.signed (some .minus) (.factor f)).balanced hoperand
  obtain ⟨rfl, rfl, rfl⟩ := hinside.append_inj hbalanced hclosing
    (Token.kind_of_symbol? hclosing').1 heq
  obtain ⟨m, factor, rfl, hm, hfactor⟩ := Spells.cons_iff.mp hoperand
  refine ⟨⟨t, by simp, ?_⟩, ⟨m, factor, rfl, (Token.kind_of_symbol? hm).1, ?_⟩, ?_⟩
  · rw [(Token.kind_of_symbol? ht).1]
    exact ha.kind
  · rw [hfactor.map_kind]
    exact Derives.of_phrase f
  · intro next hnext hkind
    obtain ⟨more, rfl⟩ := List.head?_eq_some_iff.mp hnext
    have hsymbol : next.symbol? = some .caret := by simp [Token.symbol?, hkind]
    cases rest with
    | nil => simp [Spells] at hafter
    | cons symbol rest =>
      obtain ⟨next, more, heq, hsymbol', -⟩ := Spells.cons_iff.mp hafter
      obtain ⟨rfl, rfl⟩ := List.cons.inj heq
      obtain rfl := Option.some.inj (hsymbol'.symm.trans hsymbol)
      exact hcaret rfl

/-- Brackets in the text of a tree that can be left out are dispensable, unless they belong to a
function. -/
theorem dispensable_of_parse (h : root.Canonical store) (hp : phrasing.fold root = .ok p)
    (hword : Spells (before ++ opening :: (inside ++ closing :: after)) (p.within .sum).word)
    (hopening : opening.kind = .openBracket) (hinside : Balanced inside)
    (hclosing : closing.kind = .closeBracket)
    (hfunction : ∀ t ∈ before.getLast?, t.kind ≠ .function)
    (hends : Parser.Ended ends) (hread : ∀ t ∈ before ++ (inside ++ after) ++ ends, Lexer.Read t)
    (hparse : Parser.parse label (before ++ (inside ++ after) ++ ends) = .ok tree)
    (hsame : Expr.same Store.empty store tree root = true) :
    Dispensable before inside after := by
  obtain ⟨u, v, w, hu, hv, hw, hpword⟩ := hword.exists_of_brackets hopening hclosing
  have hspelled := hu.append (hv.append hw)
  obtain ⟨q, hq, rfl⟩ := Parser.exists_phrase_before_ends hparse
    (fun t ht => ((exists_spells_iff _).mp ⟨_, hspelled⟩ t ht).2) hends
  have hwritten := Lexer.written_of_spells
    (fun t ht => hread t (List.mem_append_left _ ht)) hq
  -- The phrase has the tree, so the text of its tree is the text the brackets were taken from.
  obtain ⟨p', hbrief⟩ := q.exists_writtenBriefly hwritten label
  have hshape := (Parser.canonical_of_parse hread hparse).unlabelled_eq h hsame
  have hvar : ∀ l k n, phrasing.var l n = phrasing.var k n := fun _ _ _ => rfl
  have hfold : phrasing.fold (q.tree label) = phrasing.fold root := by
    rw [← Algebra.fold_unlabelled hvar (q.tree label), hshape, Algebra.fold_unlabelled hvar]
  obtain rfl : p' = p := Except.ok.inj (hbrief.fold.symm.trans (hfold.trans hp))
  obtain ⟨first, a, rest, f, rfl, ha, hclose, hcaret⟩ :=
    hbrief.of_brackets hpword (hq.unique hspelled) (by
      rintro function first rfl
      obtain ⟨start, t, rfl, ht⟩ := hu.exists_last
      exact hfunction t (by simp) (Token.kind_of_symbol? ht).1)
  have hbehind : Spells (closing :: after) (.closeBracket :: w) :=
    Spells.cons_iff.mpr ⟨closing, after, rfl, Token.symbol?_closeBracket hclosing, hw⟩
  have hoperand := hv.append hbehind
  rw [hclose] at hoperand
  exact dispensable_of_spells hu ha hinside hclosing hoperand hcaret

/-- Dispensable brackets in the text of a tree can be left out. -/
theorem exists_parse_of_dispensable (h : root.Canonical store) (hp : phrasing.fold root = .ok p)
    (hword : Spells (before ++ opening :: (inside ++ closing :: after)) (p.within .sum).word)
    (hopening : opening.kind = .openBracket) (hclosing : closing.kind = .closeBracket)
    (hends : Parser.Ended ends) (hread : ∀ t ∈ before ++ (inside ++ after) ++ ends, Lexer.Read t)
    (hdispensable : Dispensable before inside after) (label : Label) :
    ∃ tree, Parser.parse label (before ++ (inside ++ after) ++ ends) = .ok tree ∧
      Expr.same Store.empty store tree root = true := by
  have hnext := ((Dispensable.append_ends_iff hends).mpr hdispensable).next
  obtain ⟨⟨operator, hlast, hoperator⟩, ⟨m, factor, rfl, hm, hfactor⟩, -⟩ := hdispensable
  obtain ⟨start, rfl⟩ := List.getLast?_eq_some_iff.mp hlast
  have hreadable := (exists_spells_iff _).mp ⟨_, hword⟩
  obtain ⟨symbols, hsymbols⟩ :=
    (exists_spells_iff factor).mpr fun t ht => hreadable t (by simp [ht])
  obtain ⟨f, rfl⟩ := hfactor.reads symbols hsymbols.map_kind.symm
  have hinside : Spells (m :: factor) (.operator .sum .minus :: f.word) :=
    Spells.cons_iff.mpr ⟨m, factor, rfl, Token.symbol?_minus hm, hsymbols⟩
  have hlonger : start ++ [operator] ++ opening :: (m :: factor ++ closing :: after) ++ ends =
      start ++ operator :: opening :: (m :: factor ++ closing :: (after ++ ends)) := by simp
  have hparse : Parser.parse label _ = .ok ((p.within .sum).tree label) :=
    Parser.parse_phrase _ hword hends
  rw [hlonger] at hparse
  obtain ⟨tree, htree, hshape⟩ := Parser.exists_parse_without_brackets hparse hoperator
    (Token.symbol?_openBracket hopening) (Token.symbol?_closeBracket hclosing) hinside hnext label
  have hshorter : start ++ operator :: (m :: factor ++ (after ++ ends)) =
      start ++ [operator] ++ (m :: factor ++ after) ++ ends := by simp
  rw [hshorter] at htree
  obtain ⟨p', hp', hwritten⟩ := h.writtenAs
  obtain rfl : p' = p := Except.ok.inj (hp'.symm.trans hp)
  have hcanonical := Parser.canonical_of_parse hread htree
  exact ⟨tree, htree, Expr.same_of_unlabelled hcanonical.settled h.settled
    (hshape.symm.trans (hwritten.within .sum label))⟩

end Dispensable

/-- In the text written of a tree that was read, the brackets that do not belong to a function
can be left out without a change of the tree exactly if they are around a minus and a factor,
behind a factor operator and before no caret. Without any others the text is not read, or
read as a different tree. -/
theorem Rooted.same_without_brackets_iff {label : Label} {text : String} {r : Rooted}
    (h : Rooted.ofText label text = .ok r) :
    ∃ written tokens, r.root.render = .ok written ∧ Lexer.tokenize written = .ok tokens ∧
      ∀ before inside after, Paired tokens before inside after →
        (∀ t ∈ before.getLast?, t.kind ≠ .function) → ∀ label',
          (∃ r', Rooted.ofTokens label' (before ++ (inside ++ after)) = .ok r' ∧
            Expr.same r'.store r.store r'.root r.root = true) ↔
              Dispensable before inside after := by
  have hcanonical := Rooted.canonical_of_ofText h
  obtain ⟨written, p, hrender, hp, hlexes⟩ := Expr.exists_render hcanonical.writable
  obtain ⟨word, hword, htokenize⟩ := hlexes.tokenize
  refine ⟨written, _, hrender, htokenize, fun before inside after hpaired hfunction label' => ?_⟩
  obtain ⟨rest, rfl, opening, closing, rfl, hopening, hinside, hclosing⟩ :=
    hpaired.exists_of_end rfl
  let ends : List Token := [⟨.finish, "", written.toList.length⟩]
  have hends : Parser.Ended ends := by simp [ends, Parser.Ended]
  have hinner : (inside ++ rest).Sublist (opening :: (inside ++ closing :: rest)) :=
    ((List.Sublist.refl inside).append (List.sublist_cons_self closing rest)).cons opening
  have hshorter : (before ++ (inside ++ rest) ++ ends).Sublist
      (before ++ opening :: (inside ++ closing :: rest) ++ ends) :=
    ((List.Sublist.refl before).append hinner).append (List.Sublist.refl ends)
  have hread : ∀ t ∈ before ++ (inside ++ rest) ++ ends, Lexer.Read t := fun t ht =>
    Lexer.read_tokenize htokenize t (hshorter.subset ht)
  have hlist : before ++ (inside ++ (rest ++ ends)) = before ++ (inside ++ rest) ++ ends := by simp
  rw [hlist, Dispensable.append_ends_iff hends]
  constructor
  · intro hleft
    obtain ⟨r', hr', hsame⟩ := hleft
    obtain ⟨tree, hparse, rfl⟩ := Rooted.ofTokens_eq_ok.mp hr'
    exact dispensable_of_parse hcanonical hp hword hopening hinside hclosing hfunction hends hread
      hparse hsame
  · intro hdispensable
    obtain ⟨tree, hparse, hsame⟩ := exists_parse_of_dispensable hcanonical hp hword hopening
      hclosing hends hread hdispensable label'
    exact ⟨_, Rooted.ofTokens_eq_ok.mpr ⟨tree, hparse, rfl⟩, hsame⟩

/-- In the text of `(-x)^y*(-z)` the brackets behind the product can be left out, and those
before the caret cannot. -/
theorem Rooted.same_without_brackets_iff_operand :
    ∃ r, Rooted.ofText 0 "(-x)^y*(-z)" = .ok r ∧ r.root.render = .ok "(-x)^y * (-z)" ∧
      (∃ r', Rooted.ofTokens 11 [⟨.openBracket, "(", 0⟩, ⟨.minus, "-", 1⟩, ⟨.name, "x", 2⟩,
          ⟨.closeBracket, ")", 3⟩, ⟨.caret, "^", 4⟩, ⟨.name, "y", 5⟩, ⟨.star, "*", 7⟩,
          ⟨.minus, "-", 10⟩, ⟨.name, "z", 11⟩, ⟨.finish, "", 13⟩] = .ok r' ∧
        Expr.same r'.store r.store r'.root r.root = true) ∧
      ¬∃ r', Rooted.ofTokens 11 [⟨.minus, "-", 1⟩, ⟨.name, "x", 2⟩, ⟨.caret, "^", 4⟩,
          ⟨.name, "y", 5⟩, ⟨.star, "*", 7⟩, ⟨.openBracket, "(", 9⟩, ⟨.minus, "-", 10⟩,
          ⟨.name, "z", 11⟩, ⟨.closeBracket, ")", 12⟩, ⟨.finish, "", 13⟩] = .ok r' ∧
        Expr.same r'.store r.store r'.root r.root = true := by
  have hread : Rooted.ofText 0 "(-x)^y*(-z)" = .ok _ := rfl
  obtain ⟨written, tokens, hrender, htokenize, hpairs⟩ := same_without_brackets_iff hread
  have htext : "(-x)^y * (-z)" = written := by
    rw [Expr.render_eq_fold] at hrender
    exact Except.ok.inj hrender
  subst htext
  have htokens : Lexer.tokenize "(-x)^y * (-z)" = .ok [⟨.openBracket, "(", 0⟩,
      ⟨.minus, "-", 1⟩, ⟨.name, "x", 2⟩, ⟨.closeBracket, ")", 3⟩, ⟨.caret, "^", 4⟩,
      ⟨.name, "y", 5⟩, ⟨.star, "*", 7⟩, ⟨.openBracket, "(", 9⟩, ⟨.minus, "-", 10⟩,
      ⟨.name, "z", 11⟩, ⟨.closeBracket, ")", 12⟩, ⟨.finish, "", 13⟩] := rfl
  obtain rfl := Except.ok.inj (htokens.symm.trans htokenize)
  have hoperand : ∀ name position position', Balanced
      [⟨.minus, "-", position⟩, ⟨.name, name, position'⟩] := fun _ _ _ =>
    .other (by simp) (by simp) (.other (by simp) (by simp) .nil)
  refine ⟨_, hread, hrender, ?_, ?_⟩
  · refine (hpairs [⟨.openBracket, "(", 0⟩, ⟨.minus, "-", 1⟩, ⟨.name, "x", 2⟩,
      ⟨.closeBracket, ")", 3⟩, ⟨.caret, "^", 4⟩, ⟨.name, "y", 5⟩, ⟨.star, "*", 7⟩]
      [⟨.minus, "-", 10⟩, ⟨.name, "z", 11⟩] [⟨.finish, "", 13⟩]
      ⟨_, _, rfl, rfl, hoperand _ _ _, rfl⟩ (by simp) 11).mpr ?_
    exact ⟨by simp, ⟨_, _, rfl, rfl, .factor (.value .name)⟩, by simp⟩
  · intro hshorter
    have hdispensable := (hpairs [] [⟨.minus, "-", 1⟩, ⟨.name, "x", 2⟩] _
      ⟨_, _, rfl, rfl, hoperand _ _ _, rfl⟩ (by simp) 11).mp hshorter
    obtain ⟨t, ht, -⟩ := hdispensable.operator
    simp at ht

end Reckoner
