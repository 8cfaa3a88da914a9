import Reckoner.Proofs.Rendering.Canonical

/-!
Phrases with brackets put in. What a tree is written as never has a sign behind a factor
operator or a function without a bracket behind it: these places are crowded. A phrase may
have them, and guarding puts brackets there. The text of the phrase's tree is the word of
the guarded phrase or shorter than that, so a phrase can only be shorter than the text of
its tree, by one pair of brackets, if it has one crowded place and has everything else as
the text has it.
-/

namespace Reckoner

namespace Symbol

/-- The symbols do not stand side by side in the text of a tree: behind a factor operator there
is a value, behind a function there is an opening bracket. -/
def crowds : Symbol → Symbol → Bool
  | operator .product _, operator .sum _ => true
  | operator .product _, closeBracket => true
  | caret, operator .sum _ => true
  | caret, closeBracket => true
  | function _, openBracket => false
  | function _, _ => true
  | _, _ => false

def Opens : Symbol → Prop
  | openBracket => True
  | function _ => True
  | number _ => True
  | name _ => True
  | _ => False

def IsFactorOperator (a : Symbol) : Prop := a = caret ∨ ∃ sign, a = operator .product sign

variable {a b : Symbol}

theorem IsFactorOperator.crowds_sign (h : a.IsFactorOperator) (sign : Sign) :
    a.crowds (operator .sum sign) = true := by
  rcases h with rfl | ⟨s, rfl⟩ <;> rfl

theorem IsFactorOperator.not_crowds (h : a.IsFactorOperator) (hb : b.Opens) :
    a.crowds b = false := by
  rcases h with rfl | ⟨s, rfl⟩ <;> cases b <;> first | rfl | exact absurd hb id

theorem isFactorOperator_of_crowds (h : a.crowds (operator .sum .minus) = true)
    (hfunction : ∀ f, a ≠ function f) : a.IsFactorOperator := by
  cases a with
  | operator family sign =>
    cases family with
    | sum => simp [crowds] at h
    | product => exact .inr ⟨sign, rfl⟩
  | caret => exact .inl rfl
  | function f => exact absurd rfl (hfunction f)
  | openBracket | closeBracket | number | name => simp [crowds] at h

/-- What may stand before a closing bracket may stand before anything. -/
theorem not_crowds_of_closeBracket (h : a.crowds closeBracket = false) (b : Symbol) :
    a.crowds b = false := by
  cases a with
  | operator family sign =>
    cases family with
    | sum => rfl
    | product => simp [crowds] at h
  | caret | function => simp [crowds] at h
  | openBracket | closeBracket | number | name => rfl

end Symbol

def crowded : List Symbol → Nat
  | a :: b :: rest => (a.crowds b).toNat + crowded (b :: rest)
  | _ => 0

section Crowded

variable {a b : Symbol} {u v : List Symbol}

theorem crowded_append_cons (u : List Symbol) (a b : Symbol) (v : List Symbol) :
    crowded (u ++ a :: b :: v) =
      crowded (u ++ [a]) + (a.crowds b).toNat + crowded (b :: v) := by
  induction u with
  | nil =>
    show (a.crowds b).toNat + crowded (b :: v) = 0 + (a.crowds b).toNat + crowded (b :: v)
    omega
  | cons c u ih =>
    cases u with
    | nil =>
      simp only [List.cons_append, List.nil_append, crowded] at ih ⊢
      omega
    | cons d u =>
      simp only [List.cons_append, crowded] at ih ⊢
      omega

theorem crowded_append_le (u v : List Symbol) :
    crowded u + crowded v ≤ crowded (u ++ v) ∧ crowded (u ++ v) ≤ crowded u + crowded v + 1 := by
  rcases List.eq_nil_or_concat u with rfl | ⟨u, a, rfl⟩
  · simp [crowded]
  cases v with
  | nil => simp [crowded]
  | cons b v =>
    have hjoin := crowded_append_cons u a b v
    have hbool := (a.crowds b).toNat_le
    rw [List.concat_eq_append, List.append_assoc, List.singleton_append]
    omega

theorem crowded_pos (h : a.crowds b = true) (u v : List Symbol) :
    0 < crowded (u ++ a :: b :: v) := by
  rw [crowded_append_cons, h]
  simp only [Bool.toNat_true]
  omega

theorem crowded_cons (h : ∀ b, a.crowds b = false) (v : List Symbol) :
    crowded (a :: v) = crowded v := by
  cases v with
  | nil => rfl
  | cons b v => simp [crowded, h b]

theorem crowded_concat_append (h : ∀ b, a.crowds b = false) (u v : List Symbol) :
    crowded (u ++ [a] ++ v) = crowded (u ++ [a]) + crowded v := by
  cases v with
  | nil => simp [crowded]
  | cons b v => simp [crowded_append_cons, h b]

end Crowded

namespace Phrase

/-- A phrase ends with a symbol that may stand before any other. -/
theorem exists_last {level : Level} (p : Phrase level) :
    ∃ u a, p.word = u ++ [a] ∧ ∀ b, a.crowds b = false := by
  induction p with
  | signed sign t ih =>
    obtain ⟨u, a, hword, ha⟩ := ih
    exact ⟨_, a, by rw [word, hword, ← List.append_assoc], ha⟩
  | sum p sign t ihp ih =>
    obtain ⟨u, a, hword, ha⟩ := ih
    exact ⟨_, a, by rw [word, hword, ← List.cons_append, ← List.append_assoc], ha⟩
  | factor f ih => exact ih
  | product p sign factorSign f ihp ih =>
    obtain ⟨u, a, hword, ha⟩ := ih
    exact ⟨_, a, by
      rw [word, hword, ← List.append_assoc, ← List.cons_append, ← List.append_assoc], ha⟩
  | argument a ih => exact ih
  | power b exponentSign e ihb ih =>
    obtain ⟨u, a, hword, ha⟩ := ih
    exact ⟨_, a, by
      rw [word, hword, ← List.append_assoc, ← List.cons_append, ← List.append_assoc], ha⟩
  | call function a ih =>
    obtain ⟨u, a, hword, ha⟩ := ih
    exact ⟨_, a, by rw [word, hword, ← List.cons_append], ha⟩
  | bracketed e => exact ⟨_, .closeBracket, by rw [word, ← List.cons_append], fun _ => rfl⟩
  | number v => exact ⟨[], .number v, rfl, fun _ => rfl⟩
  | name n => exact ⟨[], .name n, rfl, fun _ => rfl⟩

/-- A phrase that is no expression begins a value. -/
theorem exists_first {level : Level} (p : Phrase level) (h : level ≠ .sum) :
    ∃ b v, p.word = b :: v ∧ b.Opens := by
  induction p with
  | signed | sum => exact absurd rfl h
  | factor f ih => exact ih (by decide)
  | product p sign factorSign f ih =>
    obtain ⟨b, v, hword, hb⟩ := ih h
    exact ⟨b, _, by rw [word, hword, List.cons_append], hb⟩
  | argument a ih => exact ih (by decide)
  | power b exponentSign e ih =>
    obtain ⟨b, v, hword, hb⟩ := ih (by decide)
    exact ⟨b, _, by rw [word, hword, List.cons_append], hb⟩
  | call function a => exact ⟨_, _, rfl, trivial⟩
  | bracketed e => exact ⟨_, _, rfl, trivial⟩
  | number | name => exact ⟨_, _, rfl, trivial⟩

theorem crowded_word_append {level : Level} (p : Phrase level) (v : List Symbol) :
    crowded (p.word ++ v) = crowded p.word + crowded v := by
  obtain ⟨u, a, hword, ha⟩ := p.exists_last
  rw [hword, crowded_concat_append ha]

/-- A sign behind a factor operator is crowded. -/
theorem crowded_operand {a : Symbol} (ha : a.IsFactorOperator) (sign : Option Sign)
    (f : Phrase .power) :
    crowded (a :: (signWord sign ++ f.word)) = sign.isSome.toNat + crowded f.word := by
  cases sign with
  | none =>
    obtain ⟨b, v, hword, hb⟩ := f.exists_first (by decide)
    rw [signWord, List.nil_append, hword]
    simp [crowded, ha.not_crowds hb]
  | some sign =>
    have hsign : crowded (.operator .sum sign :: f.word) = crowded f.word :=
      crowded_cons (fun _ => rfl) f.word
    rw [signWord, List.singleton_append, crowded, ha.crowds_sign, hsign]
    rfl

theorem crowded_signed (sign : Option Sign) (t : Phrase .product) :
    crowded (signed sign t).word = crowded t.word := by
  cases sign with
  | none => rfl
  | some sign => exact crowded_cons (fun _ => rfl) t.word

theorem crowded_sum (p : Phrase .sum) (sign : Sign) (t : Phrase .product) :
    crowded (sum p sign t).word = crowded p.word + crowded t.word := by
  rw [word, crowded_word_append, crowded_cons fun _ => rfl]

theorem crowded_product (p : Phrase .product) (sign : Sign) (factorSign : Option Sign)
    (f : Phrase .power) : crowded (product p sign factorSign f).word =
      crowded p.word + (factorSign.isSome.toNat + crowded f.word) := by
  rw [word, crowded_word_append, crowded_operand (.inr ⟨sign, rfl⟩)]

theorem crowded_power (b : Phrase .atom) (exponentSign : Option Sign) (e : Phrase .power) :
    crowded (power b exponentSign e).word =
      crowded b.word + (exponentSign.isSome.toNat + crowded e.word) := by
  rw [word, crowded_word_append, crowded_operand (.inl rfl)]

theorem crowded_bracketed (e : Phrase .sum) : crowded (bracketed e).word = crowded e.word := by
  have hclose : crowded [.closeBracket] = 0 := rfl
  rw [word, crowded_cons fun _ => rfl, crowded_word_append, hclose, Nat.add_zero]

theorem crowded_call_bracketed (function : Builtin) (e : Phrase .sum) :
    crowded (call function (bracketed e)).word = crowded e.word := by
  rw [← crowded_bracketed e, word]
  show (Symbol.crowds (.function function) .openBracket).toNat + crowded (bracketed e).word = _
  exact Nat.zero_add _

end Phrase

def Briefer (u v : List Symbol) : Prop := u = v ∨ u.length < v.length

namespace Briefer

variable {u v w u' v' : List Symbol}

theorem refl (u : List Symbol) : Briefer u u := .inl rfl

theorem length_le (h : Briefer u v) : u.length ≤ v.length := by
  rcases h with rfl | h
  · exact Nat.le_refl _
  · exact Nat.le_of_lt h

theorem trans (h : Briefer u v) (h' : Briefer v w) : Briefer u w := by
  rcases h with rfl | h
  · exact h'
  · exact .inr (Nat.lt_of_lt_of_le h h'.length_le)

theorem append (h : Briefer u v) (h' : Briefer u' v') : Briefer (u ++ u') (v ++ v') := by
  have hle := h.length_le
  have hle' := h'.length_le
  rcases h with rfl | h
  · rcases h' with rfl | h'
    · exact .refl _
    · right
      simp only [List.length_append]
      omega
  · right
    simp only [List.length_append]
    omega

theorem cons (a : Symbol) (h : Briefer u v) : Briefer (a :: u) (a :: v) :=
  (refl [a]).append h

theorem bracket (h : Briefer u v) :
    Briefer (.openBracket :: (u ++ [.closeBracket])) (.openBracket :: (v ++ [.closeBracket])) :=
  (h.append (refl _)).cons _

end Briefer

namespace Phrase

def opened : {level : Level} → Phrase level → Phrase .sum
  | .sum, e => e
  | .product, t => signed none t
  | .power, f => signed none (factor f)
  | .atom, bracketed e => e
  | .atom, a => signed none (factor (argument a))

/-- The operand of a factor operator, with brackets in the place of a minus that would stand
behind the operator. -/
def guardOperand : Option Sign → Phrase .power → Phrase .power
  | some .minus, f => .argument (.bracketed (.signed (some .minus) (.factor f)))
  | _, f => f

/-- The phrase with brackets where it is crowded and without signs that do nothing. -/
def guard : {level : Level} → Phrase level → Phrase level
  | _, signed (some .minus) t => signed (some .minus) t.guard
  | _, signed _ t => signed none t.guard
  | _, sum p sign t => sum p.guard sign t.guard
  | _, factor f => factor f.guard
  | _, product p sign factorSign f => product p.guard sign none (guardOperand factorSign f.guard)
  | _, argument a => argument a.guard
  | _, power b exponentSign e => power b.guard none (guardOperand exponentSign e.guard)
  | _, call function a => call function (bracketed a.guard.opened)
  | _, bracketed e => bracketed e.guard
  | _, number v => number v
  | _, name n => name n

end Phrase

namespace Piece

variable {p q : Piece}

def signed : Option Sign → Piece → Piece
  | some .minus, p => ⟨.sum, .signed (some .minus) (p.within .product)⟩
  | _, p => p

/-- A place that takes looser text needs no more of it. -/
theorem briefer_within (p : Piece) {loose tight : Level} (h : loose.rank ≤ tight.rank) :
    Briefer (p.within loose).word (p.within tight).word := by
  rw [word_within, word_within]
  by_cases htight : tight.rank ≤ p.level.rank
  · rw [if_pos htight, if_pos (Nat.le_trans h htight)]
    exact .refl _
  · rw [if_neg htight]
    split
    · right
      simp only [List.length_cons, List.length_append]
      omega
    · exact .refl _

theorem crowded_within (h : crowded p.phrase.word = 0) (level : Level) :
    crowded (p.within level).word = 0 := by
  rw [word_within]
  split
  · exact h
  · have hclose : crowded [.closeBracket] = 0 := rfl
    rw [crowded_cons fun _ => rfl, Phrase.crowded_word_append, h, hclose]

theorem within_level (p : Piece) : p.within p.level = p.phrase := by
  obtain ⟨level, phrase⟩ := p
  cases level <;> rfl

end Piece

namespace Expr

variable {p q : Piece}

theorem fold_phrasing_signedTree {label : Label} {build : Label → Expr} (sign : Option Sign)
    (h : phrasing.fold (build (label + (Phrase.signWord sign).length)) = .ok p) :
    phrasing.fold (Phrase.signedTree label sign build) = .ok (p.signed sign) := by
  cases sign with
  | none => exact h
  | some sign =>
    cases sign with
    | plus => exact h
    | minus =>
      have hnone : phrasing.foldTerms [] = .ok [] := rfl
      exact Algebra.fold_chain h hnone label .sum .minus .minus

/-- Going on a chain adds one term to its text. -/
theorem fold_phrasing_extend {soFar term : Expr} (hsoFar : phrasing.fold soFar = .ok p)
    (hterm : phrasing.fold term = .ok q) (family : Family) (l : Label) (sign : Sign) :
    phrasing.fold (soFar.extend family l sign term) =
      .ok ⟨family.level, Piece.addTerm family (p.within family.level) (sign, q)⟩ := by
  have hlast : phrasing.foldTerms [(sign, term)] = .ok [(sign, q)] :=
    Algebra.foldTerms_cons hterm rfl sign
  by_cases hchain : soFar.IsChain family
  · cases soFar with
    | chain k f o first rest =>
      obtain rfl : f = family := hchain
      obtain ⟨s, e⟩ := first
      obtain ⟨a, operands, he, hrest, rfl⟩ := Algebra.fold_chain_iff.mp hsoFar
      rw [extend, if_pos rfl, Algebra.fold_chain he (Algebra.foldTerms_append hrest hlast)]
      have hterms : (operands ++ [(sign, q)]).foldl (Piece.addTerm f) (Piece.firstTerm f (s, a)) =
          Piece.addTerm f (operands.foldl (Piece.addTerm f) (Piece.firstTerm f (s, a)))
            (sign, q) := List.foldl_concat ..
      have hlevel := (Piece.ofChain f (s, a) operands).within_level
      exact congrArg (fun phrase => Except.ok (⟨f.level, phrase⟩ : Piece))
        (hterms.trans (congrArg (Piece.addTerm f · (sign, q)) hlevel.symm))
    | const | var | power | call => exact absurd hchain id
  · rw [extend_of_not_isChain hchain, Algebra.fold_chain hsoFar hlast]
    cases family <;> rfl

end Expr

namespace Phrase

/-- The phrase's tree is written as the guarded phrase or as something shorter. -/
structure WrittenBriefly {level : Level} (q : Phrase level) (label : Label) (p : Piece) : Prop where
  fold : phrasing.fold (q.tree label) = .ok p
  uncrowded : crowded p.phrase.word = 0
  within : Briefer (p.within level).word q.guard.word
  opened : Briefer (p.within .sum).word q.guard.opened.word

namespace WrittenBriefly

variable {level : Level} {q : Phrase level} {label : Label} {p : Piece}

/-- Only brackets around the whole make a difference between the two places. -/
theorem of_within (hfold : phrasing.fold (q.tree label) = .ok p)
    (huncrowded : crowded p.phrase.word = 0)
    (hwithin : Briefer (p.within level).word q.guard.word)
    (hopened : q.guard.opened.word = q.guard.word) : WrittenBriefly q label p := by
  refine ⟨hfold, huncrowded, hwithin, ?_⟩
  rw [hopened]
  exact (p.briefer_within (by cases level <;> decide)).trans hwithin

/-- The operand of a factor operator is written at most as the guarded operand. -/
theorem operand {f : Phrase .power} (h : WrittenBriefly f label p) (sign : Option Sign) :
    crowded (p.signed sign).phrase.word = 0 ∧
      Briefer ((p.signed sign).within .power).word (guardOperand sign f.guard).word := by
  cases sign with
  | none => exact ⟨h.uncrowded, h.within⟩
  | some sign =>
    cases sign with
    | plus => exact ⟨h.uncrowded, h.within⟩
    | minus =>
      have hproduct := Piece.crowded_within h.uncrowded .product
      have hlevel : Level.product.rank ≤ Level.power.rank := by decide
      have hbrief := (p.briefer_within hlevel).trans h.within
      exact ⟨(crowded_cons (fun _ => rfl) _).trans hproduct, (hbrief.cons _).bracket⟩

end WrittenBriefly

/-- Every phrase of a text has a tree that is written briefly. -/
theorem exists_writtenBriefly {level : Level} (q : Phrase level)
    (h : ∀ symbol ∈ q.word, symbol.Written) (label : Label) : ∃ p, WrittenBriefly q label p := by
  induction q generalizing label with
  | signed sign t ih =>
    obtain ⟨p, hp⟩ := ih (fun s hs => h s (List.mem_append_right _ hs))
      (label + (signWord sign).length)
    have hfold := Expr.fold_phrasing_signedTree sign hp.fold
    have hlevel : Level.sum.rank ≤ Level.product.rank := by decide
    have hsum := (p.briefer_within hlevel).trans hp.within
    cases sign with
    | none => exact ⟨p, .of_within hfold hp.uncrowded hsum rfl⟩
    | some sign =>
      cases sign with
      | plus => exact ⟨p, .of_within hfold hp.uncrowded hsum rfl⟩
      | minus =>
        have hproduct := Piece.crowded_within hp.uncrowded .product
        exact ⟨_, .of_within hfold ((crowded_cons (fun _ => rfl) _).trans hproduct)
          (hp.within.cons _) rfl⟩
  | sum p sign t ihp iht =>
    obtain ⟨first, hfirst⟩ := ihp (fun s hs => h s (List.mem_append_left _ hs)) label
    obtain ⟨last, hlast⟩ := iht (fun s hs => h s (by simp [word, hs])) (label + p.word.length + 1)
    have hfold := Expr.fold_phrasing_extend hfirst.fold hlast.fold .sum (label + p.word.length) sign
    refine ⟨_, .of_within hfold ?_ (hfirst.within.append (hlast.within.cons _)) rfl⟩
    have hp := Piece.crowded_within hfirst.uncrowded .sum
    have ht := Piece.crowded_within hlast.uncrowded .product
    exact (crowded_sum _ _ _).trans (Nat.add_eq_zero_iff.mpr ⟨hp, ht⟩)
  | factor f ih =>
    obtain ⟨p, hp⟩ := ih h label
    exact ⟨p, .of_within hp.fold hp.uncrowded ((p.briefer_within (by decide)).trans hp.within) rfl⟩
  | product p sign factorSign f ihp ihf =>
    obtain ⟨first, hfirst⟩ := ihp (fun s hs => h s (List.mem_append_left _ hs)) label
    obtain ⟨last, hlast⟩ := ihf (fun s hs => h s (by simp [word, hs]))
      (label + p.word.length + 1 + (signWord factorSign).length)
    obtain ⟨huncrowded, hbrief⟩ := hlast.operand factorSign
    have hfold := Expr.fold_phrasing_extend hfirst.fold
      (Expr.fold_phrasing_signedTree factorSign hlast.fold) .product (label + p.word.length) sign
    refine ⟨_, .of_within hfold ?_ (hfirst.within.append (hbrief.cons _)) rfl⟩
    have hp := Piece.crowded_within hfirst.uncrowded .product
    have hf := (Nat.zero_add _).trans (Piece.crowded_within huncrowded .power)
    exact (crowded_product _ _ _ _).trans (Nat.add_eq_zero_iff.mpr ⟨hp, hf⟩)
  | argument a ih =>
    obtain ⟨p, hp⟩ := ih h label
    exact ⟨p, .of_within hp.fold hp.uncrowded ((p.briefer_within (by decide)).trans hp.within) rfl⟩
  | power b exponentSign e ihb ihe =>
    obtain ⟨base, hbase⟩ := ihb (fun s hs => h s (List.mem_append_left _ hs)) label
    obtain ⟨exponent, hexponent⟩ := ihe (fun s hs => h s (by simp [word, hs]))
      (label + b.word.length + 1 + (signWord exponentSign).length)
    obtain ⟨huncrowded, hbrief⟩ := hexponent.operand exponentSign
    have hfold := Algebra.fold_power hbase.fold
      (Expr.fold_phrasing_signedTree exponentSign hexponent.fold) (label + b.word.length)
    refine ⟨_, .of_within hfold ?_ (hbase.within.append (hbrief.cons _)) rfl⟩
    have hb := Piece.crowded_within hbase.uncrowded .atom
    have he := (Nat.zero_add _).trans (Piece.crowded_within huncrowded .power)
    exact (crowded_power _ _ _).trans (Nat.add_eq_zero_iff.mpr ⟨hb, he⟩)
  | call function a ih =>
    obtain ⟨p, hp⟩ := ih (fun s hs => h s (List.mem_cons_of_mem _ hs)) (label + 1)
    have hfold := Algebra.fold_call hp.fold label (.builtin function)
    refine ⟨_, .of_within hfold ?_ (hp.opened.bracket.cons _) rfl⟩
    exact (crowded_call_bracketed _ _).trans (Piece.crowded_within hp.uncrowded _)
  | bracketed e ih =>
    obtain ⟨p, hp⟩ := ih (fun s hs => h s (by simp [word, hs])) (label + 1)
    refine ⟨p, hp.fold, hp.uncrowded, ?_, hp.within⟩
    have hatom := p.word_within .atom
    have hsum := (p.word_within .sum).trans (if_pos (by cases p.level <;> decide))
    have hwithin := hp.within
    rw [hsum] at hwithin
    rw [hatom]
    split
    · right
      have hle := hwithin.length_le
      simp only [guard, word, List.length_cons, List.length_append]
      omega
    · exact hwithin.bracket
  | number v =>
    obtain ⟨hnan, hsign⟩ := h (.number v) (by simp [word])
    refine ⟨⟨.atom, .number v⟩, .of_within ?_ rfl (.refl _) rfl⟩
    rw [tree, Algebra.fold, phrasing_const hnan, Piece.ofConst, hsign]
  | name n => exact ⟨_, .of_within rfl rfl (.refl _) rfl⟩

end Phrase

end Reckoner
