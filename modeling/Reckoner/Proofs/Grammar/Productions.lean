import Reckoner.Proofs.Grammar.Soundness

/-!
The grammar by its productions, over kinds of tokens, and what it has to do with the
parser. A production with a loop is two: one for its end and one for another round.
The productions derive exactly the kinds of the words of phrases, provided that every
function has a known name and every number can be read. So the parser accepts a list
exactly if it is a derivable word followed by ends of input.
-/

namespace Reckoner

inductive Nonterminal
  | expression
  | sumTail
  | signedTerm
  | term
  | termTail
  | signedFactor
  | factor
  | argument
  | value

inductive Derives : Nonterminal → List TokenKind → Prop
  | expression {u v} (head : Derives .signedTerm u) (tail : Derives .sumTail v) :
      Derives .expression (u ++ v)
  | sumTailEnd : Derives .sumTail []
  | sumTailMore {k u v} (hk : k = .plus ∨ k = .minus) (term : Derives .term u)
      (tail : Derives .sumTail v) : Derives .sumTail (k :: (u ++ v))
  | unsignedTerm {u} (term : Derives .term u) : Derives .signedTerm u
  | signedTerm {k u} (hk : k = .plus ∨ k = .minus) (term : Derives .term u) :
      Derives .signedTerm (k :: u)
  | term {u v} (head : Derives .factor u) (tail : Derives .termTail v) : Derives .term (u ++ v)
  | termTailEnd : Derives .termTail []
  | termTailMore {k u v} (hk : k = .star ∨ k = .slash) (factor : Derives .signedFactor u)
      (tail : Derives .termTail v) : Derives .termTail (k :: (u ++ v))
  | unsignedFactor {u} (factor : Derives .factor u) : Derives .signedFactor u
  | signedFactor {k u} (hk : k = .plus ∨ k = .minus) (factor : Derives .factor u) :
      Derives .signedFactor (k :: u)
  | factor {u} (argument : Derives .argument u) : Derives .factor u
  | power {u v} (base : Derives .argument u) (exponent : Derives .signedFactor v) :
      Derives .factor (u ++ .caret :: v)
  | call {u} (argument : Derives .argument u) : Derives .argument (.function :: u)
  | bracketed {u} (inner : Derives .expression u) :
      Derives .argument (.openBracket :: (u ++ [.closeBracket]))
  | value {u} (value : Derives .value u) : Derives .argument u
  | number : Derives .value [.number]
  | name : Derives .value [.name]

def Level.nonterminal : Level → Nonterminal
  | sum => .expression
  | product => .term
  | power => .factor
  | atom => .argument

namespace Symbol

def kind : Symbol → TokenKind
  | operator .sum .plus => .plus
  | operator .sum .minus => .minus
  | operator .product .plus => .star
  | operator .product .minus => .slash
  | caret => .caret
  | openBracket => .openBracket
  | closeBracket => .closeBracket
  | function _ => .function
  | number _ => .number
  | name _ => .name

def OfKind (symbol : Symbol) : TokenKind → Prop
  | .plus => ∃ sign, symbol = operator .sum sign
  | .minus => ∃ sign, symbol = operator .sum sign
  | .star => ∃ sign, symbol = operator .product sign
  | .slash => ∃ sign, symbol = operator .product sign
  | .caret => symbol = caret
  | .openBracket => symbol = openBracket
  | .closeBracket => symbol = closeBracket
  | .function => ∃ b, symbol = function b
  | .number => ∃ v, symbol = number v
  | .name => ∃ n, symbol = name n
  | .finish => False

theorem ofKind {symbol : Symbol} {k : TokenKind} (h : symbol.kind = k) : symbol.OfKind k := by
  subst h
  cases symbol with
  | operator family sign => cases family <;> cases sign <;> exact ⟨_, rfl⟩
  | caret | openBracket | closeBracket => exact rfl
  | function | number | name => exact ⟨_, rfl⟩

theorem exists_sign {symbol : Symbol} (h : symbol.kind = .plus ∨ symbol.kind = .minus) :
    ∃ sign, symbol = operator .sum sign := by
  rcases h with h | h
  · exact ofKind h
  · exact ofKind h

theorem exists_factorOperator {symbol : Symbol}
    (h : symbol.kind = .star ∨ symbol.kind = .slash) :
    ∃ sign, symbol = operator .product sign := by
  rcases h with h | h
  · exact ofKind h
  · exact ofKind h

theorem kind_sum (sign : Sign) :
    (operator .sum sign).kind = .plus ∨ (operator .sum sign).kind = .minus := by
  cases sign <;> simp [kind]

theorem kind_product (sign : Sign) :
    (operator .product sign).kind = .star ∨ (operator .product sign).kind = .slash := by
  cases sign <;> simp [kind]

end Symbol

namespace Token

variable {t : Token}

def Readable (t : Token) : Prop :=
  (t.kind = .function → (Builtin.ofName? t.lexeme).isSome) ∧
    (t.kind = .number → (Reading.number? t.lexeme).isSome)

theorem kind_of_symbol? {symbol : Symbol} (h : t.symbol? = some symbol) :
    t.kind = symbol.kind ∧ t.Readable := by
  obtain ⟨kind, lexeme, position⟩ := t
  cases kind with
  | function | number =>
    simp only [symbol?, Option.map_eq_some_iff] at h
    obtain ⟨a, ha, rfl⟩ := h
    simp [Symbol.kind, Readable, ha]
  | finish => simp [symbol?] at h
  | plus | minus | star | slash | caret | openBracket | closeBracket | name =>
    obtain rfl : _ = symbol := by simpa [symbol?] using h
    simp [Symbol.kind, Readable]

theorem exists_symbol (h : t.Readable) (hkind : t.kind ≠ .finish) :
    ∃ symbol, t.symbol? = some symbol := by
  obtain ⟨kind, lexeme, position⟩ := t
  cases kind with
  | finish => exact absurd rfl hkind
  | function =>
    obtain ⟨function, hf⟩ := Option.isSome_iff_exists.mp (h.1 rfl)
    exact ⟨.function function, by simp [symbol?, hf]⟩
  | number =>
    obtain ⟨v, hv⟩ := Option.isSome_iff_exists.mp (h.2 rfl)
    exact ⟨.number v, by simp [symbol?, hv]⟩
  | plus | minus | star | slash | caret | openBracket | closeBracket | name => exact ⟨_, rfl⟩

end Token

theorem Symbol.kind_ne_finish (symbol : Symbol) : symbol.kind ≠ .finish := fun h => ofKind h

theorem Spells.map_kind {tokens : List Token} {word : List Symbol} (h : Spells tokens word) :
    tokens.map Token.kind = word.map Symbol.kind := by
  induction word generalizing tokens with
  | nil => simp [Spells.nil_iff.mp h]
  | cons symbol word ih =>
    obtain ⟨t, rest, rfl, ht, hrest⟩ := Spells.cons_iff.mp h
    simp [ih hrest, (Token.kind_of_symbol? ht).1]

/-- The readable lists without an end are those that spell some word. -/
theorem exists_spells_iff (tokens : List Token) :
    (∃ word, Spells tokens word) ↔ ∀ t ∈ tokens, t.Readable ∧ t.kind ≠ .finish := by
  induction tokens with
  | nil => exact ⟨by simp, fun _ => ⟨[], rfl⟩⟩
  | cons t rest ih =>
    simp only [List.forall_mem_cons, ← ih]
    constructor
    · intro h
      obtain ⟨word, hword⟩ := h
      cases word with
      | nil => simp [Spells] at hword
      | cons symbol word =>
        obtain ⟨t, rest, heq, ht, hrest⟩ := Spells.cons_iff.mp hword
        obtain ⟨rfl, rfl⟩ := List.cons.inj heq
        obtain ⟨hk, hreadable⟩ := Token.kind_of_symbol? ht
        exact ⟨⟨hreadable, hk ▸ symbol.kind_ne_finish⟩, word, hrest⟩
    · intro h
      obtain ⟨⟨hreadable, hfinish⟩, word, hrest⟩ := h
      obtain ⟨symbol, ht⟩ := Token.exists_symbol hreadable hfinish
      exact ⟨symbol :: word, Spells.cons_iff.mpr ⟨t, rest, rfl, ht, hrest⟩⟩

namespace Derives

variable {k : TokenKind} {u v : List TokenKind}

theorem sumTail_snoc (h : Derives .sumTail u) (hk : k = .plus ∨ k = .minus)
    (term : Derives .term v) : Derives .sumTail (u ++ k :: v) := by
  generalize hn : Nonterminal.sumTail = n at h
  induction h with
  | sumTailEnd => simpa using sumTailMore hk term sumTailEnd
  | sumTailMore hk' term' tail _ ih => simpa using sumTailMore hk' term' (ih hn)
  | _ => cases hn

theorem termTail_snoc (h : Derives .termTail u) (hk : k = .star ∨ k = .slash)
    (factor : Derives .signedFactor v) : Derives .termTail (u ++ k :: v) := by
  generalize hn : Nonterminal.termTail = n at h
  induction h with
  | termTailEnd => simpa using termTailMore hk factor termTailEnd
  | termTailMore hk' factor' tail _ ih => simpa using termTailMore hk' factor' (ih hn)
  | _ => cases hn

theorem expression_snoc (h : Derives .expression u) (hk : k = .plus ∨ k = .minus)
    (term : Derives .term v) : Derives .expression (u ++ k :: v) := by
  cases h with
  | expression head tail => simpa using expression head (sumTail_snoc tail hk term)

theorem term_snoc (h : Derives .term u) (hk : k = .star ∨ k = .slash)
    (factor : Derives .signedFactor v) : Derives .term (u ++ k :: v) := by
  cases h with
  | term head tail => simpa using Derives.term head (termTail_snoc tail hk factor)

theorem signedFactor_of_factor (sign : Option Sign) (h : Derives .factor u) :
    Derives .signedFactor ((Phrase.signWord sign).map Symbol.kind ++ u) := by
  cases sign with
  | none => exact unsignedFactor h
  | some sign => exact signedFactor (Symbol.kind_sum sign) h

/-- The kinds of the word of a phrase are derived from its level's nonterminal. -/
theorem of_phrase {level : Level} (p : Phrase level) :
    Derives level.nonterminal (p.word.map Symbol.kind) := by
  induction p with
  | signed sign t ih =>
    have hhead : Derives .signedTerm ((Phrase.signed sign t).word.map Symbol.kind) := by
      cases sign with
      | none => exact unsignedTerm ih
      | some sign => exact signedTerm (Symbol.kind_sum sign) ih
    simpa [Level.nonterminal] using expression hhead sumTailEnd
  | sum p sign t ihp iht =>
    simpa [Phrase.word, Level.nonterminal, Symbol.kind] using
      expression_snoc ihp (Symbol.kind_sum sign) iht
  | factor f ih => simpa [Level.nonterminal, Phrase.word] using Derives.term ih termTailEnd
  | product p sign factorSign f ihp ihf =>
    simpa [Phrase.word, Level.nonterminal, Symbol.kind] using
      term_snoc ihp (Symbol.kind_product sign) (signedFactor_of_factor factorSign ihf)
  | argument a ih => exact Derives.factor ih
  | power b exponentSign e ihb ihe =>
    simpa [Phrase.word, Level.nonterminal, Symbol.kind] using
      Derives.power ihb (signedFactor_of_factor exponentSign ihe)
  | call function a ih => exact Derives.call ih
  | bracketed e ih => simpa [Phrase.word, Level.nonterminal, Symbol.kind] using Derives.bracketed ih
  | number v => exact Derives.value number
  | name n => exact Derives.value name

/-- What a derived word is made of: a phrase, a phrase with an optional sign before
it, or what makes a longer phrase of any phrase before it. -/
def Reads : Nonterminal → List Symbol → Prop
  | .expression, word => ∃ p : Phrase .sum, p.word = word
  | .sumTail, word => ∀ before : Phrase .sum, ∃ p : Phrase .sum, p.word = before.word ++ word
  | .signedTerm, word => ∃ p : Phrase .sum, p.word = word
  | .term, word => ∃ p : Phrase .product, p.word = word
  | .termTail, word =>
      ∀ before : Phrase .product, ∃ p : Phrase .product, p.word = before.word ++ word
  | .signedFactor, word =>
      ∃ sign, ∃ p : Phrase .power, Phrase.signWord sign ++ p.word = word
  | .factor, word => ∃ p : Phrase .power, p.word = word
  | .argument, word => ∃ p : Phrase .atom, p.word = word
  | .value, word => ∃ p : Phrase .atom, p.word = word

theorem reads {n : Nonterminal} {kinds : List TokenKind} (h : Derives n kinds)
    (word : List Symbol) (hword : word.map Symbol.kind = kinds) : Reads n word := by
  induction h generalizing word with
  | expression _ _ ihhead ihtail =>
    obtain ⟨first, last, rfl, hfirst, hlast⟩ := List.map_eq_append_iff.mp hword
    obtain ⟨p, rfl⟩ := ihhead first hfirst
    exact ihtail last hlast p
  | sumTailEnd =>
    obtain rfl := List.map_eq_nil_iff.mp hword
    exact fun before => ⟨before, by simp⟩
  | sumTailMore hk _ _ ihterm ihtail =>
    obtain ⟨symbol, rest, rfl, rfl, hrest⟩ := List.map_eq_cons_iff.mp hword
    obtain ⟨first, last, rfl, hfirst, hlast⟩ := List.map_eq_append_iff.mp hrest
    obtain ⟨sign, rfl⟩ := Symbol.exists_sign hk
    obtain ⟨t, rfl⟩ := ihterm first hfirst
    intro before
    obtain ⟨p, hp⟩ := ihtail last hlast (.sum before sign t)
    exact ⟨p, by simp [hp, Phrase.word]⟩
  | unsignedTerm _ ih =>
    obtain ⟨t, rfl⟩ := ih word hword
    exact ⟨.signed none t, rfl⟩
  | signedTerm hk _ ih =>
    obtain ⟨symbol, rest, rfl, rfl, hrest⟩ := List.map_eq_cons_iff.mp hword
    obtain ⟨sign, rfl⟩ := Symbol.exists_sign hk
    obtain ⟨t, rfl⟩ := ih rest hrest
    exact ⟨.signed (some sign) t, rfl⟩
  | term _ _ ihhead ihtail =>
    obtain ⟨first, last, rfl, hfirst, hlast⟩ := List.map_eq_append_iff.mp hword
    obtain ⟨p, rfl⟩ := ihhead first hfirst
    exact ihtail last hlast (.factor p)
  | termTailEnd =>
    obtain rfl := List.map_eq_nil_iff.mp hword
    exact fun before => ⟨before, by simp⟩
  | termTailMore hk _ _ ihfactor ihtail =>
    obtain ⟨symbol, rest, rfl, rfl, hrest⟩ := List.map_eq_cons_iff.mp hword
    obtain ⟨first, last, rfl, hfirst, hlast⟩ := List.map_eq_append_iff.mp hrest
    obtain ⟨sign, rfl⟩ := Symbol.exists_factorOperator hk
    obtain ⟨factorSign, f, rfl⟩ := ihfactor first hfirst
    intro before
    obtain ⟨p, hp⟩ := ihtail last hlast (.product before sign factorSign f)
    exact ⟨p, by simp [hp, Phrase.word]⟩
  | unsignedFactor _ ih =>
    obtain ⟨f, rfl⟩ := ih word hword
    exact ⟨none, f, rfl⟩
  | signedFactor hk _ ih =>
    obtain ⟨symbol, rest, rfl, rfl, hrest⟩ := List.map_eq_cons_iff.mp hword
    obtain ⟨sign, rfl⟩ := Symbol.exists_sign hk
    obtain ⟨f, rfl⟩ := ih rest hrest
    exact ⟨some sign, f, rfl⟩
  | factor _ ih =>
    obtain ⟨a, rfl⟩ := ih word hword
    exact ⟨.argument a, rfl⟩
  | power _ _ ihbase ihexponent =>
    obtain ⟨first, after, rfl, hfirst, hafter⟩ := List.map_eq_append_iff.mp hword
    obtain ⟨symbol, last, rfl, hsymbol, hlast⟩ := List.map_eq_cons_iff.mp hafter
    obtain rfl : symbol = .caret := Symbol.ofKind hsymbol
    obtain ⟨b, rfl⟩ := ihbase first hfirst
    obtain ⟨sign, e, rfl⟩ := ihexponent last hlast
    exact ⟨.power b sign e, rfl⟩
  | call _ ih =>
    obtain ⟨symbol, rest, rfl, hsymbol, hrest⟩ := List.map_eq_cons_iff.mp hword
    obtain ⟨function, rfl⟩ : ∃ b, symbol = .function b := Symbol.ofKind hsymbol
    obtain ⟨a, rfl⟩ := ih rest hrest
    exact ⟨.call function a, rfl⟩
  | bracketed _ ih =>
    obtain ⟨symbol, rest, rfl, hsymbol, hrest⟩ := List.map_eq_cons_iff.mp hword
    obtain ⟨inner, last, rfl, hinner, hlast⟩ := List.map_eq_append_iff.mp hrest
    obtain ⟨symbol', last', rfl, hsymbol', hlast'⟩ := List.map_eq_cons_iff.mp hlast
    obtain rfl := List.map_eq_nil_iff.mp hlast'
    obtain rfl : symbol = .openBracket := Symbol.ofKind hsymbol
    obtain rfl : symbol' = .closeBracket := Symbol.ofKind hsymbol'
    obtain ⟨e, rfl⟩ := ih inner hinner
    exact ⟨.bracketed e, rfl⟩
  | value _ ih => exact ih word hword
  | number =>
    obtain ⟨symbol, rest, rfl, hsymbol, hrest⟩ := List.map_eq_cons_iff.mp hword
    obtain rfl := List.map_eq_nil_iff.mp hrest
    obtain ⟨v, rfl⟩ : ∃ v, symbol = .number v := Symbol.ofKind hsymbol
    exact ⟨.number v, rfl⟩
  | name =>
    obtain ⟨symbol, rest, rfl, hsymbol, hrest⟩ := List.map_eq_cons_iff.mp hword
    obtain rfl := List.map_eq_nil_iff.mp hrest
    obtain ⟨n, rfl⟩ : ∃ n, symbol = .name n := Symbol.ofKind hsymbol
    exact ⟨.name n, rfl⟩

end Derives

namespace Parser

def listFailures : List DiagnosticKind :=
  [.unexpectedToken, .unexpectedEnd, .unbalancedBrackets, .trailingInput]

/-- Every failure is one of a token list unless it blames a character. -/
theorem kind_mem_listFailures {error : ParseError}
    (h : ∀ c position, error ≠ .unexpectedCharacter c position) :
    error.diagnostic.kind ∈ listFailures := by
  cases error with
  | unexpectedCharacter c position => exact absurd rfl (h c position)
  | unknownFunction | malformedNumber | notAValue => exact List.mem_of_getElem? (i := 0) rfl
  | missingValue => exact List.mem_of_getElem? (i := 1) rfl
  | unclosedBracket => exact List.mem_of_getElem? (i := 2) rfl
  | trailingToken | tokenAfterEnd => exact List.mem_of_getElem? (i := 3) rfl

namespace State

variable {label : Label} {t : Token} {s : State} {frames : List Frame} {e : Expr}
  {tokens : List Token} {error : ParseError}

theorem finish_error (h : s.finish t = .error error) :
    error = .missingValue t ∨ ∃ opening, error = .unclosedBracket opening t := by
  cases s with
  | awaiting frames => exact .inl (by simpa [finish, eq_comm] using h)
  | holding frames e =>
    cases hcomplete : complete frames e with
    | ok tree => simp [finish, hcomplete] at h
    | error opening => exact .inr ⟨opening, by simpa [finish, hcomplete, eq_comm] using h⟩
  | finished tree => simp [finish] at h

/-- What is blamed on a token where a value has to come. -/
theorem await_error (h : await label t frames = .error error) :
    ¬t.Readable ∧ (error = .malformedNumber t ∨ error = .unknownFunction t) ∨
      error = .notAValue t := by
  obtain ⟨kind, lexeme, position⟩ := t
  cases kind with
  | number =>
    cases hv : Reading.number? lexeme with
    | none =>
      exact .inl ⟨by simp [Token.Readable, hv], .inl (by simpa [await, hv, eq_comm] using h)⟩
    | some v => simp [await, hv] at h
  | function =>
    cases hf : Builtin.ofName? lexeme with
    | none =>
      exact .inl ⟨by simp [Token.Readable, hf], .inr (by simpa [await, hf, eq_comm] using h)⟩
    | some function => simp [await, hf] at h
  | name | openBracket => simp [await] at h
  | plus | minus =>
    cases hlevel : signLevel? frames with
    | none => exact .inr (by simpa [await, TokenKind.sign?, hlevel, eq_comm] using h)
    | some level => simp [await, TokenKind.sign?, hlevel] at h
  | finish | star | slash | caret | closeBracket =>
    exact .inr (by simpa [await, TokenKind.sign?, eq_comm] using h)

/-- What is blamed on a token after a value. -/
theorem proceed_error (h : proceed label t frames e = .error error) :
    error = .trailingToken t ∨ ∃ opening, error = .unclosedBracket opening t := by
  obtain ⟨kind, lexeme, position⟩ := t
  cases kind with
  | caret => simp [proceed] at h
  | closeBracket =>
    cases hclose : close? frames e with
    | none => exact .inl (by simpa [proceed, hclose, eq_comm] using h)
    | some closed => simp [proceed, hclose] at h
  | plus | minus | star | slash => simp [proceed, TokenKind.operator?] at h
  | finish | function | openBracket | number | name =>
    cases hopening : enclosing? frames with
    | none => exact .inl (by simpa [proceed, TokenKind.operator?, hopening, eq_comm] using h)
    | some opening =>
      exact .inr ⟨opening, by simpa [proceed, TokenKind.operator?, hopening, eq_comm] using h⟩

/-- What is blamed on a token: what it says, if it cannot be read, or where it stands. -/
theorem step_error (h : s.step label t = .error error) :
    ¬t.Readable ∧ (error = .malformedNumber t ∨ error = .unknownFunction t) ∨
      error = .notAValue t ∨ error = .missingValue t ∨ error = .trailingToken t ∨
        error = .tokenAfterEnd t ∨ ∃ opening, error = .unclosedBracket opening t := by
  by_cases ht : t.kind = .finish
  · cases hfinish : s.finish t with
    | ok tree => simp [step, ht, hfinish, Except.map] at h
    | error cause =>
      obtain rfl : cause = error := by simpa [step, ht, hfinish, Except.map] using h
      rcases finish_error hfinish with rfl | ⟨opening, rfl⟩ <;> simp
  · simp only [step, ht, if_false] at h
    cases s with
    | awaiting frames => exact (await_error h).imp_right .inl
    | holding frames e => rcases proceed_error h with rfl | ⟨opening, rfl⟩ <;> simp
    | finished tree =>
      obtain rfl := Except.error.inj h
      simp

/-- A run fails at one of its tokens. -/
theorem exists_step_of_run_error (h : s.run label tokens = .error error) :
    ∃ before t after next, tokens = before ++ t :: after ∧ s.run label before = .ok next ∧
      next.step (label + before.length) t = .error error := by
  induction tokens generalizing label s with
  | nil => simp [run] at h
  | cons t rest ih =>
    cases hstep : s.step label t with
    | error cause =>
      obtain rfl : cause = error := by simpa [run, hstep] using h
      exact ⟨[], t, rest, s, rfl, rfl, hstep⟩
    | ok next =>
      rw [run_cons hstep] at h
      obtain ⟨before, t', after, last, rfl, hbefore, herror⟩ := ih h
      refine ⟨t :: before, t', after, last, rfl, (run_cons hstep).trans hbefore, ?_⟩
      rwa [List.length_cons, Nat.add_comm before.length, ← Nat.add_assoc]

end State

section Failures

variable {label : Label} {tokens : List Token} {error : ParseError}

/-- A list fails at one of its tokens, or it is read and lacks its end. -/
theorem parse_error_cases (h : parse label tokens = .error error) :
    (∃ before t after s, tokens = before ++ t :: after ∧
      State.start.run label before = .ok s ∧ s.step (label + before.length) t = .error error) ∨
    ∃ s, State.start.run label tokens = .ok s ∧ s.finish Token.absent = .error error := by
  cases hrun : State.start.run label tokens with
  | ok s => exact .inr ⟨s, rfl, by simpa [parse, hrun] using h⟩
  | error cause =>
    obtain rfl : cause = error := by simpa [parse, hrun] using h
    exact .inl (State.exists_step_of_run_error hrun)

theorem parse_error_kind (h : parse label tokens = .error error) :
    error.diagnostic.kind ∈ listFailures := by
  apply kind_mem_listFailures
  intro c position
  rcases parse_error_cases h with ⟨before, t, after, s, -, -, hstep⟩ | ⟨s, -, hfinish⟩
  · rcases State.step_error hstep with
      ⟨-, rfl | rfl⟩ | rfl | rfl | rfl | rfl | ⟨opening, rfl⟩ <;> simp
  · rcases State.finish_error hfinish with rfl | ⟨opening, rfl⟩ <;> simp

end Failures

theorem Ended.append_cancel {first second ends ends' : List Token}
    (hfirst : ∀ t ∈ first, t.kind ≠ .finish) (hends : Ended ends)
    (h : first ++ ends' = second ++ ends) : ∃ extra, second = first ++ extra := by
  rcases List.append_eq_append_iff.mp h with ⟨extra, rfl, -⟩ | ⟨extra, rfl, rfl⟩
  · exact ⟨extra, rfl⟩
  · cases extra with
    | nil => exact ⟨[], by simp⟩
    | cons t rest =>
      exact absurd (hends t (by simp)) (hfirst t (by simp))

/-- The ends of input after an accepted list change nothing. -/
theorem parse_ends {label : Label} {tokens ends ends' : List Token} {tree : Expr}
    (h : parse label (tokens ++ ends) = .ok tree) (hends : Ended ends) (hends' : Ended ends') :
    parse label (tokens ++ ends') = .ok tree := by
  obtain ⟨p, before, rest, heq, hword, hrest, rfl⟩ := exists_phrase_of_parse h
  have hbefore : ∀ t ∈ before, t.kind ≠ .finish := by
    intro t ht
    exact ((exists_spells_iff before).mp ⟨_, hword⟩ t ht).2
  obtain ⟨extra, rfl⟩ := Ended.append_cancel hbefore hends heq.symm
  have hextra : Ended extra := by
    rw [List.append_assoc, List.append_cancel_left_eq] at heq
    exact fun t ht => hrest t (heq ▸ List.mem_append_left _ ht)
  rw [List.append_assoc]
  apply parse_phrase p hword
  intro t ht
  rcases List.mem_append.mp ht with ht | ht
  · exact hextra t ht
  · exact hends' t ht

/-- A list has a tree exactly if it is a word derived from the productions, with known
functions and readable numbers, followed by ends of input. Their number makes no
difference to the tree, and a list without a tree fails in one of four ways. -/
theorem parse_ok_iff_derives (label : Label) (tokens : List Token) :
    ((∃ tree, parse label tokens = .ok tree) ↔
      ∃ word ends, tokens = word ++ ends ∧ Ended ends ∧ (∀ t ∈ word, t.kind ≠ .finish) ∧
        Derives .expression (word.map Token.kind) ∧ ∀ t ∈ word, t.Readable) ∧
    (∀ tree word ends ends', parse label tokens = .ok tree → tokens = word ++ ends →
      Ended ends → Ended ends' → parse label (word ++ ends') = .ok tree) ∧
    ∀ error, parse label tokens = .error error → error.diagnostic.kind ∈ listFailures := by
  refine ⟨⟨?_, ?_⟩, ?_, fun error => parse_error_kind⟩
  · intro h
    obtain ⟨tree, h⟩ := h
    obtain ⟨p, word, ends, rfl, hword, hends, -⟩ := exists_phrase_of_parse h
    have hreadable := (exists_spells_iff word).mp ⟨_, hword⟩
    refine ⟨word, ends, rfl, hends, fun t ht => (hreadable t ht).2, ?_,
      fun t ht => (hreadable t ht).1⟩
    rw [hword.map_kind]
    exact Derives.of_phrase p
  · intro h
    obtain ⟨word, ends, rfl, hends, hfinish, hderives, hreadable⟩ := h
    obtain ⟨symbols, hspells⟩ :=
      (exists_spells_iff word).mpr fun t ht => ⟨hreadable t ht, hfinish t ht⟩
    obtain ⟨p, rfl⟩ := hderives.reads symbols hspells.map_kind.symm
    exact ⟨p.tree label, parse_phrase p hspells hends⟩
  · intro tree word ends ends' h htokens hends hends'
    subst htokens
    exact parse_ends h hends hends'

end Parser

end Reckoner
