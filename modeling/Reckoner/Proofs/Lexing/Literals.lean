import Reckoner.Proofs.Evaluation
import Reckoner.Proofs.Grammar.Prefixes
import Reckoner.Proofs.Lexing.Partition
import Reckoner.Proofs.Rendering.Canonical

/-!
What the lexer takes for a literal, the parser can read. A numeral is digits of any
scripts with a point and an exponent, and reading takes these to the end and nothing else,
so its value is a magnitude. A name is a function exactly if a builtin has it. A text
therefore never fails for what one of its tokens says, and of a tree that it has every
node has a value and can be written.
-/

namespace Reckoner

open Lexer Text

namespace Reading

variable {text body mark : List Char}

theorem ends_of_cons {c : Char} (hdigit : isDigit c = false) (hunderscore : c ≠ '_')
    (rest : List Char) : Ends (c :: rest) := by
  intro d hd
  obtain rfl := Option.some.inj hd
  exact ⟨hdigit, hunderscore⟩

theorem ends_of_mark (h : mark = [] ∨ Exponent mark) : Ends mark := by
  rcases h with rfl | ⟨he, -, -, -⟩
  · exact fun c hc => by cases hc
  · rcases he with rfl | rfl
    · exact ends_of_cons (by decide) (by decide) _
    · exact ends_of_cons (by decide) (by decide) _

/-- A run of digits that ends the text. -/
theorem digits_eq {ds : List Char} (h : Digits ds) : digits ds = (ds.filterMap digit?, []) := by
  have hread : digits (ds ++ []) = (ds.filterMap digit?, []) :=
    digits_append h fun c hc => by cases hc
  rwa [List.append_nil] at hread

theorem filterMap_digit?_ne_nil {ds : List Char} (h : Digits ds) (hne : ds ≠ []) :
    ds.filterMap digit? ≠ [] := by
  obtain ⟨d, ds, rfl⟩ := List.exists_cons_of_ne_nil hne
  obtain ⟨n, hn⟩ := Option.isSome_iff_exists.mp (h d List.mem_cons_self)
  simp [hn]

theorem exists_exponent (h : mark = [] ∨ Exponent mark) : ∃ e, exponent? mark = some e := by
  rcases h with rfl | @⟨e, s, ds, he, hsign, hds, hne⟩
  · exact ⟨0, rfl⟩
  · obtain ⟨n, ns, hns⟩ := List.exists_cons_of_ne_nil (filterMap_digit?_ne_nil hds hne)
    have hread : digits ds = (n :: ns, []) := by rw [digits_eq hds, hns]
    have hmark : (e == 'e' || e == 'E') = true := by simpa using he
    have hsigned : ∃ sign', sign (s ++ ds) = (sign', ds) := by
      rcases hsign with rfl | rfl | rfl
      · obtain ⟨d, ds, rfl⟩ := List.exists_cons_of_ne_nil hne
        exact ⟨.plus, Opens.sign_cons (.inl (hds d List.mem_cons_self)) ds⟩
      · exact ⟨.plus, rfl⟩
      · exact ⟨.minus, rfl⟩
    obtain ⟨sign', hsign'⟩ := hsigned
    simp only [exponent?, hmark, if_true, hsign', hread]
    cases sign' <;> exact ⟨_, rfl⟩

/-- Every numeral is a decimal: its parts are read where they end. -/
theorem exists_decimal?_of_body (hbody : Body body) (hmark : mark = [] ∨ Exponent mark) :
    ∃ d, decimal? (body ++ mark) = some d := by
  obtain ⟨e, he⟩ := exists_exponent hmark
  have hends := ends_of_mark hmark
  cases hbody with
  | whole hds hne =>
    have hpart : fraction mark = ([], mark) := by
      rcases hmark with rfl | ⟨hmark, -, -, -⟩
      · rfl
      · rcases hmark with rfl | rfl <;> rfl
    have hdigits := filterMap_digit?_ne_nil hds hne
    simp only [decimal?, digits_append hds hends, hpart, he]
    simp [hdigits]
  | @pointed ds part hds hpart hne =>
    have hpoint : Ends ('.' :: (part ++ mark)) := ends_of_cons (by decide) (by decide) _
    have hdigits : ds.filterMap digit? = [] → part.filterMap digit? ≠ [] := by
      intro hnone
      have hpart' := hne.resolve_left fun hds' => filterMap_digit?_ne_nil hds hds' hnone
      exact filterMap_digit?_ne_nil hpart hpart'
    rw [List.append_assoc, List.cons_append]
    simp only [decimal?, digits_append hds hpoint, fraction, digits_append hpart hends, he,
      Bool.and_eq_true, List.isEmpty_iff]
    rw [if_neg fun hnone => hdigits hnone.1 hnone.2]
    exact ⟨_, rfl⟩

theorem isSpacing_of_mem_body (h : Body body) : ∀ c ∈ body, isSpacing c = false := by
  have hdigit {ds : List Char} (hds : Digits ds) : ∀ c ∈ ds, isSpacing c = false :=
    fun c hc => isSpacing_of_isDigit (hds c hc)
  cases h with
  | whole hds => exact hdigit hds
  | pointed hds hpart =>
    have hpoint : isSpacing '.' = false := by decide
    exact List.forall_mem_append.mpr
      ⟨hdigit hds, List.forall_mem_cons.mpr ⟨hpoint, hdigit hpart⟩⟩

theorem isSpacing_of_mem_mark (h : mark = [] ∨ Exponent mark) :
    ∀ c ∈ mark, isSpacing c = false := by
  rcases h with rfl | @⟨e, s, ds, he, hsign, hds, -⟩
  · exact List.forall_mem_nil _
  · have hmark : isSpacing e = false := by rcases he with rfl | rfl <;> decide
    have hs : ∀ c ∈ s, isSpacing c = false := by
      rcases hsign with rfl | rfl | rfl
      · exact List.forall_mem_nil _
      · exact List.forall_mem_singleton.mpr (by decide)
      · exact List.forall_mem_singleton.mpr (by decide)
    have hdigits : ∀ c ∈ ds, isSpacing c = false := fun c hc => isSpacing_of_isDigit (hds c hc)
    exact List.forall_mem_cons.mpr ⟨hmark, List.forall_mem_append.mpr ⟨hs, hdigits⟩⟩

/-- Every word of the lexer's numerals is read, and as a decimal without a sign. -/
theorem exists_number?_of_mem_words {word : List Char} (h : word ∈ Terminal.number.words) :
    ∃ d : Decimal, number? (String.ofList word) = some (d.toFloat .plus) := by
  obtain ⟨body, mark, hbody, hmark, rfl⟩ := mem_words_number.mp h
  obtain ⟨d, hd⟩ := exists_decimal?_of_body hbody hmark
  have htrim : trim isSpacing (body ++ mark) = body ++ mark :=
    trim_eq_self (List.forall_mem_append.mpr
      ⟨isSpacing_of_mem_body hbody, isSpacing_of_mem_mark hmark⟩)
  obtain ⟨c, rest, rfl, hopens⟩ := hbody.exists_opens
  refine ⟨d, ?_⟩
  rw [List.cons_append] at hd htrim
  simp only [number?, String.toList_ofList, List.cons_append, htrim, hopens.sign_cons,
    hopens.word?_cons, hd, Option.map_some]

end Reading

/-- What the parser makes of the token's text agrees with its kind: a number is a magnitude,
and a name is that of a builtin exactly if it is a function. -/
structure Token.Conforms (t : Token) : Prop where
  number : t.kind = .number → ∃ v, Reading.number? t.lexeme = some v ∧ v.isNaN = false ∧
    Arithmetic.signOf v = .plus
  function : t.kind = .function → ∃ f, Builtin.ofName? t.lexeme = some f
  name : t.kind = .name → Builtin.ofName? t.lexeme = none

namespace Lexer

variable {text : String} {tokens : List Token} {t : Token}

/-- Only a name is a function or a name, and which of the two its text decides. -/
theorem Terminal.isSome_ofName? (terminal : Terminal) (lexeme : String) :
    (terminal.kind lexeme = .function → (Builtin.ofName? lexeme).isSome) ∧
      (terminal.kind lexeme = .name → ¬(Builtin.ofName? lexeme).isSome) := by
  rw [isSome_ofName?_iff]
  cases terminal with
  | name =>
    rw [Terminal.kind]
    split <;> simp_all
  | number | plus | minus | star | slash | caret | openBracket | closeBracket =>
    simp [Terminal.kind]

theorem MatchedAt.conforms {cs : List Char} {start : Nat} (h : MatchedAt cs start t) :
    t.Conforms := by
  obtain ⟨terminal, hlongest, hkind⟩ := h.longest
  obtain ⟨hfunction, hname⟩ := terminal.isSome_ofName? t.lexeme
  constructor
  · intro hnumber
    obtain rfl : .number = terminal :=
      Option.some.inj (Terminal.ofKind?_of_kind (hnumber.symm.trans hkind))
    obtain ⟨d, hd⟩ := Reading.exists_number?_of_mem_words hlongest.mem
    rw [String.ofList_toList] at hd
    exact ⟨_, hd, Binary64.isNaN_toFloat .plus d.bits_le, Binary64.signOf_toFloat .plus d.bits_le⟩
  · exact fun h => Option.isSome_iff_exists.mp (hfunction (hkind.symm.trans h))
  · exact fun h => Option.not_isSome_iff_eq_none.mp (hname (hkind.symm.trans h))

theorem conforms_tokenize (h : tokenize text = .ok tokens) (ht : t ∈ tokens) : t.Conforms := by
  obtain ⟨body, hbody, rfl⟩ := tokenize_eq_ok.mp h
  rcases List.mem_append.mp ht with ht | ht
  · obtain ⟨start, -, -, hmatched⟩ := hbody.matched t ht
    exact hmatched.conforms
  · obtain rfl := List.mem_singleton.mp ht
    exact ⟨by simp, by simp, by simp⟩

end Lexer

theorem Token.Conforms.readable {t : Token} (h : t.Conforms) : t.Readable := by
  constructor
  · intro hkind
    obtain ⟨f, hf⟩ := h.function hkind
    rw [hf]
    rfl
  · intro hkind
    obtain ⟨v, hv, -⟩ := h.number hkind
    rw [hv]
    rfl

namespace Parser

variable {label : Label} {tokens : List Token} {error : ParseError}

/-- A list of readable tokens fails for where a token stands and not for what it says. -/
theorem parse_error_of_readable (hread : ∀ t ∈ tokens, t.Readable)
    (h : parse label tokens = .error error) (u : Token) :
    error ≠ .malformedNumber u ∧ error ≠ .unknownFunction u := by
  rcases parse_error_cases h with ⟨before, t, after, s, rfl, -, hstep⟩ | ⟨s, -, hfinish⟩
  · rcases State.step_error hstep with
      ⟨hnot, -⟩ | rfl | rfl | rfl | rfl | ⟨opening, rfl⟩
    · exact absurd (hread t (by simp)) hnot
    all_goals simp
  · rcases State.finish_error hfinish with rfl | ⟨opening, rfl⟩ <;> simp

end Parser

theorem Expr.Canonical.exists_value {e : Expr} {made : Store} (h : e.Canonical made)
    (store : Store) : ∃ v, e.evaluate store = .ok v := by
  rcases Algebra.resolved store e with ⟨v, -, -, hok⟩ | ⟨name, -, hlast, -⟩
  · exact ⟨v, by rw [Expr.evaluate_eq_fold, hok]⟩
  · obtain ⟨l, argument, hmem⟩ := Expr.mem_unknownNames.mp (List.mem_of_getLast? hlast)
    obtain ⟨function, hcallee⟩ := h _ hmem
    cases hcallee

theorem Expr.Canonical.exists_text {e : Expr} {made : Store} (h : e.Canonical made) :
    ∃ text, e.render = .ok text := by
  obtain ⟨text, -, hrender, -⟩ := Expr.exists_render h.writable
  exact ⟨text, hrender⟩

/-- The tokens of a text say what their kinds promise. So no text fails for a number that
cannot be read or for a function that there is none of, and every tree that a text has is
worth something, whatever its variables are worth, and can be written. -/
theorem Rooted.ofText_conforms (text : String) :
    (∀ tokens, tokenize text = .ok tokens → ∀ t ∈ tokens, t.Conforms) ∧
    (∀ label error, Rooted.ofText label text = .error error →
      ∀ t, error ≠ .malformedNumber t ∧ error ≠ .unknownFunction t) ∧
    ∀ label r, Rooted.ofText label text = .ok r →
      (∃ written, r.root.render = .ok written) ∧
        ∀ store, ∃ v, r.root.evaluate store = .ok v := by
  refine ⟨fun tokens h t ht => conforms_tokenize h ht, fun label error h t => ?_, ?_⟩
  · rcases Rooted.ofText_eq_error.mp h with htokens | ⟨tokens, htokens, hparse⟩
    · obtain ⟨position, c, -, rfl⟩ := tokenize_eq_error.mp htokens
      simp
    · exact Parser.parse_error_of_readable
        (fun u hu => (conforms_tokenize htokens hu).readable) (Rooted.ofTokens_eq_error.mp hparse) t
  · intro label r h
    have hcanonical := Rooted.canonical_of_ofText h
    exact ⟨hcanonical.exists_text, hcanonical.exists_value⟩

/-- A digit three of another script stands before the point here. In `2. sin` the function
is blamed, but only for where it stands. -/
theorem Rooted.ofText_conforms_scripts :
    (∃ tokens r, tokenize "\u0663.5e+2*sin x-.5" = .ok tokens ∧ (∀ t ∈ tokens, t.Conforms) ∧
      Rooted.ofText 0 "\u0663.5e+2*sin x-.5" = .ok r ∧ (∃ written, r.root.render = .ok written) ∧
      ∀ store, ∃ v, r.root.evaluate store = .ok v) ∧
    ∃ error, Rooted.ofText 0 "2. sin" = .error error ∧
      ∀ t, error ≠ .malformedNumber t ∧ error ≠ .unknownFunction t := by
  constructor
  · obtain ⟨htokens, -, htree⟩ := Rooted.ofText_conforms "\u0663.5e+2*sin x-.5"
    have hread : tokenize "\u0663.5e+2*sin x-.5" = .ok _ := rfl
    have hbuilt : Rooted.ofText 0 "\u0663.5e+2*sin x-.5" = .ok _ := rfl
    exact ⟨_, _, hread, htokens _ hread, hbuilt, htree 0 _ hbuilt⟩
  · have hfails : Rooted.ofText 0 "2. sin" = .error _ := rfl
    exact ⟨_, hfails, (Rooted.ofText_conforms "2. sin").2.1 0 _ hfails⟩

end Reckoner
