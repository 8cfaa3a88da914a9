import Mathlib.Computability.Language
import Reckoner.Proofs.Lexing

/-!
The terminals of the grammar as languages, written as the regular expressions they are,
and the longest match of a terminal at the beginning of a text. A numeral may have a
point on one side of its digits and an exponent behind them, so a longest match is not
one character class run to its end: an exponent mark that no digits follow is given back,
and so is a point that stands alone. What the lexer cuts off is always the longest match
of one terminal, and where it cuts nothing off no terminal has a match.
-/

namespace Reckoner.Lexer

open Text Computability

def one (p : Char → Bool) : Language Char := {text | ∃ c, p c = true ∧ text = [c]}

def isLetter (c : Char) : Bool := 'A' ≤ c && c ≤ 'Z' || 'a' ≤ c && c ≤ 'z' || c == '_'

def isLetterOrFigure (c : Char) : Bool := isLetter c || '0' ≤ c && c ≤ '9'

/-- Digits with a point before, among or behind them, or none. -/
def bodyWords : Language Char :=
  one isDigit * (one isDigit)∗ * (1 + {['.']}) * (one isDigit)∗ +
    {['.']} * (one isDigit * (one isDigit)∗)

def exponentWords : Language Char :=
  {['e'], ['E']} * (1 + {['+'], ['-']}) * (one isDigit * (one isDigit)∗)

inductive Terminal
  | number
  | name
  | plus
  | minus
  | star
  | slash
  | caret
  | openBracket
  | closeBracket
  deriving DecidableEq

namespace Terminal

def words : Terminal → Language Char
  | number => bodyWords * (1 + exponentWords)
  | name => one isLetter * (one isLetterOrFigure)∗
  | plus => {['+']}
  | minus => {['-']}
  | star => {['*']}
  | slash => {['/']}
  | caret => {['^']}
  | openBracket => {['(']}
  | closeBracket => {[')']}

/-- The kind of token a match becomes: a name is a function if it is the name of a builtin. -/
def kind (lexeme : String) : Terminal → TokenKind
  | number => .number
  | name => if lexeme ∈ Builtin.all.map Builtin.name then .function else .name
  | plus => .plus
  | minus => .minus
  | star => .star
  | slash => .slash
  | caret => .caret
  | openBracket => .openBracket
  | closeBracket => .closeBracket

def ofKind? : TokenKind → Option Terminal
  | .finish => none
  | .number => some number
  | .name => some name
  | .function => some name
  | .plus => some plus
  | .minus => some minus
  | .star => some star
  | .slash => some slash
  | .caret => some caret
  | .openBracket => some openBracket
  | .closeBracket => some closeBracket

theorem ofKind?_of_kind {terminal : Terminal} {lexeme : String} {kind : TokenKind}
    (h : kind = terminal.kind lexeme) : ofKind? kind = some terminal := by
  subst h
  cases terminal with
  | name =>
    rw [Terminal.kind]
    split <;> rfl
  | number | plus | minus | star | slash | caret | openBracket | closeBracket => rfl

end Terminal

structure Longest (terminal : Terminal) (text lexeme : List Char) : Prop where
  mem : lexeme ∈ terminal.words
  begins : lexeme <+: text
  longest : ∀ other ∈ terminal.words, other <+: text → other.length ≤ lexeme.length

section Languages

variable {p : Char → Bool} {text : List Char} {l : Language Char}

theorem mem_kstar_one : text ∈ (one p)∗ ↔ ∀ c ∈ text, p c = true := by
  constructor
  · rintro ⟨pieces, rfl, hpieces⟩ c hc
    obtain ⟨piece, hpiece, hmem⟩ := List.mem_flatten.mp hc
    obtain ⟨d, hd, rfl⟩ := hpieces piece hpiece
    obtain rfl := List.mem_singleton.mp hmem
    exact hd
  · intro h
    refine ⟨text.map fun c => [c], ?_, ?_⟩
    · rw [← List.flatMap_def, List.flatMap_singleton']
    · intro piece hpiece
      obtain ⟨c, hc, rfl⟩ := List.mem_map.mp hpiece
      exact ⟨c, h c hc, rfl⟩

theorem mem_one_mul : text ∈ one p * l ↔ ∃ c rest, p c = true ∧ rest ∈ l ∧ text = c :: rest := by
  rw [Language.mem_mul]
  constructor
  · rintro ⟨_, ⟨c, hc, rfl⟩, rest, hrest, rfl⟩
    exact ⟨c, rest, hc, hrest, rfl⟩
  · rintro ⟨c, rest, hc, hrest, rfl⟩
    exact ⟨[c], ⟨c, hc, rfl⟩, rest, hrest, rfl⟩

/-- The nonempty runs of a class. -/
theorem mem_one_mul_kstar : text ∈ one p * (one p)∗ ↔ text ≠ [] ∧ ∀ c ∈ text, p c = true := by
  simp only [mem_one_mul, mem_kstar_one]
  constructor
  · rintro ⟨c, rest, hc, hrest, rfl⟩
    exact ⟨by simp, List.forall_mem_cons.mpr ⟨hc, hrest⟩⟩
  · rintro ⟨hne, h⟩
    obtain ⟨c, rest, rfl⟩ := List.exists_cons_of_ne_nil hne
    obtain ⟨hc, hrest⟩ := List.forall_mem_cons.mp h
    exact ⟨c, rest, hc, hrest, rfl⟩

theorem mem_single {a : List Char} : text ∈ ({a} : Language Char) ↔ text = a :=
  Iff.rfl

end Languages

def Digits (ds : List Char) : Prop := ∀ d ∈ ds, isDigit d = true

/-- Digits with at most one point among them, and at least one digit. -/
inductive Body : List Char → Prop
  | whole {ds} (hds : Digits ds) (hne : ds ≠ []) : Body ds
  | pointed {ds part} (hds : Digits ds) (hpart : Digits part) (hne : ds ≠ [] ∨ part ≠ []) :
      Body (ds ++ '.' :: part)

inductive Exponent : List Char → Prop
  | of {e sign ds} (he : e = 'e' ∨ e = 'E') (hsign : sign = [] ∨ sign = ['+'] ∨ sign = ['-'])
      (hds : Digits ds) (hne : ds ≠ []) : Exponent (e :: (sign ++ ds))

section Numerals

variable {text : List Char}

theorem mem_digits : text ∈ one isDigit * (one isDigit)∗ ↔ text ≠ [] ∧ Digits text :=
  mem_one_mul_kstar

theorem mem_bodyWords : text ∈ bodyWords ↔ Body text := by
  rw [bodyWords, Language.mem_add]
  constructor
  · rintro (h | h)
    · obtain ⟨_, hfirst, part, hpart, rfl⟩ := Language.mem_mul.mp h
      obtain ⟨ds, hds, point, hpoint, rfl⟩ := Language.mem_mul.mp hfirst
      obtain ⟨hne, hds⟩ := mem_digits.mp hds
      have hpart : Digits part := mem_kstar_one.mp hpart
      rcases hpoint with rfl | rfl
      · rw [List.append_nil]
        refine .whole (List.forall_mem_append.mpr ⟨hds, hpart⟩) ?_
        exact List.append_ne_nil_of_left_ne_nil hne part
      · rw [List.append_assoc]
        exact .pointed hds hpart (.inl hne)
    · obtain ⟨_, rfl, part, hpart, rfl⟩ := Language.mem_mul.mp h
      obtain ⟨hne, hpart⟩ := mem_digits.mp hpart
      have hnone : Digits [] := List.forall_mem_nil _
      exact .pointed hnone hpart (.inr hne)
  · intro h
    have hpoint : ['.'] ∈ (1 + {['.']} : Language Char) := .inr rfl
    cases h with
    | whole hds hne =>
      have hnil : [] ∈ (1 + {['.']} : Language Char) := .inl rfl
      have hnone : [] ∈ (one isDigit)∗ := Language.nil_mem_kstar _
      have hwhole := Language.append_mem_mul (mem_digits.mpr ⟨hne, hds⟩) hnil
      left
      simpa using Language.append_mem_mul hwhole hnone
    | @pointed ds part hds hpart hne =>
      by_cases hempty : ds = []
      · subst hempty
        have hpart := mem_digits.mpr ⟨hne.resolve_left (· rfl), hpart⟩
        exact .inr (Language.append_mem_mul (a := ['.']) (mem_single.mpr rfl) hpart)
      · have hwhole := Language.append_mem_mul (mem_digits.mpr ⟨hempty, hds⟩) hpoint
        left
        simpa using Language.append_mem_mul hwhole (mem_kstar_one.mpr hpart)

theorem mem_exponentWords : text ∈ exponentWords ↔ Exponent text := by
  constructor
  · intro h
    obtain ⟨_, hfirst, ds, hds, rfl⟩ := Language.mem_mul.mp h
    obtain ⟨e, he, sign, hsign, rfl⟩ := Language.mem_mul.mp hfirst
    obtain ⟨hne, hds⟩ := mem_digits.mp hds
    rcases he with rfl | rfl
    · exact .of (.inl rfl) hsign hds hne
    · exact .of (.inr rfl) hsign hds hne
  · rintro @⟨e, sign, ds, he, hsign, hds, hne⟩
    have hmark : [e] ∈ ({['e'], ['E']} : Language Char) := by
      rcases he with rfl | rfl
      · exact .inl rfl
      · exact .inr rfl
    have hsigned := Language.append_mem_mul hmark (m := 1 + {['+'], ['-']}) hsign
    exact Language.append_mem_mul hsigned (mem_digits.mpr ⟨hne, hds⟩)

/-- The numerals by their parts. -/
theorem mem_words_number : text ∈ Terminal.number.words ↔
    ∃ body mark, Body body ∧ (mark = [] ∨ Exponent mark) ∧ text = body ++ mark := by
  rw [Terminal.words, Language.mem_mul]
  simp only [mem_bodyWords, Language.mem_add, Language.mem_one, mem_exponentWords]
  constructor
  · rintro ⟨body, hbody, mark, hmark, rfl⟩
    exact ⟨body, mark, hbody, hmark, rfl⟩
  · rintro ⟨body, mark, hbody, hmark, rfl⟩
    exact ⟨body, hbody, mark, hmark, rfl⟩

def bodyPart (text : List Char) : List Char :=
  text.takeWhile isDigit ++ pointPart (text.drop (text.takeWhile isDigit).length)

theorem pointPart_cases (text : List Char) :
    pointPart text = [] ∨ ∃ rest, text = '.' :: rest ∧
      pointPart text = '.' :: rest.takeWhile isDigit := by
  unfold pointPart
  split
  · exact .inr ⟨_, rfl, rfl⟩
  · exact .inl rfl

theorem pointPart_begins (text : List Char) : pointPart text <+: text := by
  rcases pointPart_cases text with h | ⟨rest, rfl, h⟩
  · rw [h]
    exact List.nil_prefix
  · rw [h]
    exact List.cons_prefix_cons.mpr ⟨rfl, List.takeWhile_prefix _⟩

theorem bodyPart_begins (text : List Char) : bodyPart text <+: text := by
  have hwhole := List.takeWhile_prefix (l := text) isDigit
  have hpoint := pointPart_begins (text.drop (text.takeWhile isDigit).length)
  have happend := (List.prefix_append_right_inj (text.takeWhile isDigit)).mpr hpoint
  rwa [List.prefix_iff_eq_append.mp hwhole] at happend

/-- Nothing, a point, or the beginning of a numeral. -/
theorem bodyPart_cases (text : List Char) :
    bodyPart text = [] ∨ bodyPart text = ['.'] ∨ Body (bodyPart text) := by
  have hwhole : Digits (text.takeWhile isDigit) := List.all_eq_true.mp List.all_takeWhile
  rw [bodyPart]
  rcases pointPart_cases (text.drop (text.takeWhile isDigit).length) with h | ⟨rest, -, h⟩
  · rw [h, List.append_nil]
    by_cases hne : text.takeWhile isDigit = []
    · exact .inl hne
    · exact .inr (.inr (.whole hwhole hne))
  · have hpart : Digits (rest.takeWhile isDigit) := List.all_eq_true.mp List.all_takeWhile
    rw [h]
    by_cases hne : text.takeWhile isDigit ≠ [] ∨ rest.takeWhile isDigit ≠ []
    · exact .inr (.inr (.pointed hwhole hpart hne))
    · obtain ⟨hwhole, hpart⟩ := not_or.mp hne
      rw [not_ne_iff.mp hwhole, not_ne_iff.mp hpart]
      exact .inr (.inl rfl)

theorem Body.exists_digit {body : List Char} (h : Body body) : ∃ d ∈ body, isDigit d = true := by
  cases h with
  | whole hds hne =>
    obtain ⟨d, hd⟩ := List.exists_mem_of_ne_nil _ hne
    exact ⟨d, hd, hds d hd⟩
  | pointed hds hpart hne =>
    rcases hne with hne | hne
    · obtain ⟨d, hd⟩ := List.exists_mem_of_ne_nil _ hne
      exact ⟨d, List.mem_append_left _ hd, hds d hd⟩
    · obtain ⟨d, hd⟩ := List.exists_mem_of_ne_nil _ hne
      exact ⟨d, List.mem_append_right _ (List.mem_cons_of_mem _ hd), hpart d hd⟩

theorem Digits.takeWhile_append {ds : List Char} (h : Digits ds) (rest : List Char) :
    (ds ++ rest).takeWhile isDigit = ds ++ rest.takeWhile isDigit :=
  List.takeWhile_append_of_pos h

theorem bodyPart_pointed {ds : List Char} (h : Digits ds) (rest : List Char) :
    bodyPart (ds ++ '.' :: rest) = ds ++ '.' :: rest.takeWhile isDigit := by
  have hpoint : isDigit '.' = false := by decide
  have hwhole : (ds ++ '.' :: rest).takeWhile isDigit = ds := by
    simp [h.takeWhile_append, hpoint]
  rw [bodyPart, hwhole, List.drop_left, pointPart]

theorem Body.prefix_bodyPart {body : List Char} (h : Body body) (rest : List Char) :
    body <+: bodyPart (body ++ rest) := by
  cases h with
  | whole hds hne =>
    rw [bodyPart, hds.takeWhile_append, List.append_assoc]
    exact List.prefix_append _ _
  | @pointed ds part hds hpart hne =>
    rw [List.append_assoc, List.cons_append, bodyPart_pointed hds, hpart.takeWhile_append]
    exact ⟨rest.takeWhile isDigit, by simp⟩

/-- Nothing goes on a body before a character that is neither a digit nor a point. -/
theorem Body.bodyPart_append_cons {body rest : List Char} {c : Char} (h : Body body)
    (hdigit : isDigit c = false) (hpoint : c ≠ '.') : bodyPart (body ++ c :: rest) = body := by
  have hnone : (c :: rest).takeWhile isDigit = [] := by simp [hdigit]
  cases h with
  | whole hds hne =>
    have hpart : pointPart (c :: rest) = [] := pointPart_of_head? fun d hd => by
      obtain rfl := Option.some.inj hd
      exact hpoint
    rw [bodyPart, hds.takeWhile_append, hnone, List.append_nil, List.drop_left, hpart,
      List.append_nil]
  | pointed hds hpart hne =>
    rw [List.append_assoc, List.cons_append, bodyPart_pointed hds, hpart.takeWhile_append, hnone,
      List.append_nil]

theorem Exponent.cases_head {mark : List Char} (h : Exponent mark) :
    ∃ e rest, mark = e :: rest ∧ isDigit e = false ∧ e ≠ '.' := by
  obtain ⟨he, -, -, -⟩ := h
  refine ⟨_, _, rfl, ?_⟩
  rcases he with rfl | rfl <;> decide

theorem Exponent.prefix_exponentPart {mark : List Char} (h : Exponent mark) (rest : List Char) :
    mark <+: exponentPart (mark ++ rest) := by
  obtain @⟨e, sign, ds, he, hsign, hds, hne⟩ := h
  obtain ⟨d, ds, rfl⟩ := List.exists_cons_of_ne_nil hne
  have hd : isDigit d = true := hds d List.mem_cons_self
  have hplus : d ≠ '+' := by
    rintro rfl
    exact absurd hd (by decide)
  have hminus : d ≠ '-' := by
    rintro rfl
    exact absurd hd (by decide)
  have htake : ((sign ++ (d :: ds ++ rest)).take 1).filter
      (fun s => s == '+' || s == '-') = sign := by
    rcases hsign with rfl | rfl | rfl <;> simp [hplus, hminus]
  have hmark : (e == 'e' || e == 'E') = true := by simpa using he
  have hdigits := hds.takeWhile_append rest
  simp only [List.cons_append, List.append_assoc, exponentPart, hmark, if_true] at *
  rw [htake, List.drop_left, hdigits]
  exact ⟨rest.takeWhile isDigit, by simp⟩

theorem exponentPart_cases (text : List Char) :
    exponentPart text = [] ∨ Exponent (exponentPart text) ∧ exponentPart text <+: text := by
  fun_cases exponentPart text with
  | case1 => exact .inl rfl
  | case2 => exact .inl rfl
  | case3 c rest he sign digits hne =>
    have hsign : (sign = [] ∨ sign = ['+'] ∨ sign = ['-']) ∧ sign <+: rest := by
      cases rest with
      | nil => simp [sign]
      | cons d rest => by_cases hplus : d = '+' <;> by_cases hminus : d = '-' <;> simp_all [sign]
    have hdigits : Digits digits := List.all_eq_true.mp List.all_takeWhile
    have hbegins : sign ++ digits <+: rest := by
      rw [← List.prefix_iff_eq_append.mp hsign.2, List.prefix_append_right_inj]
      exact List.takeWhile_prefix isDigit
    right
    exact ⟨.of (by simpa using he) hsign.1 hdigits (by simpa using hne),
      List.cons_prefix_cons.mpr ⟨rfl, hbegins⟩⟩
  | case4 => exact .inl rfl

theorem numeral_of_body (h : Body (bodyPart text)) :
    numeral text = bodyPart text ++ exponentPart (text.drop (bodyPart text).length) := by
  have hlong : text.takeWhile isDigit = [] →
      1 < (pointPart (text.drop (text.takeWhile isDigit).length)).length := by
    intro hwhole
    obtain ⟨d, hd, hdigit⟩ := h.exists_digit
    rw [bodyPart, hwhole, List.nil_append] at hd
    rw [hwhole]
    rcases pointPart_cases (text.drop ([] : List Char).length) with hpart | ⟨rest, -, hpart⟩
    · rw [hpart] at hd
      exact absurd hd List.not_mem_nil
    · rw [hpart] at hd ⊢
      rcases List.mem_cons.mp hd with rfl | hd
      · exact absurd hdigit (by decide)
      · have := List.length_pos_of_mem hd
        simpa using this
  rw [numeral, if_neg]
  · rfl
  · simpa using hlong

theorem numeral_of_no_body (h : bodyPart text = [] ∨ bodyPart text = ['.']) :
    numeral text = [] := by
  have hwhole : text.takeWhile isDigit = [] := by
    rw [List.eq_nil_iff_forall_not_mem]
    intro d hd
    have hdigit : isDigit d = true := List.all_eq_true.mp List.all_takeWhile d hd
    have hmem : d ∈ bodyPart text := List.mem_append_left _ hd
    rcases h with h | h
    · simp [h] at hmem
    · obtain rfl : d = '.' := by simpa [h] using hmem
      exact absurd hdigit (by decide)
  have hpart : (pointPart text).length ≤ 1 := by
    simp only [bodyPart, hwhole, List.nil_append, List.length_nil, List.drop_zero] at h
    rcases h with h | h <;> simp [h]
  simp [numeral, hwhole, hpart]

/-- What is cut off as a numeral is one. -/
theorem numeral_mem (h : numeral text ≠ []) :
    numeral text ∈ Terminal.number.words ∧ numeral text <+: text := by
  rcases bodyPart_cases text with hbody | hbody | hbody
  · exact absurd (numeral_of_no_body (.inl hbody)) h
  · exact absurd (numeral_of_no_body (.inr hbody)) h
  · have hbegins := List.prefix_iff_eq_append.mp (bodyPart_begins text)
    rw [numeral_of_body hbody]
    rcases exponentPart_cases (text.drop (bodyPart text).length) with hmark | ⟨hmark, hprefix⟩
    · rw [hmark, List.append_nil]
      exact ⟨mem_words_number.mpr ⟨_, [], hbody, .inl rfl, (List.append_nil _).symm⟩,
        bodyPart_begins text⟩
    · refine ⟨mem_words_number.mpr ⟨_, _, hbody, .inr hmark, rfl⟩, ?_⟩
      have happend := (List.prefix_append_right_inj (bodyPart text)).mpr hprefix
      rwa [hbegins] at happend

/-- A numeral at the beginning is part of the one that is cut off: with an exponent its
body ends at the mark, and without one nothing has to be given back. -/
theorem prefix_numeral {word : List Char} (hword : word ∈ Terminal.number.words)
    (hbegins : word <+: text) : word <+: numeral text := by
  obtain ⟨body, mark, hbody, hmark, rfl⟩ := mem_words_number.mp hword
  obtain ⟨rest, rfl⟩ := hbegins
  have hfound : Body (bodyPart (body ++ mark ++ rest)) := by
    have hprefix := hbody.prefix_bodyPart (mark ++ rest)
    obtain ⟨d, hd, hdigit⟩ := hbody.exists_digit
    have hmem := hprefix.subset hd
    rw [← List.append_assoc] at hmem
    rcases bodyPart_cases (body ++ mark ++ rest) with h | h | h
    · rw [h] at hmem
      exact absurd hmem List.not_mem_nil
    · rw [h] at hmem
      obtain rfl := List.mem_singleton.mp hmem
      exact absurd hdigit (by decide)
    · exact h
  rw [numeral_of_body hfound]
  rcases hmark with rfl | hmark
  · rw [List.append_nil]
    exact (hbody.prefix_bodyPart rest).trans (List.prefix_append _ _)
  · have hexponent := hmark.prefix_exponentPart rest
    obtain ⟨e, after, rfl, hdigit, hpoint⟩ := hmark.cases_head
    have hwhole : bodyPart (body ++ (e :: after) ++ rest) = body := by
      rw [List.append_assoc, List.cons_append, hbody.bodyPart_append_cons hdigit hpoint]
    rw [hwhole, List.append_assoc, List.drop_left]
    exact (List.prefix_append_right_inj body).mpr hexponent

end Numerals

section Names

variable {text : List Char}

theorem isLetter_eq (c : Char) : isLetter c = isNameStart c := by
  simp [isLetter, isNameStart, Char.isAlpha, Char.isUpper, Char.isLower, Char.le_def]

theorem isLetterOrFigure_eq (c : Char) : isLetterOrFigure c = isNamePart c := by
  rw [isLetterOrFigure, isLetter_eq, isNameStart, isNamePart, Char.isAlphanum, Bool.or_right_comm]
  rfl

theorem mem_words_name : text ∈ Terminal.name.words ↔
    ∃ c rest, isNameStart c = true ∧ (∀ d ∈ rest, isNamePart d = true) ∧ text = c :: rest := by
  simp only [Terminal.words, mem_one_mul, mem_kstar_one, isLetter_eq, isLetterOrFigure_eq]

theorem name_mem (h : name text ≠ []) : name text ∈ Terminal.name.words ∧ name text <+: text := by
  fun_cases name text with
  | case1 => exact absurd rfl h
  | case2 c rest hc =>
    exact ⟨mem_words_name.mpr ⟨c, _, hc, List.all_eq_true.mp List.all_takeWhile, rfl⟩,
      List.cons_prefix_cons.mpr ⟨rfl, List.takeWhile_prefix _⟩⟩
  | case3 c rest hc => simp [name, hc] at h

theorem prefix_name {word : List Char} (hword : word ∈ Terminal.name.words)
    (hbegins : word <+: text) : word <+: name text := by
  obtain ⟨c, part, hc, hpart, rfl⟩ := mem_words_name.mp hword
  obtain ⟨rest, rfl⟩ := hbegins
  rw [List.cons_append, name, if_pos hc, List.takeWhile_append_of_pos hpart]
  exact List.cons_prefix_cons.mpr ⟨rfl, List.prefix_append _ _⟩

end Names

def Terminal.ofFirst? (c : Char) : Option Terminal :=
  if Reading.Opens c then some number
  else if isNameStart c then some name
  else
    match c with
    | '+' => some plus
    | '-' => some minus
    | '*' => some star
    | '/' => some slash
    | '^' => some caret
    | '(' => some openBracket
    | ')' => some closeBracket
    | _ => none

section Longest

variable {c : Char} {text word lexeme : List Char} {terminal : Terminal} {kind : TokenKind}

theorem not_opens_of_isNameStart (h : isNameStart c = true) : ¬ Reading.Opens c := by
  intro hopens
  have hrange := hopens.toNat_range
  simp only [isNameStart, Char.isAlpha, Char.isUpper, Char.isLower, Bool.or_eq_true,
    Bool.and_eq_true, decide_eq_true_eq, beq_iff_eq] at h
  rcases h with (⟨hlow, hhigh⟩ | ⟨hlow, hhigh⟩) | rfl
  · have hlow : 65 ≤ c.toNat := hlow
    have hhigh : c.toNat ≤ 90 := hhigh
    omega
  · have hlow : 97 ≤ c.toNat := hlow
    have hhigh : c.toNat ≤ 122 := hhigh
    omega
  · exact absurd hrange (by decide)

theorem Body.exists_opens (h : Body text) : ∃ c rest, text = c :: rest ∧ Reading.Opens c := by
  cases h with
  | whole hds hne =>
    obtain ⟨d, ds, rfl⟩ := List.exists_cons_of_ne_nil hne
    exact ⟨d, ds, rfl, .inl (hds d List.mem_cons_self)⟩
  | @pointed ds part hds hpart hne =>
    cases ds with
    | nil => exact ⟨'.', part, rfl, .inr rfl⟩
    | cons d ds => exact ⟨d, _, rfl, .inl (hds d List.mem_cons_self)⟩

theorem ofFirst?_of_mem (h : word ∈ terminal.words) :
    ∃ c rest, word = c :: rest ∧ Terminal.ofFirst? c = some terminal := by
  cases terminal with
  | number =>
    obtain ⟨body, mark, hbody, -, rfl⟩ := mem_words_number.mp h
    obtain ⟨c, rest, rfl, hc⟩ := hbody.exists_opens
    exact ⟨c, rest ++ mark, rfl, if_pos hc⟩
  | name =>
    obtain ⟨c, rest, hc, -, rfl⟩ := mem_words_name.mp h
    refine ⟨c, rest, rfl, ?_⟩
    unfold Terminal.ofFirst?
    rw [if_neg (not_opens_of_isNameStart hc), if_pos hc]
  | _ =>
    obtain rfl := mem_single.mp h
    exact ⟨_, [], rfl, by decide⟩

theorem ofFirst?_of_begins (h : word ∈ terminal.words) (hbegins : word <+: text) :
    text.head?.bind Terminal.ofFirst? = some terminal := by
  obtain ⟨c, part, rfl, hc⟩ := ofFirst?_of_mem h
  obtain ⟨rest, rfl⟩ := hbegins
  exact hc

/-- Of two longest matches at the same place there is only one. -/
theorem Longest.unique {other : List Char} {terminal' : Terminal}
    (h : Longest terminal text lexeme) (h' : Longest terminal' text other) :
    terminal = terminal' ∧ lexeme = other := by
  have hfirst := ofFirst?_of_begins h.mem h.begins
  rw [ofFirst?_of_begins h'.mem h'.begins, Option.some_inj] at hfirst
  subst hfirst
  have hlength := Nat.le_antisymm (h'.longest lexeme h.mem h.begins)
    (h.longest other h'.mem h'.begins)
  exact ⟨rfl, (List.prefix_of_prefix_length_le h.begins h'.begins hlength.le).eq_of_length hlength⟩

theorem Longest.ne_nil (h : Longest terminal text lexeme) : lexeme ≠ [] := by
  obtain ⟨c, rest, rfl, -⟩ := ofFirst?_of_mem h.mem
  exact List.cons_ne_nil c rest

theorem longest_single (h : ∀ word, word ∈ terminal.words ↔ word = [c]) (rest : List Char) :
    Longest terminal (c :: rest) [c] := by
  refine ⟨(h _).mpr rfl, ⟨rest, rfl⟩, fun other hother _ => ?_⟩
  rw [(h other).mp hother]

theorem longest_of_symbol? (h : symbol? c = some kind) (rest : List Char) :
    ∃ terminal : Terminal, Longest terminal (c :: rest) [c] ∧
      ∀ lexeme, terminal.kind lexeme = kind := by
  unfold symbol? at h
  split at h
  case h_8 => simp at h
  all_goals obtain rfl := Option.some.inj h
  · exact ⟨.plus, longest_single (fun _ => mem_single) rest, fun _ => rfl⟩
  · exact ⟨.minus, longest_single (fun _ => mem_single) rest, fun _ => rfl⟩
  · exact ⟨.star, longest_single (fun _ => mem_single) rest, fun _ => rfl⟩
  · exact ⟨.slash, longest_single (fun _ => mem_single) rest, fun _ => rfl⟩
  · exact ⟨.caret, longest_single (fun _ => mem_single) rest, fun _ => rfl⟩
  · exact ⟨.openBracket, longest_single (fun _ => mem_single) rest, fun _ => rfl⟩
  · exact ⟨.closeBracket, longest_single (fun _ => mem_single) rest, fun _ => rfl⟩

theorem longest_name (h : name text ≠ []) : Longest .name text (name text) :=
  ⟨(name_mem h).1, (name_mem h).2, fun _ hother hbegins => (prefix_name hother hbegins).length_le⟩

theorem longest_numeral (h : numeral text ≠ []) : Longest .number text (numeral text) :=
  ⟨(numeral_mem h).1, (numeral_mem h).2,
    fun _ hother hbegins => (prefix_numeral hother hbegins).length_le⟩

theorem isSome_ofName?_iff {n : String} :
    (Builtin.ofName? n).isSome = true ↔ n ∈ Builtin.all.map Builtin.name := by
  rw [Builtin.ofName?, List.find?_isSome, List.mem_map]
  simp

theorem nameKind_eq (lexeme : List Char) :
    nameKind lexeme = Terminal.name.kind (String.ofList lexeme) := by
  simp only [nameKind, Terminal.kind, isSome_ofName?_iff]

/-- What is cut off is the longest match of a terminal. -/
theorem exists_longest_of_lexeme? (h : lexeme? text = some (kind, lexeme)) :
    ∃ terminal : Terminal, Longest terminal text lexeme ∧
      kind = terminal.kind (String.ofList lexeme) := by
  rw [lexeme?] at h
  split at h
  · rename_i hsymbol
    obtain ⟨rfl, rfl⟩ := Prod.mk.inj (Option.some.inj h)
    obtain ⟨c, hc, hkind⟩ := Option.bind_eq_some_iff.mp hsymbol
    obtain ⟨rest, rfl⟩ := List.head?_eq_some_iff.mp hc
    obtain ⟨terminal, hlongest, hterminal⟩ := longest_of_symbol? hkind rest
    exact ⟨terminal, hlongest, (hterminal _).symm⟩
  split at h
  · rename_i hname
    obtain ⟨rfl, rfl⟩ := Prod.mk.inj (Option.some.inj h)
    exact ⟨.name, longest_name hname, nameKind_eq _⟩
  split at h
  · rename_i hnumeral
    obtain ⟨rfl, rfl⟩ := Prod.mk.inj (Option.some.inj h)
    exact ⟨.number, longest_numeral hnumeral, rfl⟩
  · simp at h

theorem not_prefix_of_lexeme?_eq_none (h : lexeme? text = none) (hword : word ∈ terminal.words) :
    ¬ word <+: text := by
  intro hbegins
  rw [lexeme?] at h
  split at h
  · simp at h
  rename_i hsymbol
  split at h
  · simp at h
  rename_i hname
  split at h
  · simp at h
  rename_i hnumeral
  obtain ⟨c, part, rfl, -⟩ := ofFirst?_of_mem hword
  cases terminal with
  | number =>
    have hpart := prefix_numeral hword hbegins
    rw [not_not.mp hnumeral] at hpart
    exact List.cons_ne_nil c part (List.prefix_nil.mp hpart)
  | name =>
    have hpart := prefix_name hword hbegins
    rw [not_not.mp hname] at hpart
    exact List.cons_ne_nil c part (List.prefix_nil.mp hpart)
  | _ =>
    obtain ⟨rfl, rfl⟩ := List.cons.inj (mem_single.mp hword)
    obtain ⟨rest, rfl⟩ := hbegins
    simp [symbol?] at hsymbol

/-- A place has a lexeme if and only if some terminal has a match there. -/
theorem lexeme?_eq_none_iff :
    lexeme? text = none ↔ ∀ terminal : Terminal, ∀ word ∈ terminal.words, ¬ word <+: text := by
  constructor
  · intro h terminal word hword
    exact not_prefix_of_lexeme?_eq_none h hword
  · intro h
    rw [Option.eq_none_iff_forall_ne_some]
    rintro ⟨kind, lexeme⟩ hlexeme
    obtain ⟨terminal, hlongest, -⟩ := exists_longest_of_lexeme? hlexeme
    exact h terminal lexeme hlongest.mem hlongest.begins

theorem lexeme?_eq_some_iff :
    lexeme? text = some (kind, lexeme) ↔
      ∃ terminal : Terminal, Longest terminal text lexeme ∧
        kind = terminal.kind (String.ofList lexeme) := by
  constructor
  · exact exists_longest_of_lexeme?
  · rintro ⟨terminal, hlongest, rfl⟩
    cases hfound : lexeme? text with
    | none => exact absurd hlongest.begins (not_prefix_of_lexeme?_eq_none hfound hlongest.mem)
    | some found =>
      obtain ⟨kind, other⟩ := found
      obtain ⟨terminal', hother, rfl⟩ := exists_longest_of_lexeme? hfound
      obtain ⟨rfl, rfl⟩ := hlongest.unique hother
      rfl

end Longest

end Reckoner.Lexer
