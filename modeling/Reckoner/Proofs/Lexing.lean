import Reckoner.Proofs.Grammar.Productions
import Reckoner.Proofs.Number.Written

/-!
Texts that are read as words. A piece of text is read as the same symbols wherever it
stands, as long as what follows cannot go on the numeral or the name it ends with. The
other way round, the names and the numerals in the tokens of a text are of the form
that is written.
-/

namespace Reckoner

namespace Lexer

/-- The text is read as the word, and reading goes on after it. -/
def Lexes (text : List Char) (word : List Symbol) : Prop :=
  ∀ (rest : List Char) (position : Nat), Stops rest →
    ∃ tokens, Spells tokens word ∧
      scan position 0 (text ++ rest) =
        (scan (position + text.length) 0 rest).map (tokens ++ ·)

variable {c : Char} {text text' rest cs : List Char} {word word' : List Symbol} {kind : TokenKind}

theorem scan_passing (position : Nat) (passed rest : List Char) :
    scan position passed.length (passed ++ rest) = scan (position + passed.length) 0 rest := by
  induction passed generalizing position with
  | nil => rfl
  | cons c passed ih =>
    rw [List.length_cons, List.cons_append, scan, ih]
    congr 1
    omega

theorem scan_lexeme (position : Nat) (hlayout : Text.isLayout c = false)
    (h : lexeme? (c :: cs ++ rest) = some (kind, c :: cs)) :
    scan position 0 (c :: cs ++ rest) =
      (scan (position + (c :: cs).length) 0 rest).map
        (⟨kind, String.ofList (c :: cs), position⟩ :: ·) := by
  have hpassing := scan_passing (position + 1) cs rest
  rw [List.cons_append] at h
  simp only [List.cons_append, scan, hlayout, h, Bool.false_eq_true, if_false, List.length_cons,
    Nat.add_sub_cancel, hpassing]
  rw [show position + 1 + cs.length = position + (cs.length + 1) by omega]
  cases scan (position + (cs.length + 1)) 0 rest <;> rfl

theorem lexes_layout (hc : Text.isLayout c = true) (h : Lexes text word) :
    Lexes (c :: text) word := by
  intro rest position hrest
  obtain ⟨tokens, hword, hscan⟩ := h rest (position + 1) hrest
  refine ⟨tokens, hword, ?_⟩
  rw [List.cons_append, scan, if_pos hc, hscan, List.length_cons]
  congr 2
  omega

theorem isLayout_of_symbol? (h : symbol? c = some kind) : Text.isLayout c = false := by
  unfold symbol? at h
  split at h <;> first | decide | simp at h

/-- A symbol of one character stands before any text. -/
theorem lexes_symbol {symbol : Symbol} (hc : symbol? c = some kind)
    (hsymbol : ∀ position, (⟨kind, String.ofList [c], position⟩ : Token).symbol? = some symbol)
    (h : Lexes text word) : Lexes (c :: text) (symbol :: word) := by
  intro rest position hrest
  obtain ⟨tokens, hword, hscan⟩ := h rest (position + 1) hrest
  have hlexeme : lexeme? (c :: [] ++ (text ++ rest)) = some (kind, [c]) := by
    simp [lexeme?, hc]
  have hfirst := scan_lexeme position (isLayout_of_symbol? hc) hlexeme
  refine ⟨_, Spells.cons_iff.mpr ⟨_, tokens, rfl, hsymbol position, hword⟩, ?_⟩
  simp only [List.cons_append, List.nil_append, List.length_singleton] at hfirst
  rw [List.cons_append, hfirst, hscan, List.length_cons,
    show position + 1 + text.length = position + (text.length + 1) by omega]
  cases scan (position + (text.length + 1)) 0 rest <;> rfl

theorem Lexes.append (h : Lexes text word) (h' : Lexes text' word') (hne : text' ≠ [])
    (hstops : Stops text') : Lexes (text ++ text') (word ++ word') := by
  intro rest position hrest
  have hnext : Stops (text' ++ rest) := by
    intro c hc
    apply hstops c
    cases text' with
    | nil => exact absurd rfl hne
    | cons d text' => exact hc
  obtain ⟨first, hfirst, hscanFirst⟩ := h (text' ++ rest) position hnext
  obtain ⟨last, hlast, hscanLast⟩ := h' rest (position + text.length) hrest
  refine ⟨first ++ last, hfirst.append hlast, ?_⟩
  rw [List.append_assoc, hscanFirst, hscanLast, List.length_append, ← Nat.add_assoc]
  cases scan (position + text.length + text'.length) 0 rest with
  | error e => rfl
  | ok tokens => exact congrArg Except.ok (List.append_assoc ..).symm

/-- A lexeme that is no symbol is taken whole where nothing goes on it. -/
theorem lexes_lexeme {symbol : Symbol} (kind : TokenKind) (hlayout : Text.isLayout c = false)
    (hlexeme : ∀ rest, Stops rest → lexeme? (c :: cs ++ rest) = some (kind, c :: cs))
    (hsymbol : ∀ position,
      (⟨kind, String.ofList (c :: cs), position⟩ : Token).symbol? = some symbol) :
    Lexes (c :: cs) [symbol] := by
  intro rest position hrest
  refine ⟨[_], Spells.cons_iff.mpr ⟨_, [], rfl, hsymbol position, Spells.nil_iff.mpr rfl⟩, ?_⟩
  rw [scan_lexeme position hlayout (hlexeme rest hrest)]
  rfl

theorem toNat_of_isNamePart (h : isNamePart c = true) : 48 ≤ c.toNat := by
  simp only [isNamePart, Char.isAlphanum, Char.isAlpha, Char.isUpper, Char.isLower, Char.isDigit,
    Bool.or_eq_true, Bool.and_eq_true, decide_eq_true_eq, beq_iff_eq] at h
  rcases h with ((⟨h, -⟩ | ⟨h, -⟩) | ⟨h, -⟩) | rfl
  · exact Nat.le_trans (by decide) (show 65 ≤ c.toNat from h)
  · exact Nat.le_trans (by decide) (show 97 ≤ c.toNat from h)
  · exact h
  · decide

theorem isNamePart_of_isNameStart (h : isNameStart c = true) : isNamePart c = true := by
  simp only [isNameStart, isNamePart, Char.isAlphanum, Bool.or_eq_true] at h ⊢
  rcases h with h | h
  · exact .inl (.inl h)
  · exact .inr h

theorem isLayout_of_isNamePart (h : isNamePart c = true) : Text.isLayout c = false := by
  have hc := toNat_of_isNamePart h
  rw [Bool.eq_false_iff]
  intro hlayout
  simp only [Text.isLayout, Bool.or_eq_true, beq_iff_eq] at hlayout
  rcases hlayout with (((rfl | rfl) | rfl) | rfl) | rfl <;> exact absurd hc (by decide)

theorem symbol?_of_isNamePart (h : isNamePart c = true) : symbol? c = none := by
  unfold symbol?
  split <;> first | rfl | exact absurd h (by decide)

def IsName (n : String) : Prop :=
  ∃ c cs, n.toList = c :: cs ∧ isNameStart c = true ∧ ∀ d ∈ cs, isNamePart d = true

theorem name_append (hc : isNameStart c = true) (hcs : ∀ d ∈ cs, isNamePart d = true)
    (hrest : Stops rest) : name (c :: cs ++ rest) = c :: cs := by
  have htake : (cs ++ rest).takeWhile isNamePart = cs := by
    rw [List.takeWhile_append_of_pos hcs]
    cases rest with
    | nil => simp
    | cons d rest => simp [(hrest d (by simp)).2.2]
  simp [name, hc, htake]

theorem isName_builtin (function : Builtin) : IsName function.name := by
  cases function <;> exact ⟨_, _, rfl, by decide, List.all_eq_true.mp (by decide)⟩

theorem lexes_name_of_kind {n : String} {symbol : Symbol} (h : IsName n)
    (hsymbol : ∀ position, (⟨nameKind n.toList, n, position⟩ : Token).symbol? = some symbol) :
    Lexes n.toList [symbol] := by
  obtain ⟨c, cs, hn, hc, hcs⟩ := h
  have hpart := isNamePart_of_isNameStart hc
  rw [hn] at hsymbol ⊢
  apply lexes_lexeme (nameKind (c :: cs)) (isLayout_of_isNamePart hpart)
  · intro rest hrest
    have hname := name_append hc hcs hrest
    rw [List.cons_append] at hname
    simp [lexeme?, symbol?_of_isNamePart hpart, hname]
  · rwa [← hn, String.ofList_toList, hn]

theorem lexes_name {n : String} (h : IsName n) (hfunction : Builtin.ofName? n = none) :
    Lexes n.toList [.name n] :=
  lexes_name_of_kind h fun _ => by simp [nameKind, hfunction, Token.symbol?]

theorem lexes_function (function : Builtin) :
    Lexes function.name.toList [.function function] :=
  lexes_name_of_kind (isName_builtin function) fun _ => by
    simp [nameKind, Builtin.ofName?_name, Token.symbol?]

theorem lexes_number {w : Written} (h : w.Plain) :
    Lexes w.text [.number (w.decimal.toFloat .plus)] := by
  have hread := Written.number?_text h
  obtain ⟨c, cs, hcons, hfigure⟩ := Written.text_eq_cons h
  have hpart : isNamePart c = true := by simp [isNamePart, Char.isAlphanum, hfigure]
  have hstart : isNameStart c = false := by
    rw [Bool.eq_false_iff]
    intro hstart
    simp only [Char.isDigit, Bool.and_eq_true, decide_eq_true_eq] at hfigure
    have hhigh : c.toNat ≤ 57 := hfigure.2
    simp only [isNameStart, Char.isAlpha, Char.isUpper, Char.isLower, Bool.or_eq_true,
      Bool.and_eq_true, decide_eq_true_eq, beq_iff_eq] at hstart
    rcases hstart with (⟨hlow, -⟩ | ⟨hlow, -⟩) | rfl
    · have hlow' : 65 ≤ c.toNat := hlow
      omega
    · have hlow' : 97 ≤ c.toNat := hlow
      omega
    · exact absurd hhigh (by decide)
  rw [hcons] at hread ⊢
  apply lexes_lexeme .number (isLayout_of_isNamePart hpart)
  · intro rest hrest
    have hnumeral := Written.numeral_text h hrest
    rw [hcons, List.cons_append] at hnumeral
    simp [lexeme?, symbol?_of_isNamePart hpart, name, hstart, hnumeral]
  · intro position
    simp only [Token.symbol?, hread, Option.map_some]

/-- A text that is read as a word has the tokens of the word, then the end. -/
theorem Lexes.tokenize {text : String} (h : Lexes text.toList word) :
    ∃ tokens, Spells tokens word ∧
      Lexer.tokenize text = .ok (tokens ++ [⟨.finish, "", text.toList.length⟩]) := by
  obtain ⟨tokens, hword, hscan⟩ := h [] 0 (by simp [Stops])
  refine ⟨tokens, hword, ?_⟩
  rw [List.append_nil, Nat.zero_add] at hscan
  rw [Lexer.tokenize, hscan]
  rfl

end Lexer

/-- A number of a text has no sign, and a name of a text is no function. -/
def Symbol.Written : Symbol → Prop
  | number v => v.isNaN = false ∧ Arithmetic.signOf v = .plus
  | name n => Lexer.IsName n ∧ Builtin.ofName? n = none
  | _ => True

namespace Lexer

variable {c : Char} {text : List Char} {word : List Symbol} {kind : TokenKind}

def Read (t : Token) : Prop :=
  (t.kind = .number → ∃ cs, numeral cs ≠ [] ∧ t.lexeme = String.ofList (numeral cs)) ∧
  (t.kind = .name → IsName t.lexeme ∧ Builtin.ofName? t.lexeme = none)

theorem symbol?_kind (h : symbol? c = some kind) : kind ≠ .number ∧ kind ≠ .name := by
  unfold symbol? at h
  split at h <;> simp at h <;> subst h <;> decide

theorem isName_name (h : name text ≠ []) : IsName (String.ofList (name text)) := by
  cases text with
  | nil => exact absurd rfl h
  | cons c cs =>
    cases hc : isNameStart c with
    | false => simp [name, hc] at h
    | true =>
      refine ⟨c, cs.takeWhile isNamePart, by simp [name, hc], hc, fun d hd => ?_⟩
      exact List.all_eq_true.mp List.all_takeWhile d hd

theorem read_lexeme {lexeme : List Char} (h : lexeme? text = some (kind, lexeme)) (position : Int) :
    Read ⟨kind, String.ofList lexeme, position⟩ := by
  simp only [lexeme?] at h
  split at h
  · rename_i hsymbol
    obtain ⟨rfl, rfl⟩ := Prod.mk.inj (Option.some.inj h)
    obtain ⟨c, -, hc⟩ := Option.bind_eq_some_iff.mp hsymbol
    obtain ⟨hnumber, hname⟩ := symbol?_kind hc
    exact ⟨fun h => absurd h hnumber, fun h => absurd h hname⟩
  split at h
  · rename_i hname
    obtain ⟨rfl, rfl⟩ := Prod.mk.inj (Option.some.inj h)
    constructor
    · intro hkind
      simp only [nameKind] at hkind
      split at hkind <;> simp at hkind
    · intro hkind
      refine ⟨isName_name hname, ?_⟩
      simp only [nameKind] at hkind
      split at hkind
      · simp at hkind
      · rename_i hfunction
        simpa using hfunction
  split at h
  · rename_i hnumeral
    obtain ⟨rfl, rfl⟩ := Prod.mk.inj (Option.some.inj h)
    exact ⟨fun _ => ⟨text, hnumeral, rfl⟩, by simp⟩
  · simp at h

theorem read_scan {position passing : Nat} {tokens : List Token}
    (h : scan position passing text = .ok tokens) : ∀ t ∈ tokens, Read t := by
  fun_induction scan position passing text generalizing tokens with
  | case1 position passing =>
    obtain rfl := Except.ok.inj h
    simp [Read]
  | case2 position c rest passing ih => exact ih h
  | case3 position c rest hlayout ih => exact ih h
  | case4 => simp at h
  | case5 position c rest hlayout kind lexeme hlexeme scanned hscan ih =>
    obtain rfl := Except.ok.inj h
    intro t ht
    rcases List.mem_cons.mp ht with rfl | ht
    · exact read_lexeme hlexeme _
    · exact ih hscan t ht
  | case6 => simp at h

theorem read_tokenize {text : String} {tokens : List Token} (h : tokenize text = .ok tokens) :
    ∀ t ∈ tokens, Read t :=
  read_scan h

/-- In a text a number is a magnitude and a name is no function. -/
theorem written_of_symbol? {t : Token} {symbol : Symbol} (h : Read t)
    (ht : t.symbol? = some symbol) : symbol.Written := by
  have hkind := (Token.kind_of_symbol? ht).1
  cases symbol with
  | number v =>
    obtain ⟨cs, hne, hlexeme⟩ := h.1 hkind
    obtain ⟨c, left, hcons, hopens⟩ := exists_opens_of_numeral hne
    have hread : Reading.number? t.lexeme = some v := by
      simpa [Token.symbol?, hkind, Symbol.kind] using ht
    rw [hlexeme, hcons] at hread
    obtain ⟨d, rfl⟩ := hopens.exists_decimal hread
    exact ⟨Binary64.isNaN_toFloat .plus d.bits_le, Binary64.signOf_toFloat .plus d.bits_le⟩
  | name n =>
    obtain rfl : t.lexeme = n := by simpa [Token.symbol?, hkind, Symbol.kind] using ht
    exact h.2 hkind
  | operator | caret | openBracket | closeBracket | function => trivial

theorem written_of_spells {tokens : List Token} (hread : ∀ t ∈ tokens, Read t)
    (h : Spells tokens word) : ∀ symbol ∈ word, symbol.Written := by
  intro symbol hsymbol
  have hmem : some symbol ∈ tokens.map Token.symbol? := by
    rw [h]
    exact List.mem_map_of_mem hsymbol
  obtain ⟨t, ht, heq⟩ := List.mem_map.mp hmem
  exact written_of_symbol? (hread t ht) heq

end Lexer

end Reckoner
