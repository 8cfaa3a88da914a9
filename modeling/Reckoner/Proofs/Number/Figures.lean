import Mathlib
import Reckoner.Lexer
import Reckoner.Number.Reading

/-!
Runs of digits, and what a numeral begins with. Of the scripts whose digits are read,
only that of the ten ASCII digits is written.
-/

namespace Reckoner

namespace Text

theorem exists_first_of_isDigit {c : Char} (h : isDigit c = true) :
    ∃ first ∈ digitZeros, first ≤ c.toNat ∧ c.toNat < first + 10 := by
  simp only [isDigit, digit?, Option.isSome_map, List.find?_isSome] at h
  simpa using h

/-- A digit of the first script. -/
theorem digit?_of_figure {c : Char} (h : c.isDigit = true) :
    digit? c = some (c.toNat - '0'.toNat) := by
  simp only [Char.isDigit, Bool.and_eq_true, decide_eq_true_eq] at h
  have hlow : 48 ≤ c.toNat := h.1
  have hhigh : c.toNat ≤ 57 := h.2
  rw [digit?, digitZeros, List.find?_cons_of_pos]
  · rfl
  · simp only [Bool.and_eq_true, decide_eq_true_eq]
    omega

theorem isDigit_of_figure {c : Char} (h : c.isDigit = true) : isDigit c = true := by
  rw [isDigit, digit?_of_figure h]
  rfl

theorem isSpacing_of_isDigit {c : Char} (h : isDigit c = true) : isSpacing c = false := by
  obtain ⟨first, hfirst, hlow, hhigh⟩ := exists_first_of_isDigit h
  have hapart : ∀ first ∈ digitZeros, ∀ range ∈ blankRanges,
      first + 9 < range.1 ∨ range.2 < first := by
    decide
  simp only [isSpacing, List.any_eq_false, Bool.and_eq_true, decide_eq_true_eq, not_and]
  intro range hrange hle
  have := hapart first hfirst range hrange
  omega

/-- A digit is none of the marks and letters. -/
theorem ascii_of_isDigit {c : Char} (h : isDigit c = true) :
    c.isDigit = true ∨ 1632 ≤ c.toNat := by
  obtain ⟨first, hfirst, hlow, hhigh⟩ := exists_first_of_isDigit h
  have hleast : ∀ first ∈ digitZeros, first = 48 ∨ 1632 ≤ first := by decide
  rcases hleast first hfirst with rfl | hle
  · left
    simp only [Char.isDigit, Bool.and_eq_true, decide_eq_true_eq]
    exact ⟨hlow, by change c.toNat ≤ 57; omega⟩
  · exact .inr (by omega)

theorem trim_cons {blank : Char → Bool} {c : Char} (h : blank c = false) (cs : List Char) :
    ∃ left, trim blank (c :: cs) = c :: left := by
  have hdrop (xs : List Char) : ∃ ys, (xs ++ [c]).dropWhile blank = ys ++ [c] := by
    induction xs with
    | nil => exact ⟨[], by simp [h]⟩
    | cons x xs ih =>
      cases hx : blank x with
      | true => simpa [hx] using ih
      | false => exact ⟨x :: xs, by simp [hx]⟩
  obtain ⟨ys, hys⟩ := hdrop cs.reverse
  refine ⟨ys.reverse, ?_⟩
  simp [trim, h, hys]

theorem trim_eq_self {blank : Char → Bool} {cs : List Char} (h : ∀ c ∈ cs, blank c = false) :
    trim blank cs = cs := by
  have hdrop (xs : List Char) (hxs : ∀ c ∈ xs, blank c = false) : xs.dropWhile blank = xs := by
    cases xs with
    | nil => rfl
    | cons x xs => simp [hxs x (by simp)]
  rw [trim, hdrop cs h, hdrop _ (fun c hc => h c (by simpa using hc)), List.reverse_reverse]

end Text

def Figures (cs : List Char) : Prop := ∀ c ∈ cs, c.isDigit = true

namespace Figures

variable {cs rest : List Char}

theorem cons_iff {c : Char} : Figures (c :: cs) ↔ c.isDigit = true ∧ Figures cs := by
  simp [Figures]

theorem append {first last : List Char} (h : Figures first) (h' : Figures last) :
    Figures (first ++ last) := by
  intro c hc
  rcases List.mem_append.mp hc with hc | hc
  · exact h c hc
  · exact h' c hc

theorem of_toDigits (n : Nat) : Figures (Numeral.digits n) := fun _ hc =>
  Nat.isDigit_of_mem_toDigits (by decide) (by decide) hc

theorem of_zeros (n : Nat) : Figures (List.replicate n '0') := by
  intro c hc
  rw [List.eq_of_mem_replicate hc]
  rfl

theorem takeWhile_append (h : Figures cs) (hrest : ∀ c ∈ rest.head?, Text.isDigit c = false) :
    (cs ++ rest).takeWhile Text.isDigit = cs := by
  rw [List.takeWhile_append_of_pos fun c hc => Text.isDigit_of_figure (h c hc)]
  cases rest with
  | nil => simp
  | cons c rest => simp [hrest c (by simp)]

end Figures

namespace Reading

variable {cs rest : List Char}

def figures (cs : List Char) : List Nat := cs.map fun c => c.toNat - '0'.toNat

/-- What may stand after a run of digits: neither a digit nor an underscore. -/
def Ends (rest : List Char) : Prop := ∀ c ∈ rest.head?, Text.isDigit c = false ∧ c ≠ '_'

theorem moreDigits_ends (h : Ends rest) : moreDigits rest = ([], rest) := by
  cases rest with
  | nil => rfl
  | cons c rest =>
    obtain ⟨hdigit, hunderscore⟩ := h c (by simp)
    have hnone : Text.digit? c = none := by simpa [Text.isDigit] using hdigit
    rw [moreDigits]
    · simp [hnone]
    · exact fun _ _ hc => absurd hc hunderscore

theorem moreDigits_append (h : ∀ c ∈ cs, Text.isDigit c = true) (hrest : Ends rest) :
    moreDigits (cs ++ rest) = (cs.filterMap Text.digit?, rest) := by
  induction cs with
  | nil => exact moreDigits_ends hrest
  | cons c cs ih =>
    obtain ⟨hc, hcs⟩ := List.forall_mem_cons.mp h
    obtain ⟨d, hd⟩ := Option.isSome_iff_exists.mp hc
    have hunderscore : c ≠ '_' := by
      rintro rfl
      exact absurd hc (by decide)
    rw [List.cons_append, moreDigits]
    · simp only [hd, ih hcs, List.filterMap_cons]
    · exact fun _ _ hc => absurd hc hunderscore

/-- A run of digits of any script is read to its end. -/
theorem digits_append (h : ∀ c ∈ cs, Text.isDigit c = true) (hrest : Ends rest) :
    digits (cs ++ rest) = (cs.filterMap Text.digit?, rest) := by
  cases cs with
  | nil =>
    cases rest with
    | nil => rfl
    | cons c rest =>
      have hnone : Text.digit? c = none := by simpa [Text.isDigit] using (hrest c (by simp)).1
      simp [digits, hnone]
  | cons c cs =>
    obtain ⟨hc, hcs⟩ := List.forall_mem_cons.mp h
    obtain ⟨d, hd⟩ := Option.isSome_iff_exists.mp hc
    simp only [List.cons_append, digits, hd, moreDigits_append hcs hrest, List.filterMap_cons]

theorem filterMap_digit?_figures (h : Figures cs) : cs.filterMap Text.digit? = figures cs := by
  rw [figures, ← List.filterMap_eq_map]
  exact List.filterMap_congr fun c hc => Text.digit?_of_figure (h c hc)

theorem digits_figures (h : Figures cs) (hrest : Ends rest) :
    digits (cs ++ rest) = (figures cs, rest) := by
  rw [digits_append (fun c hc => Text.isDigit_of_figure (h c hc)) hrest,
    filterMap_digit?_figures h]

theorem value_figures (cs : List Char) : value (figures cs) = Nat.ofDigitChars 10 cs 0 := by
  rw [value, figures, List.foldl_map, Nat.ofDigitChars_eq_foldl]

end Reading

namespace Reading

variable {c : Char}

def Opens (c : Char) : Prop := Text.isDigit c = true ∨ c = '.'

instance : DecidablePred Opens := fun c =>
  inferInstanceAs (Decidable (Text.isDigit c = true ∨ c = '.'))

namespace Opens

theorem isSpacing (h : Opens c) : Text.isSpacing c = false := by
  rcases h with h | rfl
  · exact Text.isSpacing_of_isDigit h
  · decide

theorem toNat_range (h : Opens c) : c.toNat ≤ 57 ∨ 1632 ≤ c.toNat := by
  rcases h with h | rfl
  · rcases Text.ascii_of_isDigit h with h | h
    · simp only [Char.isDigit, Bool.and_eq_true, decide_eq_true_eq] at h
      exact .inl h.2
    · exact .inr h
  · exact .inl (by decide)

theorem toLower_eq (h : Opens c) : c.toLower = c := by
  have hrange := h.toNat_range
  apply Char.toLower_eq_of_not_isUpper
  intro hupper
  simp only [Char.isUpper, decide_eq_true_eq] at hupper
  have hlow : 65 ≤ c.toNat := hupper.1
  have hhigh : c.toNat ≤ 90 := hupper.2
  omega

theorem sign_cons (h : Opens c) (cs : List Char) : sign (c :: cs) = (.plus, c :: cs) := by
  have hplus : c ≠ '+' := by
    intro hc
    subst hc
    exact absurd h (by decide)
  have hminus : c ≠ '-' := by
    intro hc
    subst hc
    exact absurd h (by decide)
  simp [sign, hplus, hminus]

theorem word?_cons (h : Opens c) (cs : List Char) : word? (c :: cs) = none := by
  have hrange := h.toNat_range
  have hi : c ≠ 'i' := by
    intro hc
    subst hc
    exact absurd hrange (by decide)
  have hn : c ≠ 'n' := by
    intro hc
    subst hc
    exact absurd hrange (by decide)
  simp [word?, h.toLower_eq, hi, hn]

/-- A text that begins like an unsigned numeral can only be read as a decimal. -/
theorem exists_decimal (h : Opens c) {cs : List Char} {v : Float}
    (hv : number? (String.ofList (c :: cs)) = some v) : ∃ d : Decimal, v = d.toFloat .plus := by
  obtain ⟨left, htrim⟩ := Text.trim_cons h.isSpacing cs
  simp only [number?, String.toList_ofList, htrim, h.sign_cons, h.word?_cons,
    Option.map_eq_some_iff] at hv
  obtain ⟨d, -, rfl⟩ := hv
  exact ⟨d, rfl⟩

end Opens

end Reading

namespace Lexer

/-- What may stand after a numeral or a name that is not meant to go on. -/
def Stops (rest : List Char) : Prop :=
  ∀ c ∈ rest.head?, Text.isDigit c = false ∧ c ≠ '.' ∧ isNamePart c = false

theorem stops_cons {c : Char} (h : Text.isDigit c = false ∧ c ≠ '.' ∧ isNamePart c = false)
    (rest : List Char) : Stops (c :: rest) := by
  intro d hd
  obtain rfl := Option.some.inj hd
  exact h

theorem pointPart_of_head? {cs : List Char} (h : ∀ c ∈ cs.head?, c ≠ '.') : pointPart cs = [] := by
  cases cs with
  | nil => rfl
  | cons c rest => simp [pointPart, h c rfl]

/-- The longest numeral, if there is one, begins as an unsigned numeral does. -/
theorem exists_opens_of_numeral {cs : List Char} (h : numeral cs ≠ []) :
    ∃ c left, numeral cs = c :: left ∧ Reading.Opens c := by
  cases cs with
  | nil => exact absurd rfl h
  | cons c rest =>
    cases hdigit : Text.isDigit c with
    | true =>
      simp only [numeral, List.takeWhile_cons, hdigit, if_true, List.cons_append,
        List.isEmpty_cons, Bool.false_and, Bool.false_eq_true, if_false]
      exact ⟨c, _, rfl, .inl hdigit⟩
    | false =>
      by_cases hpoint : c = '.'
      · subst hpoint
        have hnone : Text.isDigit '.' = false := by decide
        simp only [numeral, List.takeWhile_cons, hnone, Bool.false_eq_true, if_false] at h ⊢
        by_cases hshort : (pointPart ('.' :: rest)).length ≤ 1
        · simp [hshort] at h
        · simp only [List.isEmpty_nil, List.length_nil, List.drop_zero, hshort]
          exact ⟨'.', _, rfl, .inr rfl⟩
      · refine absurd ?_ h
        have hpart : pointPart (c :: rest) = [] := pointPart_of_head? (by simpa using hpoint)
        simp [numeral, hdigit, hpart]

end Lexer

end Reckoner
