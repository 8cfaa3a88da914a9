import Reckoner.Proofs.Json.Reader
import Reckoner.Proofs.Number.Written

/-!
The full form of a number, and integers, in JSON. A number in its full form is read back as
itself, with its sign and also if it is infinite or no number at all. The form of a finite
one keeps the strict rules: its digits begin with no idle zero, and digits stand on both
sides of its point.
-/

namespace Reckoner

namespace Written

structure Strict (w : Written) : Prop extends w.Plain where
  leading : w.whole = ['0'] ∨ w.whole.head? ≠ some '0'
  behind : ∀ ds ∈ w.part, ds ≠ []

/-- A sign in front of a numeral is the sign of the number. -/
theorem number?_signed {w : Written} (h : w.Plain) (sign : Sign) :
    Reading.number? (String.ofList (Numeral.signed sign w.text)) =
      some (w.decimal.toFloat sign) := by
  cases sign with
  | plus => exact number?_text h
  | minus =>
    obtain ⟨c, cs, hcons, hfigure⟩ := text_eq_cons h
    have hc : Reading.Opens c := .inl (Text.isDigit_of_figure hfigure)
    have hdecimal := decimal?_text h
    have htrim : Text.trim Text.isSpacing ('-' :: w.text) = '-' :: w.text := by
      refine Text.trim_eq_self (List.forall_mem_cons.mpr ⟨by decide, fun c hc => ?_⟩)
      exact isSpacing_of_mem_text h hc
    rw [hcons] at hdecimal htrim
    simp only [Numeral.signed, Reading.number?, hcons, String.toList_ofList, htrim, Reading.sign,
      hc.word?_cons, hdecimal]
    rfl

end Written

namespace Text.JsonReading

variable {ds rest : List Char}

theorem figure_ends (h : Lexer.Stops rest) : ∀ c ∈ rest.head?, c.isDigit = false := by
  intro c hc
  rw [Bool.eq_false_iff]
  intro hfigure
  exact Bool.false_ne_true ((h c hc).1.symm.trans (Text.isDigit_of_figure hfigure))

theorem afterDigits?_append (h : Figures ds) (hne : ds ≠ [])
    (hrest : ∀ c ∈ rest.head?, c.isDigit = false) : afterDigits? (ds ++ rest) = some rest := by
  have htake : (rest.takeWhile Char.isDigit) = [] ∧ rest.dropWhile Char.isDigit = rest := by
    cases rest with
    | nil => exact ⟨rfl, rfl⟩
    | cons c rest => simp [hrest c rfl]
  rw [afterDigits?, List.takeWhile_append_of_pos h, List.dropWhile_append_of_pos h, htake.1,
    htake.2]
  simp [hne]

section Numerals

variable {w : Written} {after : List Char}

theorem afterMinus_signed (h : w.Plain) (sign : Sign) (rest : List Char) :
    afterMinus (Numeral.signed sign w.text ++ rest) = w.text ++ rest := by
  cases sign with
  | minus => rfl
  | plus =>
    obtain ⟨c, cs, hcons, hfigure⟩ := Written.text_eq_cons h
    have hc : c ≠ '-' := by
      rintro rfl
      exact absurd hfigure (by decide)
    rw [Numeral.signed, hcons, List.cons_append, afterMinus]
    simpa using hc

theorem afterWhole?_whole (h : w.Strict) (hafter : ∀ c ∈ after.head?, c.isDigit = false) :
    afterWhole? (w.whole ++ after) = some after := by
  rcases h.leading with hzero | hleading
  · rw [hzero]
    rfl
  · have hdigits := afterDigits?_append h.whole h.nonempty hafter
    obtain ⟨c, cs, hcons⟩ := List.exists_cons_of_ne_nil h.nonempty
    have hc : c ≠ '0' := by simpa [hcons] using hleading
    rw [hcons, List.cons_append] at hdigits ⊢
    rw [afterWhole?, hdigits]
    simpa using hc

theorem afterPart?_pointText (h : w.Strict)
    (hafter : ∀ c ∈ after.head?, c.isDigit = false ∧ c ≠ '.') :
    afterPart? (Written.pointText w.part ++ after) = some after := by
  cases hpart : w.part with
  | some ds => exact afterDigits?_append (h.part ds hpart) (h.behind ds hpart) fun c hc =>
      (hafter c hc).1
  | none =>
    rw [Written.pointText, List.nil_append]
    cases after with
    | nil => rfl
    | cons c after =>
      rw [afterPart?]
      simpa using (hafter c rfl).2

theorem afterExponent?_markText (h : w.Strict) (hrest : Lexer.Stops rest) :
    afterExponent? (Written.markText w.mark ++ rest) = some rest := by
  cases hmark : w.mark with
  | some m =>
    obtain ⟨sign, ds⟩ := m
    obtain ⟨hds, hne⟩ := h.mark _ hmark
    have hsign : afterSign ((sign.map Sign.symbol).toList ++ (ds ++ rest)) = ds ++ rest := by
      cases sign with
      | some sign => cases sign <;> rfl
      | none =>
        obtain ⟨d, ds, rfl⟩ := List.exists_cons_of_ne_nil hne
        have hd := (Figures.cons_iff.mp hds).1
        have hplus : d ≠ '+' := fun h => by simp [h] at hd
        have hminus : d ≠ '-' := fun h => by simp [h] at hd
        simp [afterSign, hplus, hminus]
    simp only [Written.markText, List.cons_append, List.append_assoc, afterExponent?, hsign,
      afterDigits?_append hds hne (figure_ends hrest)]
    rfl
  | none =>
    rw [Written.markText, List.nil_append]
    cases rest with
    | nil => rfl
    | cons c rest =>
      have hname := (hrest c rfl).2.2
      have hlower : c ≠ 'e' := fun hc => by simp [hc, Lexer.isNamePart] at hname
      have hupper : c ≠ 'E' := fun hc => by simp [hc, Lexer.isNamePart] at hname
      simp [afterExponent?, hlower, hupper]

/-- A strict numeral, perhaps with a minus in front, is read as far as it goes. -/
theorem afterNumber?_signed (h : w.Strict) (sign : Sign) (hrest : Lexer.Stops rest) :
    afterNumber? (Numeral.signed sign w.text ++ rest) = some rest := by
  have hmark : ∀ c ∈ (Written.markText w.mark ++ rest).head?, c.isDigit = false ∧ c ≠ '.' := by
    intro c hc
    cases hm : w.mark with
    | none =>
      rw [hm] at hc
      exact ⟨figure_ends hrest c hc, (hrest c hc).2.1⟩
    | some m =>
      obtain rfl : 'e' = c := by simpa [hm, Written.markText] using hc
      decide
  have hpoint : ∀ c ∈ (Written.pointText w.part ++ (Written.markText w.mark ++ rest)).head?,
      c.isDigit = false := by
    intro c hc
    cases hp : w.part with
    | none =>
      rw [hp] at hc
      exact (hmark c hc).1
    | some ds =>
      obtain rfl : '.' = c := by simpa [hp, Written.pointText] using hc
      decide
  rw [afterNumber?, afterMinus_signed h.toPlain, Written.text, List.append_assoc,
    List.append_assoc, afterWhole?_whole h hpoint, Option.bind_some,
    afterPart?_pointText h hmark, Option.bind_some, afterExponent?_markText h hrest]

/-- A strict numeral stands for what its token is read as. -/
theorem number?_of_token {token : List Char} (h : afterNumber? (token ++ rest) = some rest) :
    number? (token ++ rest) = (ofToken? token).map (·, rest) := by
  simp [number?, h]

end Numerals

end Text.JsonReading

namespace Numeral

open Text.JsonReading

variable {ds : List Char}

/-- Only zero has a leading zero. -/
theorem head?_digits {n : Nat} (h : n ≠ 0) : (digits n).head? ≠ some '0' := by
  induction n using Nat.strong_induction_on with
  | _ n ih =>
    rw [digits, Nat.toDigits_eq_if (by decide)]
    split
    · rename_i hlt
      have hdigit : ∀ d < 10, d ≠ 0 → some (Nat.digitChar d) ≠ some '0' := by decide
      exact hdigit n hlt h
    · rename_i hle
      have hne : digits (n / 10) ≠ [] := Nat.toDigits_ne_nil
      have hhead := ih (n / 10) (by omega) (by omega)
      obtain ⟨c, cs, hcons⟩ := List.exists_cons_of_ne_nil hne
      rw [digits] at hcons hhead
      rw [hcons] at hhead ⊢
      exact hhead

theorem exists_strict_positional (h : Figures ds) (hne : ds ≠ []) (hleading : ds.head? ≠ some '0')
    (point : Int) :
    ∃ w : Written, w.Strict ∧ w.part ≠ none ∧ w.text = positional ds point := by
  have hzeros (n : Nat) : Figures (List.replicate n '0') := Figures.of_zeros n
  obtain ⟨d, rest, rfl⟩ := List.exists_cons_of_ne_nil hne
  rw [positional]
  split
  · refine ⟨⟨['0'], some (List.replicate (-point).toNat '0' ++ d :: rest), none⟩,
      ⟨⟨hzeros 1, by simp, ?_, by simp⟩, .inl rfl, by simp⟩, by simp, ?_⟩
    · simpa using (hzeros _).append h
    · simp [Written.text, Written.pointText, Written.markText]
  split
  · refine ⟨⟨d :: rest ++ List.replicate (point.toNat - (d :: rest).length) '0', some ['0'], none⟩,
      ⟨⟨h.append (hzeros _), by simp, ?_, by simp⟩, .inr hleading, by simp⟩, by simp, ?_⟩
    · simpa using hzeros 1
    · simp [Written.text, Written.pointText, Written.markText]
  · rename_i hbefore hbehind
    obtain ⟨k, hk⟩ : ∃ k, point.toNat = k + 1 := ⟨point.toNat - 1, by omega⟩
    have hlong : k < rest.length := by
      rw [List.length_cons] at hbehind
      omega
    refine ⟨⟨(d :: rest).take point.toNat, some ((d :: rest).drop point.toNat), none⟩,
      ⟨⟨?_, ?_, ?_, by simp⟩, .inr ?_, ?_⟩, by simp, ?_⟩
    · exact fun c hc => h c (List.mem_of_mem_take hc)
    · simp [hk]
    · intro part hpart c hc
      obtain rfl := Option.some.inj hpart
      exact h c (List.mem_of_mem_drop hc)
    · simpa [hk] using hleading
    · simpa [hk] using hlong
    · simp [Written.text, Written.pointText, Written.markText]

theorem exists_strict_scientific (h : Figures ds) (hne : ds ≠ [])
    (hleading : ds.head? ≠ some '0') (e : Int) :
    ∃ w : Written, w.Strict ∧ w.mark ≠ none ∧ w.text = scientific ds e := by
  obtain ⟨m, hm, htext, -⟩ := exists_markText e
  have hmark : ∀ m' ∈ some m, Figures m'.2 ∧ m'.2 ≠ [] := by
    intro m' hm'
    obtain rfl := Option.some.inj hm'
    exact hm
  obtain ⟨d, ds, rfl⟩ := List.exists_cons_of_ne_nil hne
  obtain ⟨hd, hds⟩ := Figures.cons_iff.mp h
  have hone : Figures [d] := Figures.cons_iff.mpr ⟨hd, List.forall_mem_nil _⟩
  cases ds with
  | nil =>
    refine ⟨⟨[d], none, some m⟩, ⟨⟨hone, by simp, by simp, hmark⟩, .inr hleading, by simp⟩,
      by simp, ?_⟩
    rw [Written.text, htext]
    rfl
  | cons next rest =>
    refine ⟨⟨[d], some (next :: rest), some m⟩,
      ⟨⟨hone, by simp, ?_, hmark⟩, .inr hleading, by simp⟩, by simp, ?_⟩
    · intro part hpart
      obtain rfl := Option.some.inj hpart
      exact hds
    · rw [Written.text, htext]
      simp [scientific, Written.pointText]

theorem exists_strict_ofDecimal {d : Decimal} (h : d.digits ≠ 0) :
    ∃ w : Written, w.Strict ∧ (w.part ≠ none ∨ w.mark ≠ none) ∧ w.text = ofDecimal d := by
  have hfigures := Figures.of_toDigits d.digits
  have hne : digits d.digits ≠ [] := Nat.toDigits_ne_nil
  have hleading := head?_digits h
  simp only [ofDecimal]
  split
  · obtain ⟨w, hstrict, hpart, htext⟩ := exists_strict_positional hfigures hne hleading _
    exact ⟨w, hstrict, .inl hpart, htext⟩
  · obtain ⟨w, hstrict, hmark, htext⟩ := exists_strict_scientific hfigures hne hleading _
    exact ⟨w, hstrict, .inr hmark, htext⟩

open Binary64

variable {m : Nat} {e : Int}

theorem digits_shortest_ne_zero (h : Canonical m e) (hm : m ≠ 0) :
    (Decimal.shortest m e).digits ≠ 0 := by
  intro hzero
  have hbits := Decimal.bits_shortest h
  rw [Decimal.bits, if_pos hzero, magnitudeBits] at hbits
  omega

theorem exists_strict_magnitude (h : Canonical m e) :
    ∃ w : Written, w.Strict ∧ (w.part ≠ none ∨ w.mark ≠ none) ∧ w.text = magnitude m e := by
  rw [magnitude]
  split
  · have hzero : Figures ['0'] := Figures.of_zeros 1
    exact ⟨⟨['0'], some ['0'], none⟩,
      ⟨⟨hzero, by simp, by simpa using hzero, by simp⟩, .inl rfl, by simp⟩, by simp, rfl⟩
  · rename_i hm
    exact exists_strict_ofDecimal (digits_shortest_ne_zero h hm)

/-- The full form of a magnitude is read as the magnitude. -/
theorem exists_written_full (h : Canonical m e) :
    ∃ w : Written, w.Plain ∧ w.text = magnitude m e ∧ w.decimal.bits = magnitudeBits m e := by
  by_cases hm : m = 0
  · subst hm
    have hzero : Figures ['0'] := Figures.of_zeros 1
    refine ⟨⟨['0'], some ['0'], none⟩, ⟨hzero, by simp, by simpa using hzero, by simp⟩, rfl, ?_⟩
    rw [magnitudeBits_zero h]
    rfl
  · exact exists_written_magnitude h hm

/-- The full form of every number is read as the number. -/
theorem number?_text (x : Float) : Reading.number? (text x) = some x := by
  cases hnan : x.isNaN with
  | true =>
    obtain rfl : x = Float.nan := by simpa using hnan
    decide +kernel
  | false =>
    obtain ⟨sign, bits, hle, rfl⟩ := exists_toFloat hnan
    rcases Nat.lt_or_eq_of_le hle with hlt | rfl
    · obtain ⟨m, e, hfinite, hcanonical, rfl⟩ := exists_ofFloat_toFloat sign hlt
      obtain ⟨w, hplain, htext, hbits⟩ := exists_written_full hcanonical
      simp only [text, hfinite]
      rw [← htext, Written.number?_signed hplain, Decimal.toFloat, hbits]
    · rw [text, ofFloat_infinity]
      cases sign <;> decide +kernel

/-- The full form of a finite number keeps the strict rules, and has a point or an exponent. -/
theorem exists_strict_text {x : Float} (h : x.isFinite = true) :
    ∃ (sign : Sign) (w : Written), w.Strict ∧ (w.part ≠ none ∨ w.mark ≠ none) ∧
      (text x).toList = signed sign w.text := by
  have hnan : x.isNaN = false := by
    rw [Bool.eq_false_iff]
    intro hnan
    obtain rfl : x = Float.nan := by simpa using hnan
    exact absurd h (by decide +kernel)
  obtain ⟨sign, bits, hle, rfl⟩ := exists_toFloat hnan
  rcases Nat.lt_or_eq_of_le hle with hlt | rfl
  · obtain ⟨m, e, hfinite, hcanonical, -⟩ := exists_ofFloat_toFloat sign hlt
    obtain ⟨w, hstrict, hmarked, htext⟩ := exists_strict_magnitude hcanonical
    refine ⟨sign, w, hstrict, hmarked, ?_⟩
    simp only [text, hfinite, String.toList_ofList, htext]
  · cases sign <;> exact absurd h (by decide +kernel)

/-- An integer is written in digits, with a minus in front if it is negative. -/
theorem toList_toString (n : Int) :
    (toString n).toList = signed (if n < 0 then .minus else .plus) (digits n.natAbs) := by
  rw [Int.toString_eq_repr, Int.repr_eq_if]
  split
  · rename_i hle
    have habs : n.toNat = n.natAbs := by omega
    rw [if_neg (Int.not_lt.mpr hle), Nat.repr_eq_ofList_toDigits, String.toList_ofList, habs]
    rfl
  · rename_i hlt
    have habs : (-n).toNat = n.natAbs := by omega
    rw [if_pos (Int.not_le.mp hlt), Nat.repr_eq_ofList_toDigits, String.toList_append, habs,
      String.toList_ofList, String.toList_ofList]
    rfl

theorem strict_digits (n : Nat) : Written.Strict ⟨digits n, none, none⟩ := by
  refine ⟨⟨Figures.of_toDigits n, Nat.toDigits_ne_nil, by simp, by simp⟩, ?_, by simp⟩
  by_cases hn : n = 0
  · subst hn
    exact .inl rfl
  · exact .inr (head?_digits hn)

theorem exists_strict_toString (n : Int) :
    ∃ (sign : Sign) (w : Written), w.Strict ∧ (toString n).toList = signed sign w.text := by
  refine ⟨if n < 0 then .minus else .plus, ⟨digits n.natAbs, none, none⟩,
    strict_digits n.natAbs, ?_⟩
  rw [toList_toString]
  simp [Written.text, Written.pointText, Written.markText]

end Numeral

namespace Text.JsonReading

variable {w : Written} {rest : List Char}

theorem exists_first_signed (h : w.Plain) (sign : Sign) :
    ∃ c cs, Numeral.signed sign w.text = c :: cs ∧ (c = '-' ∨ c.isDigit = true) := by
  cases sign with
  | minus => exact ⟨'-', w.text, rfl, .inl rfl⟩
  | plus =>
    obtain ⟨c, cs, hcons, hfigure⟩ := Written.text_eq_cons h
    exact ⟨c, cs, hcons, .inr hfigure⟩

/-- Only a number begins with a minus or a digit. -/
theorem value?_number {c : Char} (hc : c = '-' ∨ c.isDigit = true) (cs : List Char)
    (depth : Nat) : value? (depth + 1) (c :: cs) = number? (c :: cs) := by
  have hne : c ≠ '\x22' ∧ c ≠ '\x7b' ∧ c ≠ 'n' ∧ isLayout c = false := by
    rcases hc with rfl | hc
    · decide
    · refine ⟨?_, ?_, ?_, ?_⟩
      · rintro rfl
        exact absurd hc (by decide)
      · rintro rfl
        exact absurd hc (by decide)
      · rintro rfl
        exact absurd hc (by decide)
      · rw [Bool.eq_false_iff]
        intro hlayout
        simp only [isLayout, Bool.or_eq_true, beq_iff_eq] at hlayout
        rcases hlayout with ((rfl | rfl) | rfl) | rfl <;> exact absurd hc (by decide)
  obtain ⟨hquote, hbrace, hn, hlayout⟩ := hne
  have hskip : skip (c :: cs) = c :: cs := by simp [skip, hlayout]
  rw [value?, hskip]
  split <;> simp_all

/-- A strict numeral, perhaps with a minus in front, is the value of its token. -/
theorem value?_signed (h : w.Strict) (sign : Sign) (hrest : Lexer.Stops rest) (depth : Nat) :
    value? (depth + 1) (Numeral.signed sign w.text ++ rest) =
      (ofToken? (Numeral.signed sign w.text)).map (·, rest) := by
  obtain ⟨c, cs, hcons, hc⟩ := exists_first_signed h.toPlain sign
  have hnumber := number?_of_token (afterNumber?_signed h sign hrest)
  rw [hcons, List.cons_append] at *
  rw [value?_number hc, hnumber]

theorem mem_signed {c : Char} (h : c ∈ w.text) (sign : Sign) :
    c ∈ Numeral.signed sign w.text := by
  cases sign with
  | plus => exact h
  | minus => exact List.mem_cons_of_mem _ h

/-- A point or an exponent tells a number from an integer. -/
theorem ofToken?_text {x : Float} (hx : x.isFinite = true) :
    ofToken? (Numeral.text x).toList = some (.number x) := by
  obtain ⟨sign, w, hstrict, hmarked, htext⟩ := Numeral.exists_strict_text hx
  have hall : ((Numeral.text x).toList.all fun c => c == '-' || c.isDigit) = false := by
    rw [htext, List.all_eq_false]
    rcases hmarked with hpart | hmark
    · obtain ⟨ds, hds⟩ := Option.ne_none_iff_exists'.mp hpart
      refine ⟨'.', mem_signed ?_ sign, by decide⟩
      simp [Written.text, hds, Written.pointText]
    · obtain ⟨m, hm⟩ := Option.ne_none_iff_exists'.mp hmark
      refine ⟨'e', mem_signed ?_ sign, by decide⟩
      simp [Written.text, hm, Written.markText]
  rw [ofToken?, hall, String.ofList_toList, Numeral.number?_text]
  rfl

theorem integerValue_figures {ds : List Char} (h : Figures ds) :
    integerValue ds = (Nat.ofDigitChars 10 ds 0 : Int) := by
  cases ds with
  | nil => rfl
  | cons d ds =>
    have hd : d ≠ '-' := by
      rintro rfl
      exact absurd (h '-' List.mem_cons_self) (by decide)
    rw [integerValue]
    simpa using hd

theorem ofToken?_toString (n : Int) : ofToken? (toString n).toList = some (.integer n) := by
  have hfigures := Figures.of_toDigits n.natAbs
  have hvalue : Nat.ofDigitChars 10 (Numeral.digits n.natAbs) 0 = n.natAbs :=
    Nat.ofDigitChars_ten_toDigits
  have hall : (Numeral.digits n.natAbs).all (fun c => c == '-' || c.isDigit) = true := by
    rw [List.all_eq_true]
    intro c hc
    rw [hfigures c hc, Bool.or_true]
  rw [Numeral.toList_toString, ofToken?]
  split
  · have hinteger : integerValue (Numeral.signed .minus (Numeral.digits n.natAbs)) = n := by
      rw [Numeral.signed, integerValue, hvalue]
      omega
    rw [hinteger, if_pos]
    simpa [Numeral.signed] using hall
  · have hinteger : integerValue (Numeral.signed .plus (Numeral.digits n.natAbs)) = n := by
      rw [Numeral.signed, integerValue_figures hfigures, hvalue]
      omega
    rw [hinteger, if_pos]
    exact hall

end Text.JsonReading

end Reckoner
