import Reckoner.Number.Numeral
import Reckoner.Proofs.Number.Decimals
import Reckoner.Proofs.Number.Figures

/-!
Numerals as they are written: whole figures, a point with more of them, an exponent
part. The lexer takes such a numeral whole and reading rounds its decimal. Every way a
number is written, with digits alone, a point or an exponent, has the number's value,
so the literal of a number is read as the number.
-/

namespace Reckoner

/-- The pieces of a numeral: figures, a point with more of them, and an exponent part. -/
structure Written where
  whole : List Char
  part : Option (List Char)
  mark : Option (Option Sign × List Char)

namespace Written

def pointText : Option (List Char) → List Char
  | none => []
  | some ds => '.' :: ds

def markText : Option (Option Sign × List Char) → List Char
  | none => []
  | some (sign, ds) => 'e' :: ((sign.map Sign.symbol).toList ++ ds)

def text (w : Written) : List Char := w.whole ++ (pointText w.part ++ markText w.mark)

def exponent : Option (Option Sign × List Char) → Int
  | none => 0
  | some (some .minus, ds) => -Nat.ofDigitChars 10 ds 0
  | some (_, ds) => Nat.ofDigitChars 10 ds 0

def decimal (w : Written) : Decimal :=
  ⟨Nat.ofDigitChars 10 (w.whole ++ w.part.getD []) 0, exponent w.mark - (w.part.getD []).length⟩

structure Plain (w : Written) : Prop where
  whole : Figures w.whole
  nonempty : w.whole ≠ []
  part : ∀ ds ∈ w.part, Figures ds
  mark : ∀ m ∈ w.mark, Figures m.2 ∧ m.2 ≠ []

variable {w : Written} {rest : List Char} {part : Option (List Char)}
  {mark : Option (Option Sign × List Char)}

theorem ends_markText (mark : Option (Option Sign × List Char)) : Reading.Ends (markText mark) := by
  intro c hc
  cases mark with
  | none => simp [markText] at hc
  | some m =>
    obtain rfl : 'e' = c := by simpa [markText] using hc
    decide

theorem exponent?_markText (h : ∀ m ∈ mark, Figures m.2 ∧ m.2 ≠ []) :
    Reading.exponent? (markText mark) = some (exponent mark) := by
  cases mark with
  | none => rfl
  | some m =>
    obtain ⟨sign, ds⟩ := m
    obtain ⟨hds, hne⟩ := h _ rfl
    have hsign : Reading.sign ((sign.map Sign.symbol).toList ++ ds) =
        (sign.getD .plus, ds) := by
      cases sign with
      | none =>
        cases ds with
        | nil => exact absurd rfl hne
        | cons d ds =>
          have hd : Reading.Opens d := .inl (Text.isDigit_of_figure (Figures.cons_iff.mp hds).1)
          exact hd.sign_cons ds
      | some sign => cases sign <;> rfl
    have hdigits : Reading.digits ds = (Reading.figures ds, []) := by
      have hends : Reading.Ends [] := by simp [Reading.Ends]
      simpa using Reading.digits_figures hds hends
    have hvalue := Reading.value_figures ds
    cases hfigures : Reading.figures ds with
    | nil => simp [Reading.figures, hne] at hfigures
    | cons d tail =>
      rw [hfigures] at hdigits hvalue
      simp only [markText, Reading.exponent?, hsign, hdigits, hvalue]
      cases sign with
      | none => rfl
      | some sign => cases sign <;> rfl

theorem decimal?_text (h : w.Plain) : Reading.decimal? w.text = some w.decimal := by
  have hwhole : Reading.digits w.text =
      (Reading.figures w.whole, pointText w.part ++ markText w.mark) := by
    apply Reading.digits_figures h.whole
    cases hpart : w.part with
    | none => exact ends_markText w.mark
    | some ds =>
      intro c hc
      obtain rfl : '.' = c := by simpa [pointText] using hc
      decide
  have hpart : Reading.fraction (pointText w.part ++ markText w.mark) =
      (Reading.figures (w.part.getD []), markText w.mark) := by
    cases hpart : w.part with
    | none => cases w.mark <;> rfl
    | some ds => exact Reading.digits_figures (h.part ds hpart) (ends_markText _)
  have hvalue : Reading.value (Reading.figures w.whole ++ Reading.figures (w.part.getD [])) =
      Nat.ofDigitChars 10 (w.whole ++ w.part.getD []) 0 := by
    rw [← Reading.value_figures, Reading.figures, Reading.figures, Reading.figures, List.map_append]
  have hlength : (Reading.figures (w.part.getD [])).length = (w.part.getD []).length :=
    List.length_map ..
  have hsome : (Reading.figures w.whole).isEmpty = false := by
    simp [Reading.figures, h.nonempty]
  simp only [Reading.decimal?, hwhole, hpart, hvalue, hlength, hsome, exponent?_markText h.mark]
  rfl

theorem text_eq_cons (h : w.Plain) : ∃ c cs, w.text = c :: cs ∧ c.isDigit = true := by
  cases hwhole : w.whole with
  | nil => exact absurd hwhole h.nonempty
  | cons c whole =>
    have hc := h.whole c (by simp [hwhole])
    exact ⟨c, whole ++ (pointText w.part ++ markText w.mark), by rw [text, hwhole]; rfl, hc⟩

theorem isSpacing_of_mem_text (h : w.Plain) {c : Char} (hc : c ∈ w.text) :
    Text.isSpacing c = false := by
  have hfigures {cs : List Char} (hcs : Figures cs) (hmem : c ∈ cs) : Text.isSpacing c = false :=
    Text.isSpacing_of_isDigit (Text.isDigit_of_figure (hcs c hmem))
  rcases List.mem_append.mp hc with hc | hc
  · exact hfigures h.whole hc
  rcases List.mem_append.mp hc with hc | hc
  · cases hpart : w.part with
    | none => simp [hpart, pointText] at hc
    | some ds =>
      rw [hpart] at hc
      rcases List.mem_cons.mp hc with rfl | hc
      · decide
      · exact hfigures (h.part ds hpart) hc
  · cases hmark : w.mark with
    | none => simp [hmark, markText] at hc
    | some m =>
      obtain ⟨sign, ds⟩ := m
      rw [hmark] at hc
      rcases List.mem_cons.mp hc with rfl | hc
      · decide
      rcases List.mem_append.mp hc with hc | hc
      · cases sign with
        | none => simp at hc
        | some sign =>
          obtain rfl : c = sign.symbol := by simpa using hc
          cases sign <;> decide
      · exact hfigures (h.mark _ hmark).1 hc

/-- A numeral in figures is read as the number nearest to its decimal. -/
theorem number?_text (h : w.Plain) :
    Reading.number? (String.ofList w.text) = some (w.decimal.toFloat .plus) := by
  obtain ⟨c, cs, hcons, hfigure⟩ := text_eq_cons h
  have hc : Reading.Opens c := .inl (Text.isDigit_of_figure hfigure)
  have hdecimal := decimal?_text h
  have htrim : Text.trim Text.isSpacing w.text = w.text :=
    Text.trim_eq_self fun c hc => isSpacing_of_mem_text h hc
  rw [hcons] at hdecimal htrim
  simp only [Reading.number?, hcons, String.toList_ofList, htrim, hc.sign_cons, hc.word?_cons,
    hdecimal]
  rfl

theorem exponentPart_markText (h : ∀ m ∈ mark, Figures m.2 ∧ m.2 ≠ []) (hrest : Lexer.Stops rest) :
    Lexer.exponentPart (markText mark ++ rest) = markText mark := by
  cases mark with
  | none =>
    cases rest with
    | nil => rfl
    | cons c rest =>
      have hname := (hrest c (by simp)).2.2
      have hlower : c ≠ 'e' := fun hc => by simp [hc, Lexer.isNamePart] at hname
      have hupper : c ≠ 'E' := fun hc => by simp [hc, Lexer.isNamePart] at hname
      simp [markText, Lexer.exponentPart, hlower, hupper]
  | some m =>
    obtain ⟨sign, ds⟩ := m
    obtain ⟨hds, hne⟩ := h _ rfl
    have hsign : (((sign.map Sign.symbol).toList ++ (ds ++ rest)).take 1).filter
        (fun s => s == '+' || s == '-') = (sign.map Sign.symbol).toList := by
      cases sign with
      | none =>
        cases ds with
        | nil => exact absurd rfl hne
        | cons d ds =>
          have hd := (Figures.cons_iff.mp hds).1
          have hplus : d ≠ '+' := fun h => by simp [h] at hd
          have hminus : d ≠ '-' := fun h => by simp [h] at hd
          simp [hplus, hminus]
      | some sign => cases sign <;> rfl
    have hdigits : (ds ++ rest).takeWhile Text.isDigit = ds :=
      hds.takeWhile_append fun c hc => (hrest c hc).1
    simp only [markText, List.cons_append, List.append_assoc, Lexer.exponentPart, hsign,
      List.drop_left, hdigits]
    simp [hne]

theorem pointPart_pointText (h : ∀ ds ∈ part, Figures ds)
    (hrest : ∀ c ∈ rest.head?, Text.isDigit c = false ∧ c ≠ '.') :
    Lexer.pointPart (pointText part ++ rest) = pointText part := by
  cases part with
  | none => exact Lexer.pointPart_of_head? fun c hc => (hrest c hc).2
  | some ds =>
    simp only [pointText, List.cons_append, Lexer.pointPart]
    rw [(h ds rfl).takeWhile_append fun c hc => (hrest c hc).1]

/-- The longest numeral at the beginning is the one that was written there. -/
theorem numeral_text (h : w.Plain) (hrest : Lexer.Stops rest) :
    Lexer.numeral (w.text ++ rest) = w.text := by
  have hmark : ∀ c ∈ (markText w.mark ++ rest).head?, Text.isDigit c = false ∧ c ≠ '.' := by
    intro c hc
    cases hm : w.mark with
    | none =>
      rw [hm] at hc
      obtain ⟨hdigit, hpoint, -⟩ := hrest c hc
      exact ⟨hdigit, hpoint⟩
    | some m =>
      obtain rfl : 'e' = c := by simpa [hm, markText] using hc
      decide
  have hpoint : ∀ c ∈ (pointText w.part ++ (markText w.mark ++ rest)).head?,
      Text.isDigit c = false := by
    intro c hc
    cases hp : w.part with
    | none =>
      rw [hp] at hc
      exact (hmark c hc).1
    | some ds =>
      obtain rfl : '.' = c := by simpa [hp, pointText] using hc
      decide
  have hwhole := h.whole.takeWhile_append hpoint
  have hsome : w.whole.isEmpty = false := by simp [h.nonempty]
  have hdrop : List.drop (w.whole ++ pointText w.part).length
      (w.whole ++ (pointText w.part ++ (markText w.mark ++ rest))) = markText w.mark ++ rest := by
    rw [← List.append_assoc, List.drop_left]
  simp only [text, List.append_assoc, Lexer.numeral, hwhole, List.drop_left,
    pointPart_pointText h.part hmark, hdrop, exponentPart_markText h.mark hrest, hsome]
  simp

end Written

namespace Numeral

open scoped Binary64

variable {ds : List Char}

theorem ofDigitChars_zeros_append (k : Nat) (ds : List Char) :
    Nat.ofDigitChars 10 (List.replicate k '0' ++ ds) 0 = Nat.ofDigitChars 10 ds 0 := by
  rw [Nat.ofDigitChars_append, Nat.ofDigitChars_replicate_zero, Nat.mul_zero]

theorem ofDigitChars_append_zeros (ds : List Char) (k : Nat) :
    Nat.ofDigitChars 10 (ds ++ List.replicate k '0') 0 = 10 ^ k * Nat.ofDigitChars 10 ds 0 := by
  rw [Nat.ofDigitChars_append, Nat.ofDigitChars_replicate_zero]

/-- With the point before the digits, zeros stand between them. -/
theorem exists_written_before (h : Figures ds) {x : Int} (hpoint : x + ds.length ≤ 0) :
    ∃ w : Written, w.Plain ∧ w.text = positional ds (x + ds.length) ∧
      w.decimal = ⟨Nat.ofDigitChars 10 ds 0, x⟩ := by
  let zeros := List.replicate (-(x + ds.length)).toNat '0'
  refine ⟨⟨['0'], some (zeros ++ ds), none⟩, ⟨?_, ?_, ?_, ?_⟩, ?_, ?_⟩
  · exact Figures.of_zeros 1
  · simp
  · simpa using (Figures.of_zeros _).append h
  · simp
  · rw [positional, if_pos hpoint, Written.text, Written.pointText, Written.markText,
      List.append_nil]
    rfl
  · have hdigits := ofDigitChars_zeros_append ((-(x + ds.length)).toNat + 1) ds
    have hexponent : (0 : Int) - (zeros ++ ds).length = x := by
      simp only [zeros, List.length_append, List.length_replicate]
      omega
    rw [Written.decimal, Option.getD_some, Written.exponent, hexponent, ← hdigits]
    rfl

/-- With the point behind the digits, zeros make up for it, one of them after the point. -/
theorem exists_written_behind (h : Figures ds) (hne : ds ≠ []) (k : Nat) :
    ∃ w : Written, w.Plain ∧ w.text = positional ds (k + ds.length) ∧
      w.decimal.value = Decimal.value ⟨Nat.ofDigitChars 10 ds 0, k⟩ := by
  have hpos : 0 < ds.length := List.length_pos_iff.mpr hne
  refine ⟨⟨ds ++ List.replicate k '0', some ['0'], none⟩, ⟨?_, ?_, ?_, ?_⟩, ?_, ?_⟩
  · exact h.append (Figures.of_zeros _)
  · simp [hne]
  · simpa using Figures.of_zeros 1
  · simp
  · have hzeros : ((k : Int) + ds.length).toNat - ds.length = k := by omega
    rw [positional, if_neg (by omega), if_pos (by omega), hzeros]
    simp [Written.text, Written.pointText, Written.markText]
  · have hdigits : Nat.ofDigitChars 10 (ds ++ List.replicate k '0' ++ ['0']) 0 =
        10 ^ (k + 1) * Nat.ofDigitChars 10 ds 0 := by
      rw [← ofDigitChars_append_zeros, List.append_assoc, List.replicate_succ']
    simp only [Written.decimal, Written.exponent, Decimal.value, Option.getD_some, hdigits]
    push_cast
    rw [zpow_natCast, pow_succ]
    norm_num
    ring

/-- With the point among the digits, they are written as they are. -/
theorem exists_written_among (h : Figures ds) {x : Int} (hpoint : 0 < x + ds.length)
    (hx : x < 0) :
    ∃ w : Written, w.Plain ∧ w.text = positional ds (x + ds.length) ∧
      w.decimal = ⟨Nat.ofDigitChars 10 ds 0, x⟩ := by
  obtain ⟨k, hk⟩ : ∃ k : Nat, (x + ds.length).toNat = k := ⟨_, rfl⟩
  refine ⟨⟨ds.take k, some (ds.drop k), none⟩, ⟨?_, ?_, ?_, ?_⟩, ?_, ?_⟩
  · exact fun c hc => h c (List.mem_of_mem_take hc)
  · rw [← List.length_pos_iff, List.length_take]
    omega
  · intro part hpart c hc
    obtain rfl := Option.some.inj hpart
    exact h c (List.mem_of_mem_drop hc)
  · simp
  · rw [positional, if_neg (by omega), if_neg (by omega), hk]
    simp [Written.text, Written.pointText, Written.markText]
  · have hexponent : (0 : Int) - (ds.drop k).length = x := by
      rw [List.length_drop]
      omega
    rw [Written.decimal, Option.getD_some, List.take_append_drop, Written.exponent, hexponent]

/-- Moving the point keeps the value. -/
theorem exists_written_positional (h : Figures ds) (hne : ds ≠ []) (x : Int) :
    ∃ w : Written, w.Plain ∧ w.text = positional ds (x + ds.length) ∧
      w.decimal.value = Decimal.value ⟨Nat.ofDigitChars 10 ds 0, x⟩ := by
  by_cases hpoint : x + ds.length ≤ 0
  · obtain ⟨w, hplain, htext, hdecimal⟩ := exists_written_before h hpoint
    exact ⟨w, hplain, htext, by rw [hdecimal]⟩
  by_cases hx : x < 0
  · obtain ⟨w, hplain, htext, hdecimal⟩ := exists_written_among h (not_le.mp hpoint) hx
    exact ⟨w, hplain, htext, by rw [hdecimal]⟩
  · obtain ⟨k, rfl⟩ := Int.eq_ofNat_of_zero_le (not_lt.mp hx)
    exact exists_written_behind h hne k

/-- The exponent part of a number in powers of ten. -/
theorem exists_markText (e : Int) :
    ∃ m : Option Sign × List Char, (Figures m.2 ∧ m.2 ≠ []) ∧
      Written.markText (some m) = exponentMark e ∧ Written.exponent (some m) = e := by
  have hne : digits e.natAbs ≠ [] := Nat.toDigits_ne_nil
  refine ⟨⟨some (if e < 0 then .minus else .plus),
    List.replicate (style.exponentDigits - (digits e.natAbs).length) '0' ++ digits e.natAbs⟩,
    ⟨?_, ?_⟩, ?_, ?_⟩
  · exact (Figures.of_zeros _).append (Figures.of_toDigits _)
  · simp [hne]
  · rw [exponentMark, Written.markText]
    split <;> rfl
  · have hdigits : Nat.ofDigitChars 10 (digits e.natAbs) 0 = e.natAbs :=
      Nat.ofDigitChars_ten_toDigits
    split
    · simp only [Written.exponent, ofDigitChars_zeros_append, hdigits]
      omega
    · simp only [Written.exponent, ofDigitChars_zeros_append, hdigits]
      omega

theorem exists_written_scientific (h : Figures ds) (hne : ds ≠ []) (x : Int) :
    ∃ w : Written, w.Plain ∧ w.text = scientific ds (x + ds.length - 1) ∧
      w.decimal.value = Decimal.value ⟨Nat.ofDigitChars 10 ds 0, x⟩ := by
  obtain ⟨m, hm, htext, hexponent⟩ := exists_markText (x + ds.length - 1)
  have hmark : ∀ m' ∈ some m, Figures m'.2 ∧ m'.2 ≠ [] := by
    intro m' hm'
    obtain rfl := Option.some.inj hm'
    exact hm
  cases ds with
  | nil => exact absurd rfl hne
  | cons d ds =>
    obtain ⟨hd, hds⟩ := Figures.cons_iff.mp h
    have hone : Figures [d] := Figures.cons_iff.mpr ⟨hd, by simp [Figures]⟩
    cases ds with
    | nil =>
      refine ⟨⟨[d], none, some m⟩, ⟨hone, by simp, by simp, hmark⟩, ?_, ?_⟩
      · rw [Written.text, htext]
        rfl
      · simp only [Written.decimal, hexponent]
        congr 2
        simp
    | cons next rest =>
      refine ⟨⟨[d], some (next :: rest), some m⟩, ⟨hone, by simp, ?_, hmark⟩, ?_, ?_⟩
      · intro part hpart
        obtain rfl := Option.some.inj hpart
        exact hds
      · rw [Written.text, htext]
        simp [scientific, Written.pointText]
      · simp only [Written.decimal, hexponent]
        congr 2
        simp
        omega

/-- A decimal is written with its value. -/
theorem exists_written_ofDecimal (d : Decimal) :
    ∃ w : Written, w.Plain ∧ w.text = ofDecimal d ∧ w.decimal.value = d.value := by
  obtain ⟨n, x⟩ := d
  have hfigures := Figures.of_toDigits n
  have hne : digits n ≠ [] := Nat.toDigits_ne_nil
  have hvalue : Nat.ofDigitChars 10 (digits n) 0 = n := Nat.ofDigitChars_ten_toDigits
  simp only [ofDecimal]
  split
  · obtain ⟨w, hplain, htext, hw⟩ := exists_written_positional hfigures hne x
    rw [hvalue] at hw
    exact ⟨w, hplain, by rw [htext, Int.sub_add_cancel], hw⟩
  · obtain ⟨w, hplain, htext, hw⟩ := exists_written_scientific hfigures hne x
    rw [hvalue] at hw
    exact ⟨w, hplain, htext, hw⟩

open Binary64

theorem value_of_whole? {sign : Sign} {m n : Nat} {e : Int}
    (h : (Binary64.finite sign m e).whole? = some n) : (n : ℚ) = m * 2 ^ e := by
  have hpow := zpow_eq_div 2 e
  rw [Nat.cast_ofNat] at hpow
  simp only [whole?] at h
  split at h
  · rename_i he
    obtain rfl := Option.some.inj h
    have hneg : (-e).toNat = 0 := by omega
    rw [hpow, hneg]
    push_cast
    simp
  · rename_i he
    split at h
    · rename_i hmod
      obtain rfl := Option.some.inj h
      have hpos : e.toNat = 0 := by omega
      rw [hpow, hpos, Nat.cast_div (Nat.dvd_of_mod_eq_zero hmod) (by positivity)]
      push_cast
      rw [mul_div_assoc', mul_one]
    · simp at h

theorem whole?_zero (sign : Sign) (e : Int) : (Binary64.finite sign 0 e).whole? = some 0 := by
  simp [whole?]

variable {m : Nat} {e : Int}

theorem magnitudeBits_zero (h : Canonical 0 e) : magnitudeBits 0 e = 0 := by
  obtain rfl : e = -1074 := h.full.resolve_left (by decide)
  rfl

theorem exists_written_digits {n : Nat} (h : Canonical m e) (hn : (n : ℚ) = m * 2 ^ e) :
    ∃ w : Written, w.Plain ∧ w.text = digits n ∧ w.decimal.bits = magnitudeBits m e := by
  refine ⟨⟨digits n, none, none⟩, ⟨Figures.of_toDigits n, Nat.toDigits_ne_nil, by simp, by simp⟩,
    ?_, ?_⟩
  · simp [Written.text, Written.pointText, Written.markText]
  · apply Decimal.bits_of_value h
    rw [← hn]
    simp [Written.decimal, Written.exponent, Decimal.value, digits]

theorem exists_written_magnitude (h : Canonical m e) (hm : m ≠ 0) :
    ∃ w : Written, w.Plain ∧ w.text = magnitude m e ∧ w.decimal.bits = magnitudeBits m e := by
  obtain ⟨w, hplain, htext, hvalue⟩ := exists_written_ofDecimal (Decimal.shortest m e)
  refine ⟨w, hplain, ?_, ?_⟩
  · rw [htext, magnitude, if_neg hm]
  · rw [Decimal.bits_congr hvalue, Decimal.bits_shortest h]

theorem exists_written_finite {sign : Sign} (h : Canonical m e)
    (hzero : sign = .plus ∨ magnitudeBits m e ≠ 0) :
    ∃ w : Written, w.Plain ∧ finiteLiteral sign m e = signed sign w.text ∧
      w.decimal.bits = magnitudeBits m e := by
  have hne (hwhole : (Binary64.finite sign m e).whole? ≠ some 0) : m ≠ 0 := by
    intro hm
    subst hm
    exact hwhole (whole?_zero sign e)
  rw [finiteLiteral]
  split
  · rename_i hwhole
    have hvalue := value_of_whole? hwhole
    have hm : m = 0 := by
      have hproduct : (m : ℚ) * 2 ^ e = 0 := by rw [← hvalue, Nat.cast_zero]
      exact_mod_cast (mul_eq_zero.mp hproduct).resolve_right (two_zpow_pos e).ne'
    subst hm
    obtain rfl := hzero.resolve_right (Classical.not_not.mpr (magnitudeBits_zero h))
    obtain ⟨w, hplain, htext, hbits⟩ := exists_written_digits h hvalue
    exact ⟨w, hplain, htext.symm, hbits⟩
  · rename_i n hpositive hwhole
    split
    · obtain ⟨w, hplain, htext, hbits⟩ := exists_written_digits h (value_of_whole? hwhole)
      exact ⟨w, hplain, by rw [htext], hbits⟩
    · obtain ⟨w, hplain, htext, hbits⟩ :=
        exists_written_magnitude h (hne (by simpa [hwhole] using hpositive))
      exact ⟨w, hplain, by rw [htext], hbits⟩
  · rename_i hwhole
    obtain ⟨w, hplain, htext, hbits⟩ := exists_written_magnitude h (hne (by simp [hwhole]))
    exact ⟨w, hplain, by rw [htext], hbits⟩

/-- A number other than the negative zero is written, with a minus in front if it is
negative, so that the rest is read as its magnitude. -/
theorem exists_written_literal? (sign : Sign) {magnitude : Nat} (h : magnitude ≤ infinityBits)
    (hzero : sign = .plus ∨ magnitude ≠ 0) :
    ∃ w : Written, w.Plain ∧
      literal? (toFloat sign magnitude) = some (String.ofList (signed sign w.text)) ∧
      w.decimal.bits = magnitude := by
  rcases Nat.lt_or_eq_of_le h with hlt | rfl
  · obtain ⟨m, e, hfinite, hcanonical, rfl⟩ := exists_ofFloat_toFloat sign hlt
    obtain ⟨w, hplain, htext, hbits⟩ := exists_written_finite hcanonical hzero
    exact ⟨w, hplain, by rw [literal?, hfinite, ← htext], hbits⟩
  · -- Infinity is written as a power of ten too large to be finite.
    have hone : Figures ['1'] := by simp [Figures]
    have hnines : Figures ['9', '9', '9'] := by simp [Figures]
    refine ⟨⟨['1'], none, some (none, ['9', '9', '9'])⟩, ⟨hone, ?_, ?_, ?_⟩, ?_, ?_⟩
    · simp
    · simp
    · intro m' hm'
      obtain rfl := Option.some.inj hm'
      exact ⟨hnines, by simp⟩
    · rw [literal?, ofFloat_infinity]
      cases sign <;> rfl
    · decide

theorem literal?_of_isNaN {v : Float} (h : v.isNaN = true) : literal? v = none := by
  rw [literal?, ofFloat_of_isNaN h]

theorem exists_literal? {v : Float} (h : v.isNaN = false) : ∃ text, literal? v = some text := by
  obtain ⟨sign, magnitude, hle, rfl⟩ := exists_toFloat h
  rcases Nat.lt_or_eq_of_le hle with hlt | rfl
  · obtain ⟨m, e, hfinite, -, -⟩ := exists_ofFloat_toFloat sign hlt
    exact ⟨_, by rw [literal?, hfinite]⟩
  · rw [literal?, ofFloat_infinity]
    cases sign <;> exact ⟨_, rfl⟩

end Numeral

end Reckoner
