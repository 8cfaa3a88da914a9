import Mathlib.Logic.Basic
import Reckoner.Proofs.Lexing.Terminals

/-!
The tokens of a text partition it: each is the longest match of a terminal where it
stands, no two share a character, and what lies between them is layout. A text without
such a partition has one up to the first place that begins neither a token nor layout,
and that place is the one the error names.
-/

namespace Reckoner.Lexer

open Text

/-- The token was read from the text where it begins, and no longer match begins there. -/
structure MatchedAt (text : List Char) (start : Nat) (t : Token) : Prop where
  position : t.position = start
  slice : t.lexeme.toList = (text.drop start).take t.lexeme.length
  longest : ∃ terminal : Terminal,
    Longest terminal (text.drop start) t.lexeme.toList ∧ t.kind = terminal.kind t.lexeme

def Token.Spans (t : Token) (i : Nat) : Prop :=
  t.position ≤ i ∧ i < t.position + t.lexeme.length

/-- The tokens, in the order they stand in, with layout between them make up the text from
one place to another. -/
structure Partition (text : List Char) (low high : Nat) (tokens : List Token) : Prop where
  matched : ∀ t ∈ tokens, ∃ start : Nat,
    low ≤ start ∧ start + t.lexeme.length ≤ high ∧ MatchedAt text start t
  increasing : tokens.Pairwise fun t u => t.position < u.position
  disjoint : tokens.Pairwise fun t u => t.position + (t.lexeme.length : Int) ≤ u.position
  covered : ∀ i, low ≤ i → i < high → (∀ t ∈ tokens, ¬ Token.Spans t i) →
    ∃ c ∈ [' ', '\t', '\x0c', '\r', '\n'], text[i]? = some c

/-- The character begins neither layout nor a match of any terminal. -/
structure Stuck (text : List Char) (position : Nat) (c : Char) : Prop where
  here : text[position]? = some c
  not_layout : c ∉ [' ', '\t', '\x0c', '\r', '\n']
  unmatched : ∀ terminal : Terminal, ∀ word ∈ terminal.words, ¬ word <+: text.drop position

variable {text : List Char} {low high start position : Nat} {t : Token} {tokens : List Token}
  {c : Char}

theorem isLayout_iff : isLayout c = true ↔ c ∈ [' ', '\t', '\x0c', '\r', '\n'] := by
  simp [isLayout, or_assoc]

namespace MatchedAt

theorem lexeme?_drop (h : MatchedAt text start t) :
    lexeme? (text.drop start) = some (t.kind, t.lexeme.toList) := by
  obtain ⟨terminal, hlongest, hkind⟩ := h.longest
  exact lexeme?_eq_some_iff.mpr ⟨terminal, hlongest, by rw [hkind, String.ofList_toList]⟩

theorem of_lexeme? {kind : TokenKind} {lexeme : List Char}
    (h : lexeme? (text.drop start) = some (kind, lexeme)) :
    MatchedAt text start ⟨kind, String.ofList lexeme, start⟩ := by
  obtain ⟨terminal, hlongest, hkind⟩ := lexeme?_eq_some_iff.mp h
  refine ⟨rfl, ?_, terminal, ?_, hkind⟩
  · rw [String.toList_ofList, String.length_ofList]
    exact List.prefix_iff_eq_take.mp hlongest.begins
  · rwa [String.toList_ofList]

theorem length_pos (h : MatchedAt text start t) : 0 < t.lexeme.length := by
  obtain ⟨terminal, hlongest, -⟩ := h.longest
  rw [← String.length_toList]
  exact List.length_pos_iff.mpr hlongest.ne_nil

theorem le_length (h : MatchedAt text start t) : start + t.lexeme.length ≤ text.length := by
  have hpos := h.length_pos
  have hlength := congrArg List.length h.slice
  rw [String.length_toList, List.length_take, List.length_drop] at hlength
  omega

end MatchedAt

theorem isLayout_of_ofFirst? {terminal : Terminal} (h : Terminal.ofFirst? c = some terminal) :
    isLayout c = false := by
  rw [Bool.eq_false_iff]
  intro hlayout
  unfold Terminal.ofFirst? at h
  split at h
  · rename_i hopens
    exact Bool.false_ne_true (hopens.isSpacing.symm.trans (isSpacing_of_isLayout hlayout))
  split at h
  · rename_i hname
    have hpart := isNamePart_of_isNameStart hname
    exact Bool.false_ne_true ((isLayout_of_isNamePart hpart).symm.trans hlayout)
  · have hmem := isLayout_iff.mp hlayout
    simp only [List.mem_cons, List.not_mem_nil, or_false] at hmem
    rcases hmem with rfl | rfl | rfl | rfl | rfl <;> simp at h

theorem drop_eq_cons (h : text[low]? = some c) : text.drop low = c :: text.drop (low + 1) := by
  obtain ⟨hlow, rfl⟩ := List.getElem?_eq_some_iff.mp h
  exact List.drop_eq_getElem_cons hlow

namespace Partition

theorem refl (text : List Char) (low : Nat) : Partition text low low [] :=
  ⟨by simp, .nil, .nil, fun i hlow hhigh => absurd hhigh (Nat.not_lt.mpr hlow)⟩

theorem layout (hc : text[low]? = some c) (hlayout : isLayout c = true)
    (h : Partition text (low + 1) high tokens) : Partition text low high tokens := by
  refine ⟨fun t ht => ?_, h.increasing, h.disjoint, fun i hlow hhigh hfree => ?_⟩
  · obtain ⟨start, hstart, hstop, hmatched⟩ := h.matched t ht
    exact ⟨start, Nat.le_of_succ_le hstart, hstop, hmatched⟩
  · rcases Nat.eq_or_lt_of_le hlow with rfl | hlow
    · exact ⟨c, isLayout_iff.mp hlayout, hc⟩
    · exact h.covered i hlow hhigh hfree

theorem cons (ht : MatchedAt text low t) (hle : low + t.lexeme.length ≤ high)
    (h : Partition text (low + t.lexeme.length) high tokens) :
    Partition text low high (t :: tokens) := by
  have hpos := ht.length_pos
  have hposition := ht.position
  have hbehind : ∀ u ∈ tokens, t.position + t.lexeme.length ≤ u.position := by
    intro u hu
    obtain ⟨start, hstart, -, hmatched⟩ := h.matched u hu
    have := hmatched.position
    omega
  constructor
  · intro u hu
    rcases List.mem_cons.mp hu with rfl | hu
    · exact ⟨low, le_rfl, hle, ht⟩
    · obtain ⟨start, hstart, hstop, hmatched⟩ := h.matched u hu
      exact ⟨start, by omega, hstop, hmatched⟩
  · refine .cons (fun u hu => ?_) h.increasing
    have := hbehind u hu
    omega
  · exact .cons hbehind h.disjoint
  · intro i hlow hhigh hfree
    obtain ⟨hnot, hfree⟩ := List.forall_mem_cons.mp hfree
    refine h.covered i ?_ hhigh hfree
    rw [Token.Spans] at hnot
    omega

theorem eq_nil (h : Partition text low low tokens) : tokens = [] := by
  rw [List.eq_nil_iff_forall_not_mem]
  intro t ht
  obtain ⟨start, hstart, hstop, hmatched⟩ := h.matched t ht
  have := hmatched.length_pos
  omega

/-- Behind a token that begins the partition the others make up what is left. -/
theorem tail (h : Partition text low high (t :: tokens)) (hfirst : t.position = low) :
    MatchedAt text low t ∧ low + t.lexeme.length ≤ high ∧
      Partition text (low + t.lexeme.length) high tokens := by
  obtain ⟨hbehind, hdisjoint⟩ := List.pairwise_cons.mp h.disjoint
  obtain ⟨start, -, hstop, hmatched⟩ := h.matched t List.mem_cons_self
  obtain rfl : start = low := Int.ofNat.inj (hmatched.position.symm.trans hfirst)
  refine ⟨hmatched, hstop, fun u hu => ?_, (List.pairwise_cons.mp h.increasing).2, hdisjoint, ?_⟩
  · obtain ⟨start', -, hstop', hmatched'⟩ := h.matched u (List.mem_cons_of_mem t hu)
    have hbehind := hbehind u hu
    have hposition' := hmatched'.position
    exact ⟨start', by omega, hstop', hmatched'⟩
  · intro i hlow hhigh hfree
    refine h.covered i (by omega) hhigh (List.forall_mem_cons.mpr ⟨?_, hfree⟩)
    rw [Token.Spans]
    omega

/-- Where no token begins there is layout, and the tokens make up what follows it. -/
theorem gap (h : Partition text low high tokens) (hlt : low < high)
    (hgap : ∀ t ∈ tokens, t.position ≠ low) :
    ∃ c, text[low]? = some c ∧ isLayout c = true ∧ Partition text (low + 1) high tokens := by
  have hlater : ∀ t ∈ tokens, ∃ start : Nat,
      low + 1 ≤ start ∧ start + t.lexeme.length ≤ high ∧ MatchedAt text start t := by
    intro t ht
    obtain ⟨start, hstart, hstop, hmatched⟩ := h.matched t ht
    have hposition := hmatched.position
    have hne := hgap t ht
    exact ⟨start, by omega, hstop, hmatched⟩
  have hfree : ∀ t ∈ tokens, ¬ Token.Spans t low := by
    intro t ht
    obtain ⟨start, hstart, -, hmatched⟩ := hlater t ht
    have hposition := hmatched.position
    rw [Token.Spans]
    omega
  obtain ⟨c, hc, hhere⟩ := h.covered low le_rfl hlt hfree
  exact ⟨c, hhere, isLayout_iff.mpr hc, hlater, h.increasing, h.disjoint,
    fun i hlow => h.covered i (Nat.le_of_succ_le hlow)⟩

/-- A partition of more than nothing begins with layout or with its first token. -/
theorem cases_first (h : Partition text low high tokens) (hlt : low < high) :
    (∃ c, text[low]? = some c ∧ isLayout c = true ∧ Partition text (low + 1) high tokens) ∨
    ∃ t rest, tokens = t :: rest ∧ MatchedAt text low t ∧ low + t.lexeme.length ≤ high ∧
      Partition text (low + t.lexeme.length) high rest := by
  by_cases hgap : ∀ t ∈ tokens, t.position ≠ low
  · exact .inl (h.gap hlt hgap)
  · right
    push Not at hgap
    obtain ⟨u, hu, hlow⟩ := hgap
    cases tokens with
    | nil => exact absurd hu List.not_mem_nil
    | cons t rest =>
      obtain ⟨start, hstart, -, hmatched⟩ := h.matched t List.mem_cons_self
      have hposition := hmatched.position
      have hfirst : t.position = low := by
        rcases List.mem_cons.mp hu with rfl | hu
        · exact hlow
        · have hbefore := (List.pairwise_cons.mp h.increasing).1 u hu
          omega
      obtain ⟨hmatched, hstop, hrest⟩ := h.tail hfirst
      exact ⟨t, rest, rfl, hmatched, hstop, hrest⟩

end Partition

theorem scan_layout (hc : text[low]? = some c) (hlayout : isLayout c = true) :
    scan low 0 (text.drop low) = scan (low + 1) 0 (text.drop (low + 1)) := by
  rw [drop_eq_cons hc, scan, if_pos hlayout]

theorem MatchedAt.scan_eq (h : MatchedAt text low t) :
    scan low 0 (text.drop low) =
      (scan (low + t.lexeme.length) 0 (text.drop (low + t.lexeme.length))).map (t :: ·) := by
  obtain ⟨terminal, hlongest, -⟩ := h.longest
  obtain ⟨c, cs, hcons, hfirst⟩ := ofFirst?_of_mem hlongest.mem
  have hlexeme := h.lexeme?_drop
  have hlength : (c :: cs).length = t.lexeme.length := by rw [← hcons, String.length_toList]
  have hdrop : c :: cs ++ text.drop (low + t.lexeme.length) = text.drop low := by
    rw [← List.prefix_iff_eq_append.mp hlongest.begins, hcons, List.drop_drop, hlength]
  rw [hcons, ← hdrop] at hlexeme
  have hscan := scan_lexeme low (isLayout_of_ofFirst? hfirst) hlexeme
  rw [hdrop, hlength, ← hcons, String.ofList_toList, ← h.position] at hscan
  exact hscan

/-- Reading a part of the text that is partitioned gives its tokens. -/
theorem Partition.scan_eq (h : Partition text low high tokens) (hle : low ≤ high) :
    scan low 0 (text.drop low) = (scan high 0 (text.drop high)).map (tokens ++ ·) := by
  induction hn : high - low using Nat.strong_induction_on generalizing low tokens with
  | _ n ih =>
    rcases Nat.eq_or_lt_of_le hle with rfl | hlt
    · rw [h.eq_nil]
      cases scan low 0 (text.drop low) <;> rfl
    · obtain ⟨c, hc, hlayout, hrest⟩ | ⟨t, rest, rfl, hmatched, hstop, hrest⟩ := h.cases_first hlt
      · rw [scan_layout hc hlayout, ih _ (by omega) hrest hlt rfl]
      · have hpos := hmatched.length_pos
        rw [hmatched.scan_eq, ih _ (by omega) hrest hstop rfl]
        cases scan high 0 (text.drop high) <;> rfl

theorem Stuck.scan_eq (h : Stuck text position c) :
    scan position 0 (text.drop position) = .error (.unexpectedCharacter c position) := by
  have hlexeme := lexeme?_eq_none_iff.mpr h.unmatched
  have hlayout : isLayout c = false := by
    rw [Bool.eq_false_iff]
    exact fun hlayout => h.not_layout (isLayout_iff.mp hlayout)
  rw [drop_eq_cons h.here] at hlexeme ⊢
  rw [scan, hlayout, hlexeme]
  rfl

/-- From every place the text is partitioned up to its end or up to a place where nothing
can be read. -/
theorem exists_partition (hle : low ≤ text.length) :
    ∃ high tokens, low ≤ high ∧ Partition text low high tokens ∧
      (high = text.length ∨ ∃ c, Stuck text high c) := by
  induction hn : text.length - low using Nat.strong_induction_on generalizing low with
  | _ n ih =>
    rcases Nat.eq_or_lt_of_le hle with rfl | hlt
    · exact ⟨_, [], le_rfl, .refl text _, .inl rfl⟩
    have hc : text[low]? = some text[low] := List.getElem?_eq_getElem hlt
    by_cases hlayout : isLayout text[low] = true
    · obtain ⟨high, tokens, hlow, hrest, hend⟩ := ih _ (by omega) hlt rfl
      exact ⟨high, tokens, Nat.le_of_succ_le hlow, .layout hc hlayout hrest, hend⟩
    cases hlexeme : lexeme? (text.drop low) with
    | none =>
      have hnot : text[low] ∉ [' ', '\t', '\x0c', '\r', '\n'] := fun h =>
        hlayout (isLayout_iff.mpr h)
      exact ⟨low, [], le_rfl, .refl text low, .inr ⟨_, hc, hnot, lexeme?_eq_none_iff.mp hlexeme⟩⟩
    | some found =>
      obtain ⟨kind, lexeme⟩ := found
      have hmatched := MatchedAt.of_lexeme? hlexeme
      have hpos := hmatched.length_pos
      obtain ⟨high, tokens, hlow, hrest, hend⟩ := ih _ (by omega) hmatched.le_length rfl
      exact ⟨high, _, by omega, .cons hmatched hlow hrest, hend⟩

/-- A point is no numeral unless a digit follows it. -/
theorem stuck_point_iff :
    Stuck text position '.' ↔
      text[position]? = some '.' ∧ ∀ c ∈ text[position + 1]?, isDigit c = false := by
  constructor
  · intro h
    refine ⟨h.here, fun c hc => ?_⟩
    rw [Bool.eq_false_iff]
    intro hdigit
    have hnone : Digits [] := List.forall_mem_nil _
    have hpart : Digits [c] := List.forall_mem_singleton.mpr hdigit
    have hword : ['.', c] ∈ Terminal.number.words :=
      mem_words_number.mpr
        ⟨_, [], .pointed hnone hpart (.inr (List.cons_ne_nil c [])), .inl rfl, rfl⟩
    refine h.unmatched .number _ hword ⟨text.drop (position + 2), ?_⟩
    rw [drop_eq_cons h.here, drop_eq_cons hc]
    rfl
  · rintro ⟨here, hnext⟩
    refine ⟨here, by decide, fun terminal word hword hbegins => ?_⟩
    have hfirst := ofFirst?_of_begins hword hbegins
    have hnumber : Terminal.ofFirst? '.' = some .number := if_pos (.inr rfl)
    rw [drop_eq_cons here, List.head?_cons, Option.bind_some, hnumber, Option.some_inj] at hfirst
    subst hfirst
    have hdigits : (text.drop (position + 1)).takeWhile isDigit = [] := by
      cases hc : text[position + 1]? with
      | none => simp [List.drop_eq_nil_of_le (List.getElem?_eq_none_iff.mp hc)]
      | some c => simp [drop_eq_cons hc, hnext c hc]
    have hpoint : isDigit '.' = false := by decide
    have hnone : numeral (text.drop position) = [] := by
      rw [drop_eq_cons here]
      simp [numeral, pointPart, hpoint, hdigits]
    have hprefix := prefix_numeral hword hbegins
    rw [hnone] at hprefix
    obtain ⟨c, rest, rfl, -⟩ := ofFirst?_of_mem hword
    exact List.cons_ne_nil c rest (List.prefix_nil.mp hprefix)

/-- The outcome of a text with tokens: they partition it, and the end comes after them. -/
def HasTokens (text : String) (tokens : List Token) : Prop :=
  ∃ body, Partition text.toList 0 text.length body ∧
    tokens = body ++ [⟨.finish, "", text.length⟩]

def FailsAt (text : String) (position : Nat) (c : Char) : Prop :=
  Stuck text.toList position c ∧ ∃ before, Partition text.toList 0 position before

theorem HasTokens.tokenize_eq {text : String} (h : HasTokens text tokens) :
    tokenize text = .ok tokens := by
  obtain ⟨body, hbody, rfl⟩ := h
  have hscan := hbody.scan_eq (Nat.zero_le _)
  rw [List.drop_zero, ← String.length_toList, List.drop_length] at hscan
  rw [tokenize, hscan, scan, String.length_toList]
  rfl

theorem FailsAt.tokenize_eq {text : String} (h : FailsAt text position c) :
    tokenize text = .error (.unexpectedCharacter c position) := by
  obtain ⟨hstuck, before, hbefore⟩ := h
  have hscan := hbefore.scan_eq (Nat.zero_le _)
  rw [List.drop_zero, hstuck.scan_eq] at hscan
  exact hscan

theorem hasTokens_or_failsAt (text : String) :
    (∃ tokens, HasTokens text tokens) ∨ ∃ position c, FailsAt text position c := by
  have hlow : 0 ≤ text.toList.length := Nat.zero_le _
  obtain ⟨high, tokens, -, hpartition, rfl | ⟨c, hstuck⟩⟩ := exists_partition hlow
  · rw [String.length_toList] at hpartition
    exact .inl ⟨_, tokens, hpartition, rfl⟩
  · exact .inr ⟨high, c, hstuck, tokens, hpartition⟩

theorem tokenize_eq_ok {text : String} : tokenize text = .ok tokens ↔ HasTokens text tokens := by
  refine ⟨fun h => ?_, HasTokens.tokenize_eq⟩
  rcases hasTokens_or_failsAt text with ⟨found, hfound⟩ | ⟨position, c, hfails⟩
  · rw [hfound.tokenize_eq] at h
    obtain rfl := Except.ok.inj h
    exact hfound
  · rw [hfails.tokenize_eq] at h
    cases h

theorem tokenize_eq_error {text : String} {e : ParseError} : tokenize text = .error e ↔
    ∃ position c, FailsAt text position c ∧ e = .unexpectedCharacter c position := by
  constructor
  · intro h
    rcases hasTokens_or_failsAt text with ⟨found, hfound⟩ | ⟨position, c, hfails⟩
    · rw [hfound.tokenize_eq] at h
      cases h
    · rw [hfails.tokenize_eq] at h
      exact ⟨position, c, hfails, (Except.error.inj h).symm⟩
  · rintro ⟨position, c, hfails, rfl⟩
    exact hfails.tokenize_eq

/-- Every text has one of two outcomes. Either longest matches of the terminals partition it
and are its tokens, with the end behind them, or it is partitioned up to a first place where
no terminal has a match, and the error names that place and the character there. A point
without a digit behind it is such a place. -/
theorem tokenize_partition (text : String) :
    (∀ tokens, tokenize text = .ok tokens ↔ HasTokens text tokens) ∧
    (∀ e, tokenize text = .error e ↔
      ∃ position c, FailsAt text position c ∧ e = .unexpectedCharacter c position ∧
        e.diagnostic.position = position ∧
        e.diagnostic.message = "unexpected character '" ++ c.toString ++ "'") ∧
    Xor (∃ tokens, HasTokens text tokens) (∃ position c, FailsAt text position c) ∧
    ∀ position, Stuck text.toList position '.' ↔
      text.toList[position]? = some '.' ∧ ∀ c ∈ text.toList[position + 1]?, isDigit c = false := by
  have hor := hasTokens_or_failsAt text
  refine ⟨fun tokens => ⟨fun h => ?_, HasTokens.tokenize_eq⟩, fun e => ⟨fun h => ?_, ?_⟩, ?_,
    fun position => stuck_point_iff⟩
  · rcases hor with ⟨found, hfound⟩ | ⟨position, c, hfails⟩
    · rw [hfound.tokenize_eq] at h
      obtain rfl := Except.ok.inj h
      exact hfound
    · rw [hfails.tokenize_eq] at h
      simp at h
  · rcases hor with ⟨found, hfound⟩ | ⟨position, c, hfails⟩
    · rw [hfound.tokenize_eq] at h
      simp at h
    · rw [hfails.tokenize_eq] at h
      obtain rfl := Except.error.inj h
      exact ⟨position, c, hfails, rfl, rfl, rfl⟩
  · rintro ⟨position, c, hfails, rfl, -, -⟩
    exact hfails.tokenize_eq
  · rw [xor_iff_or_and_not_and]
    refine ⟨hor, ?_⟩
    rintro ⟨⟨tokens, htokens⟩, position, c, hfails⟩
    have hok := htokens.tokenize_eq
    rw [hfails.tokenize_eq] at hok
    simp at hok

/-- The exponent mark without digits is given back, and what it begins is a name. -/
example : (tokenize "1..5e+x").toOption.map (·.map Token.lexeme) =
    some ["1.", ".5", "e", "+", "x", ""] := by
  decide

end Reckoner.Lexer
