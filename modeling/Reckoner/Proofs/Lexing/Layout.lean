import Mathlib.Data.List.Basic
import Reckoner.Proofs.Lexing.Partition

/-!
Layout cuts a text. No word of a terminal holds a layout character, so a match that begins
before layout ends before it, and whether there is one and how long it is can be told from
the text up to there: an exponent mark or a point at its end is given back or refused just
as at the end of a text. So texts with layout between them are read one after the other,
and lexemes with layout between them are read as the same lexemes again.
-/

namespace Reckoner

def Token.later (t : Token) (distance : Nat) : Token := { t with position := t.position + distance }

def Token.word (t : Token) : TokenKind × String := (t.kind, t.lexeme)

/-- What a token contributes to a text its lexeme is put into: itself, and nothing if it is
the end. -/
def Token.own (t : Token) : List (TokenKind × String) :=
  if t.kind = .finish then [] else [t.word]

namespace Lexer

open Text

structure IsGap (gap : String) : Prop where
  ne_empty : gap ≠ ""
  layout : ∀ c ∈ gap.toList, c ∈ [' ', '\t', '\x0c', '\r', '\n']

/-- The pieces one after the other, each gap in its place between two of them. -/
def joined : (gaps : Nat → String) → List String → String
  | _, [] => ""
  | _, [piece] => piece
  | gaps, piece :: next :: pieces =>
      piece ++ gaps 0 ++ joined (fun i => gaps (i + 1)) (next :: pieces)

variable {a b w text : String} {before after : List Token} {cs rest lexeme : List Char}
  {c : Char} {t : Token} {tokens : List Token} {start position passing distance : Nat}
  {terminal : Terminal} {word : List Char} {e : ParseError} {gaps : Nat → String}

theorem Body.not_layout (h : Body word) : ∀ d ∈ word, isLayout d = false := by
  have hdigit : ∀ d, isDigit d = true → isLayout d = false := by
    intro d hd
    have hfirst : Terminal.ofFirst? d = some .number := if_pos (.inl hd)
    exact isLayout_of_ofFirst? hfirst
  intro d hd
  cases h with
  | whole hds => exact hdigit d (hds d hd)
  | pointed hds hpart =>
    rcases List.mem_append.mp hd with hd | hd
    · exact hdigit d (hds d hd)
    rcases List.mem_cons.mp hd with rfl | hd
    · decide
    · exact hdigit d (hpart d hd)

theorem Exponent.not_layout (h : Exponent word) : ∀ d ∈ word, isLayout d = false := by
  obtain @⟨e, sign, ds, he, hsign, hds, hne⟩ := h
  intro d hd
  rcases List.mem_cons.mp hd with rfl | hd
  · rcases he with rfl | rfl <;> decide
  rcases List.mem_append.mp hd with hd | hd
  · rcases hsign with rfl | rfl | rfl
    · exact absurd hd List.not_mem_nil
    · obtain rfl := List.mem_singleton.mp hd
      decide
    · obtain rfl := List.mem_singleton.mp hd
      decide
  · exact (Body.whole hds hne).not_layout d hd

/-- No terminal spans layout. -/
theorem not_layout_of_mem_words (h : word ∈ terminal.words) : ∀ d ∈ word, isLayout d = false := by
  cases terminal with
  | number =>
    obtain ⟨body, mark, hbody, hmark, rfl⟩ := mem_words_number.mp h
    intro d hd
    rcases List.mem_append.mp hd with hd | hd
    · exact hbody.not_layout d hd
    rcases hmark with rfl | hmark
    · exact absurd hd List.not_mem_nil
    · exact hmark.not_layout d hd
  | name =>
    obtain ⟨first, part, hfirst, hpart, rfl⟩ := mem_words_name.mp h
    intro d hd
    rcases List.mem_cons.mp hd with rfl | hd
    · exact isLayout_of_isNamePart (isNamePart_of_isNameStart hfirst)
    · exact isLayout_of_isNamePart (hpart d hd)
  | _ =>
    obtain rfl := mem_single.mp h
    intro d hd
    obtain rfl := List.mem_singleton.mp hd
    decide

/-- Nor does one look past it. -/
theorem begins_append_layout (hc : isLayout c = true) (hword : word ∈ terminal.words) :
    word <+: cs ++ c :: rest ↔ word <+: cs := by
  constructor
  · intro hbegins
    rcases List.prefix_or_prefix_of_prefix hbegins (List.prefix_append cs _) with h | ⟨tail, rfl⟩
    · exact h
    cases tail with
    | nil => exact ⟨[], by simp⟩
    | cons d tail =>
      rw [List.prefix_append_right_inj, List.cons_prefix_cons] at hbegins
      obtain ⟨rfl, -⟩ := hbegins
      have hfree := not_layout_of_mem_words hword d (by simp)
      exact absurd (hc.symm.trans hfree) (by decide)
  · intro hbegins
    exact hbegins.trans (List.prefix_append cs _)

theorem longest_append_layout (hc : isLayout c = true) :
    Longest terminal (cs ++ c :: rest) lexeme ↔ Longest terminal cs lexeme := by
  constructor
  · intro h
    refine ⟨h.mem, (begins_append_layout hc h.mem).mp h.begins, fun other hother hbegins => ?_⟩
    exact h.longest other hother ((begins_append_layout hc hother).mpr hbegins)
  · intro h
    refine ⟨h.mem, (begins_append_layout hc h.mem).mpr h.begins, fun other hother hbegins => ?_⟩
    exact h.longest other hother ((begins_append_layout hc hother).mp hbegins)

theorem lexeme?_append_layout (cs rest : List Char) (hc : isLayout c = true) :
    lexeme? (cs ++ c :: rest) = lexeme? cs := by
  ext ⟨kind, lexeme⟩
  rw [lexeme?_eq_some_iff, lexeme?_eq_some_iff]
  exact exists_congr fun terminal => and_congr_left' (longest_append_layout hc)

theorem ne_finish_of_lexeme? {kind : TokenKind} (h : lexeme? cs = some (kind, lexeme)) :
    kind ≠ .finish := by
  obtain ⟨terminal, -, hkind⟩ := lexeme?_eq_some_iff.mp h
  rintro rfl
  exact absurd (Terminal.ofKind?_of_kind hkind) (by simp [Terminal.ofKind?])

/-- What is passed over of a token lies in the text. -/
theorem passing_le {kind : TokenKind} (h : lexeme? (c :: cs) = some (kind, lexeme)) :
    lexeme.length - 1 ≤ cs.length := by
  obtain ⟨terminal, hlongest, -⟩ := lexeme?_eq_some_iff.mp h
  have hlength := hlongest.begins.length_le
  rw [List.length_cons] at hlength
  omega

/-- A token is put before those that are read after it. -/
theorem scan_token {kind : TokenKind} (position : Nat) (hlayout : ¬ isLayout c = true)
    (hlexeme : lexeme? (c :: cs) = some (kind, lexeme)) :
    scan position 0 (c :: cs) =
      (scan (position + 1) (lexeme.length - 1) cs).map
        (⟨kind, String.ofList lexeme, position⟩ :: ·) := by
  simp only [scan, if_neg hlayout, hlexeme]
  cases scan (position + 1) (lexeme.length - 1) cs <;> rfl

/-- What is read of a text before layout does not depend on what comes behind it: its tokens
without the end stand before those of what follows, and its error stays. -/
theorem scan_append_layout (position passing : Nat) (cs : List Char)
    (hpassing : passing ≤ cs.length) :
    (∃ body, (∀ t ∈ body, t.kind ≠ .finish) ∧
      scan position passing cs = .ok (body ++ [⟨.finish, "", ↑(position + cs.length)⟩]) ∧
      ∀ c rest, isLayout c = true → scan position passing (cs ++ c :: rest) =
        (scan (position + cs.length) 0 (c :: rest)).map (body ++ ·)) ∨
    ∃ e, scan position passing cs = .error e ∧
      ∀ c rest, isLayout c = true → scan position passing (cs ++ c :: rest) = .error e := by
  -- each step is the same with and without what follows, `lexeme?` included
  fun_induction scan position passing cs with
  | case1 passing position =>
    obtain rfl : passing = 0 := Nat.le_zero.mp hpassing
    refine .inl ⟨[], List.forall_mem_nil _, rfl, fun c rest hc => ?_⟩
    show scan position 0 (c :: rest) = (scan position 0 (c :: rest)).map ([] ++ ·)
    cases scan position 0 (c :: rest) <;> rfl
  | case2 position passing d cs ih =>
    have ih := ih (Nat.le_of_succ_le_succ hpassing)
    have hplace : position + 1 + cs.length = position + (d :: cs).length :=
      Nat.succ_add_eq_add_succ ..
    rw [hplace] at ih
    simpa only [List.cons_append, scan] using ih
  | case3 position d cs hd ih =>
    have ih := ih (Nat.zero_le _)
    have hplace : position + 1 + cs.length = position + (d :: cs).length :=
      Nat.succ_add_eq_add_succ ..
    rw [hplace] at ih
    simpa only [List.cons_append, scan, hd, if_true] using ih
  | case4 position d cs hd hlexeme =>
    refine .inr ⟨_, rfl, fun c rest hc => ?_⟩
    have hsame := lexeme?_append_layout (d :: cs) rest hc
    rw [List.cons_append] at hsame
    rw [List.cons_append, scan, if_neg hd, hsame, hlexeme]
  | case5 position d cs hd kind lexeme hlexeme tokens hscan ih =>
    rcases ih (passing_le hlexeme) with ⟨body, hbody, hok, hgap⟩ | ⟨e, herror, -⟩
    · obtain rfl := Except.ok.inj (hscan.symm.trans hok)
      have hkind : kind ≠ .finish := ne_finish_of_lexeme? hlexeme
      have hend : position + 1 + cs.length = position + (d :: cs).length :=
        Nat.succ_add_eq_add_succ ..
      rw [hend] at hgap
      refine .inl ⟨⟨kind, String.ofList lexeme, position⟩ :: body,
        List.forall_mem_cons.mpr ⟨hkind, hbody⟩, by rw [hend, List.cons_append],
        fun c rest hc => ?_⟩
      have hsame := lexeme?_append_layout (d :: cs) rest hc
      rw [List.cons_append] at hsame
      rw [List.cons_append, scan_token position hd (hsame.trans hlexeme), hgap c rest hc]
      cases scan (position + (d :: cs).length) 0 (c :: rest) <;> rfl
    · exact absurd (hscan.symm.trans herror) (by simp)
  | case6 position d cs hd kind lexeme hlexeme e hscan ih =>
    rcases ih (passing_le hlexeme) with ⟨body, -, hok, -⟩ | ⟨e, herror, hgap⟩
    · exact absurd (hscan.symm.trans hok) (by simp)
    · obtain rfl := Except.error.inj (hscan.symm.trans herror)
      refine .inr ⟨_, rfl, fun c rest hc => ?_⟩
      have hsame := lexeme?_append_layout (d :: cs) rest hc
      rw [List.cons_append] at hsame
      rw [List.cons_append, scan_token position hd (hsame.trans hlexeme), hgap c rest hc]
      rfl

/-- Layout is passed over. -/
theorem scan_gap (position : Nat) (rest : List Char) (hgap : ∀ c ∈ cs, isLayout c = true) :
    scan position 0 (cs ++ rest) = scan (position + cs.length) 0 rest := by
  induction cs generalizing position with
  | nil => rfl
  | cons c cs ih =>
    obtain ⟨hc, hcs⟩ := List.forall_mem_cons.mp hgap
    rw [List.cons_append, scan, if_pos hc, ih (position + 1) hcs, List.length_cons,
      Nat.succ_add_eq_add_succ]

/-- What is read further on is the same, further on. -/
theorem scan_later (distance position passing : Nat) (cs : List Char) :
    (∃ tokens, scan position passing cs = .ok tokens ∧
      scan (distance + position) passing cs = .ok (tokens.map (·.later distance))) ∨
    ∃ c p, scan position passing cs = .error (.unexpectedCharacter c p) ∧
      scan (distance + position) passing cs = .error (.unexpectedCharacter c (distance + p)) := by
  fun_induction scan position passing cs with
  | case1 passing position => exact .inl ⟨_, rfl, by simp [scan, Token.later, Int.add_comm]⟩
  | case2 position passing d cs ih => exact ih
  | case3 position d cs hd ih =>
    rw [scan, if_pos hd]
    exact ih
  | case4 position d cs hd hlexeme =>
    exact .inr ⟨d, position, rfl, by rw [scan, if_neg hd, hlexeme]⟩
  | case5 position d cs hd kind lexeme hlexeme tokens hscan ih =>
    rcases ih with ⟨tokens, hok, hlater⟩ | ⟨c, p, herror, -⟩
    · obtain rfl := Except.ok.inj (hscan.symm.trans hok)
      refine .inl ⟨_, rfl, ?_⟩
      rw [scan_token _ hd hlexeme, Nat.add_assoc, hlater]
      simp [Except.map, Token.later, Int.add_comm]
    · exact absurd (hscan.symm.trans herror) (by simp)
  | case6 position d cs hd kind lexeme hlexeme e hscan ih =>
    rcases ih with ⟨tokens, hok, -⟩ | ⟨c, p, herror, hlater⟩
    · exact absurd (hscan.symm.trans hok) (by simp)
    · obtain rfl := Except.error.inj (hscan.symm.trans herror)
      refine .inr ⟨c, p, rfl, ?_⟩
      rw [scan_token _ hd hlexeme, Nat.add_assoc, hlater]
      rfl

theorem IsGap.isLayout (h : IsGap w) : ∀ c ∈ w.toList, isLayout c = true := fun c hc =>
  isLayout_iff.mpr (h.layout c hc)

/-- Reading goes on behind a gap, at the length of what is before. -/
theorem scan_across (hw : IsGap w) (position : Nat) (rest : List Char) :
    ∃ c cs, w.toList ++ rest = c :: cs ∧ isLayout c = true ∧
      scan position 0 (c :: cs) = scan (position + w.length) 0 rest := by
  have hscan := scan_gap position rest hw.isLayout
  cases hlist : w.toList with
  | nil => exact absurd (String.toList_eq_nil_iff.mp hlist) hw.ne_empty
  | cons c cs =>
    rw [hlist] at hscan
    have hc : Text.isLayout c = true := hw.isLayout c (hlist ▸ List.mem_cons_self)
    refine ⟨c, cs ++ rest, rfl, hc, ?_⟩
    rw [← String.length_toList, hlist]
    exact hscan

/-- Before a gap a text is read to its end or fails, whatever stands behind the gap. -/
theorem tokenize_append_gap (a : String) :
    (∃ body, (∀ t ∈ body, t.kind ≠ .finish) ∧
      tokenize a = .ok (body ++ [⟨.finish, "", a.length⟩]) ∧
      ∀ w b, IsGap w → tokenize (a ++ w ++ b) =
        (scan (a.length + w.length) 0 b.toList).map (body ++ ·)) ∨
    ∃ e, tokenize a = .error e ∧ ∀ w b, IsGap w → tokenize (a ++ w ++ b) = .error e := by
  have hlist : ∀ w b : String, (a ++ w ++ b).toList = a.toList ++ (w.toList ++ b.toList) := by
    simp [String.toList_append]
  have hscan := scan_append_layout 0 0 a.toList (Nat.zero_le _)
  rw [Nat.zero_add, String.length_toList] at hscan
  rcases hscan with ⟨body, hbody, hok, hgap⟩ | ⟨e, herror, hgap⟩
  · refine .inl ⟨body, hbody, hok, fun w b hw => ?_⟩
    obtain ⟨c, cs, hcons, hc, hbehind⟩ := scan_across hw a.length b.toList
    rw [tokenize, hlist, hcons, hgap c cs hc, hbehind]
  · refine .inr ⟨e, herror, fun w b hw => ?_⟩
    obtain ⟨c, cs, hcons, hc, -⟩ := scan_across hw a.length b.toList
    rw [tokenize, hlist, hcons, hgap c cs hc]

/-- Behind a text with tokens and a gap another is read as it is alone. -/
theorem tokenize_across (hw : IsGap w) (ha : tokenize a = .ok before) :
    ∃ body, before = body ++ [⟨.finish, "", a.length⟩] ∧ (∀ t ∈ body, t.kind ≠ .finish) ∧
      (∀ b after, tokenize b = .ok after →
        tokenize (a ++ w ++ b) = .ok (body ++ after.map (·.later (a.length + w.length)))) ∧
      ∀ b e, tokenize b = .error e → ∃ c p, e = .unexpectedCharacter c p ∧
        tokenize (a ++ w ++ b) = .error (.unexpectedCharacter c (a.length + w.length + p)) := by
  rcases tokenize_append_gap a with ⟨body, hbody, hok, hgap⟩ | ⟨e, herror, -⟩
  · refine ⟨body, Except.ok.inj (ha.symm.trans hok), hbody, fun b after hb => ?_, fun b e hb => ?_⟩
    · rcases scan_later (a.length + w.length) 0 0 b.toList with ⟨_, hok, hlater⟩ | ⟨c, p, hfail, -⟩
      · obtain rfl := Except.ok.inj (hb.symm.trans hok)
        rw [hgap w b hw, ← Nat.add_zero (a.length + w.length), hlater]
        rfl
      · exact absurd (hb.symm.trans hfail) (by simp)
    · rcases scan_later (a.length + w.length) 0 0 b.toList with ⟨_, hok, -⟩ | ⟨c, p, hfail, hlater⟩
      · exact absurd (hb.symm.trans hok) (by simp)
      · refine ⟨c, p, Except.error.inj (hb.symm.trans hfail), ?_⟩
        rw [hgap w b hw, ← Nat.add_zero (a.length + w.length), hlater]
        rfl
  · exact absurd (ha.symm.trans herror) (by simp)

theorem MatchedAt.kind_ne_finish (h : MatchedAt cs start t) : t.kind ≠ .finish := by
  rw [ne_eq]
  exact ne_finish_of_lexeme? h.lexeme?_drop

/-- A lexeme alone is read as the token it was. -/
theorem MatchedAt.tokenize_lexeme (h : MatchedAt cs start t) :
    tokenize t.lexeme = .ok ([⟨t.kind, t.lexeme, 0⟩] ++ [⟨.finish, "", t.lexeme.length⟩]) := by
  obtain ⟨terminal, hlongest, hkind⟩ := h.longest
  have hfirst : Longest terminal (t.lexeme.toList.drop 0) t.lexeme.toList :=
    ⟨hlongest.mem, List.prefix_rfl, fun _ _ hbegins => hbegins.length_le⟩
  have hslice : t.lexeme.toList = (t.lexeme.toList.drop 0).take t.lexeme.length := by
    rw [List.drop_zero, ← String.length_toList, List.take_length]
  have halone : MatchedAt t.lexeme.toList 0 ⟨t.kind, t.lexeme, 0⟩ :=
    ⟨rfl, hslice, terminal, hfirst, hkind⟩
  have hscan := halone.scan_eq
  rw [Nat.zero_add, List.drop_zero] at hscan
  rw [tokenize, hscan, ← String.length_toList, List.drop_length, scan]
  rfl

def Rereads (t : Token) : Prop :=
  ∃ body, tokenize t.lexeme = .ok (body ++ [⟨.finish, "", t.lexeme.length⟩]) ∧
    body.map Token.word = t.own

theorem MatchedAt.rereads (h : MatchedAt cs start t) : Rereads t := by
  refine ⟨_, h.tokenize_lexeme, ?_⟩
  rw [Token.own, if_neg h.kind_ne_finish]
  rfl

/-- Lexemes with gaps between them are read one after the other. -/
theorem tokenize_joined (hgaps : ∀ i, IsGap (gaps i)) (h : ∀ t ∈ tokens, Rereads t) :
    ∃ body place, tokenize (joined gaps (tokens.map Token.lexeme)) =
        .ok (body ++ [⟨.finish, "", place⟩]) ∧
      body.map Token.word = tokens.flatMap Token.own := by
  induction tokens generalizing gaps with
  | nil => exact ⟨[], 0, rfl, rfl⟩
  | cons t tokens ih =>
    obtain ⟨⟨body, hbody, hown⟩, h⟩ := List.forall_mem_cons.mp h
    cases tokens with
    | nil => exact ⟨body, _, hbody, by simp [hown]⟩
    | cons u tokens =>
      obtain ⟨later, place, hlater, hrest⟩ := ih (fun i => hgaps (i + 1)) h
      obtain ⟨body', hbody', -, hok, -⟩ := tokenize_across (hgaps 0) hbody
      obtain rfl := List.append_cancel_right hbody'
      have hwhole := hok _ _ hlater
      rw [List.map_append, ← List.append_assoc] at hwhole
      refine ⟨body ++ later.map (·.later (t.lexeme.length + (gaps 0).length)), _, hwhole, ?_⟩
      rw [List.map_append, hown, List.map_map, List.flatMap_cons, ← hrest]
      rfl

/-- Every token of a text is read again from its lexeme, and only the end contributes nothing. -/
theorem HasTokens.rereads (h : HasTokens text tokens) :
    (∀ t ∈ tokens, Rereads t) ∧ tokens.map Token.word =
        tokens.flatMap Token.own ++ [(.finish, "")] ∧
      tokens.dropLast.flatMap Token.own = tokens.flatMap Token.own := by
  obtain ⟨body, hbody, rfl⟩ := h
  have hmatched : ∀ t ∈ body, Rereads t ∧ t.own = [t.word] := by
    intro t ht
    obtain ⟨start, -, -, hmatched⟩ := hbody.matched t ht
    exact ⟨hmatched.rereads, if_neg hmatched.kind_ne_finish⟩
  have hend : Rereads ⟨.finish, "", text.length⟩ := ⟨[], rfl, rfl⟩
  have hown : (body ++ [(⟨.finish, "", text.length⟩ : Token)]).flatMap Token.own =
      body.map Token.word := by
    rw [List.flatMap_append, List.map_eq_flatMap, List.flatMap_congr fun t ht => (hmatched t ht).2]
    exact List.append_nil _
  refine ⟨fun t ht => ?_, ?_, ?_⟩
  · rcases List.mem_append.mp ht with ht | ht
    · exact (hmatched t ht).1
    · rw [List.mem_singleton.mp ht]
      exact hend
  · rw [hown, List.map_append]
    rfl
  · rw [List.dropLast_concat, List.flatMap_append]
    exact (List.append_nil _).symm

/-- Texts with a gap between them are read one after the other: the tokens of the first without
its end, then the tokens of the second, moved behind the gap. The first place that cannot be
read is that of the first text, or else that of the second, moved behind the gap, and the
error is the same. So a text of lexemes with any gaps between them, the empty lexeme of the
end among them or not, is read as the same kinds and lexemes again. -/
theorem tokenize_across_gaps :
    (∀ a w b, IsGap w →
      (∀ before after, tokenize a = .ok before → tokenize b = .ok after →
        before = before.dropLast ++ [⟨.finish, "", a.length⟩] ∧
        (∀ t ∈ before.dropLast, t.kind ≠ .finish) ∧
        tokenize (a ++ w ++ b) =
          .ok (before.dropLast ++ after.map (·.later (a.length + w.length)))) ∧
      (∀ e, tokenize a = .error e → tokenize (a ++ w ++ b) = .error e) ∧
      (∀ before e, tokenize a = .ok before → tokenize b = .error e →
        ∃ c p, e = .unexpectedCharacter c p ∧ tokenize (a ++ w ++ b) =
          .error (.unexpectedCharacter c (a.length + w.length + p)))) ∧
    ∀ text tokens gaps, (∀ i, IsGap (gaps i)) → tokenize text = .ok tokens →
      ∀ lexemes ∈ [tokens.map Token.lexeme, tokens.dropLast.map Token.lexeme],
        ∃ again, tokenize (joined gaps lexemes) = .ok again ∧
          again.map Token.word = tokens.map Token.word := by
  constructor
  · intro a w b hw
    refine ⟨fun before after ha hb => ?_, fun e ha => ?_, fun before e ha hb => ?_⟩
    · obtain ⟨body, rfl, hbody, hok, -⟩ := tokenize_across hw ha
      rw [List.dropLast_concat]
      exact ⟨rfl, hbody, hok b after hb⟩
    · rcases tokenize_append_gap a with ⟨body, -, hok, -⟩ | ⟨e', herror, hgap⟩
      · exact absurd (ha.symm.trans hok) (by simp)
      · obtain rfl := Except.error.inj (ha.symm.trans herror)
        exact hgap w b hw
    · obtain ⟨body, -, -, -, herror⟩ := tokenize_across hw ha
      exact herror b e hb
  · intro text tokens gaps hgaps h lexemes hlexemes
    obtain ⟨hrereads, hwords, hdrop⟩ := (tokenize_eq_ok.mp h).rereads
    rw [hwords]
    simp only [List.mem_cons, List.not_mem_nil, or_false] at hlexemes
    rcases hlexemes with rfl | rfl
    · obtain ⟨body, place, hok, hbody⟩ := tokenize_joined hgaps hrereads
      exact ⟨_, hok, by rw [List.map_append, hbody]; rfl⟩
    · have hbefore : ∀ t ∈ tokens.dropLast, Rereads t := fun t ht =>
        hrereads t (List.mem_of_mem_dropLast ht)
      obtain ⟨body, place, hok, hbody⟩ := tokenize_joined hgaps hbefore
      exact ⟨_, hok, by rw [List.map_append, hbody, hdrop]; rfl⟩

/-- An exponent mark and a point that layout cuts off are read as at the end of a text. -/
theorem tokenize_across_gaps_cut :
    tokenize ("2e" ++ "\n" ++ "5") =
        .ok [⟨.number, "2", 0⟩, ⟨.name, "e", 1⟩, ⟨.number, "5", 3⟩, ⟨.finish, "", 4⟩] ∧
      tokenize ("2 ." ++ " " ++ "5") = .error (.unexpectedCharacter '.' 2) ∧
      tokenize ("x" ++ "\t " ++ "1 #") = .error (.unexpectedCharacter '#' 5) ∧
      ∃ again, tokenize (joined (fun _ => "\r") ["2", "e", "5"]) = .ok again ∧
        again.map Token.word = [(.number, "2"), (.name, "e"), (.number, "5"), (.finish, "")] := by
  have hline : IsGap "\n" := ⟨by decide, by simp⟩
  have hspace : IsGap " " := ⟨by decide, by simp⟩
  have htab : IsGap "\t " := ⟨by decide, by simp⟩
  have hreturn : IsGap "\r" := ⟨by decide, by simp⟩
  have hmark : tokenize "2e" = .ok [⟨.number, "2", 0⟩, ⟨.name, "e", 1⟩, ⟨.finish, "", 2⟩] := rfl
  have hfive : tokenize "5" = .ok [⟨.number, "5", 0⟩, ⟨.finish, "", 1⟩] := rfl
  have hpoint : tokenize "2 ." = .error (.unexpectedCharacter '.' 2) := rfl
  have hx : tokenize "x" = .ok [⟨.name, "x", 0⟩, ⟨.finish, "", 1⟩] := rfl
  have hhash : tokenize "1 #" = .error (.unexpectedCharacter '#' 2) := rfl
  have hwhole : tokenize "2e 5" =
    .ok [⟨.number, "2", 0⟩, ⟨.name, "e", 1⟩, ⟨.number, "5", 3⟩, ⟨.finish, "", 4⟩] := rfl
  refine ⟨?_, ?_, ?_, ?_⟩
  · exact ((tokenize_across_gaps.1 "2e" "\n" "5" hline).1 _ _ hmark hfive).2.2
  · exact (tokenize_across_gaps.1 "2 ." " " "5" hspace).2.1 _ hpoint
  · obtain ⟨c, p, heq, hfail⟩ := (tokenize_across_gaps.1 "x" "\t " "1 #" htab).2.2 _ _ hx hhash
    obtain ⟨rfl, rfl⟩ := ParseError.unexpectedCharacter.inj heq
    exact hfail
  · exact tokenize_across_gaps.2 "2e 5" _ (fun _ => "\r") (fun _ => hreturn) hwhole
      ["2", "e", "5"] (by simp)

end Lexer

end Reckoner
