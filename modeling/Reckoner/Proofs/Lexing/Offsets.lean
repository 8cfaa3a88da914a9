import Reckoner.Proofs.Grammar.Failures
import Reckoner.Proofs.Lexing.Partition

/-!
Where a text is refused. Every token of a text stands at its offset, with the end behind
the last character, and a parser that reads the end has read a whole expression or fails
there. So it never asks for a token beyond the end, whose place is before the beginning,
and what is shown for a text always has an offset in the text.
-/

namespace Reckoner

open Lexer

/-- The token stands at the offset, and only the end stands behind the text. -/
structure Token.StandsAt (t : Token) (text : String) (p : Nat) : Prop where
  position : t.position = p
  le_length : p ≤ text.length
  lexeme : t.lexeme.toList <+: text.toList.drop p
  eq_length_iff : p = text.length ↔ t.kind = .finish

/-- The failure is one at the offset: its token begins there and its line tells it. -/
structure Diagnostic.LocatedAt (d : Diagnostic) (text : String) (p : Nat) : Prop where
  position : d.position = p
  le_length : p ≤ text.length
  lexeme : d.token.lexeme.toList <+: text.toList.drop p
  line : d.line = "[" ++ d.kind.code ++ "] " ++ d.message ++ " (at offset " ++ toString p ++ ")"

theorem Diagnostic.line_of_position {d : Diagnostic} {p : Nat} (h : d.position = p) :
    d.line = "[" ++ d.kind.code ++ "] " ++ d.message ++ " (at offset " ++ toString p ++ ")" := by
  have hshown : ¬d.position < 0 := by omega
  rw [line, if_neg hshown, h]
  rfl

namespace Lexer

variable {text : String} {tokens : List Token} {t : Token}

namespace HasTokens

theorem exists_standsAt (h : HasTokens text tokens) (ht : t ∈ tokens) :
    ∃ p, t.StandsAt text p := by
  obtain ⟨body, hbody, rfl⟩ := h
  rcases List.mem_append.mp ht with ht | ht
  · obtain ⟨start, -, hstop, hmatched⟩ := hbody.matched t ht
    obtain ⟨terminal, hlongest, hkind⟩ := hmatched.longest
    have hpos := hmatched.length_pos
    refine ⟨start, hmatched.position, by omega, hlongest.begins, ?_⟩
    -- A match is not empty, so it begins before the end of the text.
    constructor
    · intro hend
      omega
    · intro hfinish
      have hnone := Terminal.ofKind?_of_kind hkind
      rw [hfinish] at hnone
      cases hnone
  · obtain rfl := List.mem_singleton.mp ht
    exact ⟨text.length, rfl, le_rfl, List.nil_prefix, by simp⟩

/-- The tokens stand in the order of their offsets, the end included. -/
theorem increasing (h : HasTokens text tokens) :
    tokens.Pairwise fun t u => t.position < u.position := by
  obtain ⟨body, hbody, rfl⟩ := h
  rw [List.pairwise_append]
  refine ⟨hbody.increasing, List.pairwise_singleton .., fun t ht u hu => ?_⟩
  obtain rfl := List.mem_singleton.mp hu
  obtain ⟨start, -, hstop, hmatched⟩ := hbody.matched t ht
  have hpos := hmatched.length_pos
  have hposition := hmatched.position
  dsimp only
  omega

/-- Only a bracket in the text becomes an opening bracket. -/
theorem exists_bracket (h : HasTokens text tokens) (ht : t ∈ tokens)
    (hkind : t.kind = .openBracket) :
    ∃ q : Nat, t.position = q ∧ text.toList[q]? = some '(' := by
  obtain ⟨body, hbody, rfl⟩ := h
  rcases List.mem_append.mp ht with ht | ht
  · obtain ⟨start, -, -, hmatched⟩ := hbody.matched t ht
    obtain ⟨terminal, hlongest, hterminal⟩ := hmatched.longest
    obtain rfl : .openBracket = terminal :=
      Option.some.inj (Terminal.ofKind?_of_kind (hkind.symm.trans hterminal))
    have hbegins := hlongest.begins
    rw [mem_single.mp hlongest.mem] at hbegins
    obtain ⟨rest, hrest⟩ := hbegins
    refine ⟨start, hmatched.position, ?_⟩
    rw [← List.head?_drop, ← hrest]
    rfl
  · obtain rfl := List.mem_singleton.mp ht
    cases hkind

end HasTokens

end Lexer

namespace Parser

variable {label : Label} {text : String} {tokens : List Token} {error : ParseError}

/-- Behind the end of the input nothing but a whole expression is left. -/
theorem State.finished_of_run_ended {before : List Token} {t : Token} {s : State}
    (ht : t.kind = .finish) (h : State.start.run label (before ++ [t]) = .ok s) :
    ∃ tree, s = .finished tree := by
  cases hrun : State.start.run label before with
  | error cause =>
    obtain ⟨first, u, after, next, rfl, hfirst, hstep⟩ := State.exists_step_of_run_error hrun
    have hfails := State.run_of_step_error hfirst hstep (after ++ [t])
    rw [← List.cons_append, ← List.append_assoc, h] at hfails
    cases hfails
  | ok next =>
    rw [State.run_append _ hrun] at h
    cases hfinish : next.finish t with
    | error cause => simp [State.run, State.step, ht, hfinish, Except.map] at h
    | ok tree =>
      refine ⟨tree, ?_⟩
      simpa [State.run, State.step, ht, hfinish, Except.map, eq_comm] using h

/-- A token list that ends with an end fails at one of its tokens or not at all. -/
theorem exists_step_of_ended {body : List Token} {last : Token} (hlast : last.kind = .finish)
    (h : parse label (body ++ [last]) = .error error) :
    ∃ before t after s, body ++ [last] = before ++ t :: after ∧
      State.start.run label before = .ok s ∧
        s.step (label + before.length) t = .error error := by
  refine (parse_error_cases h).resolve_right ?_
  rintro ⟨s, hrun, hfinish⟩
  obtain ⟨tree, rfl⟩ := State.finished_of_run_ended hlast hrun
  cases hfinish

end Parser

/-- The failure at an offset names an opening bracket, which stands in the text before it. -/
structure Diagnostic.OpensAt (d : Diagnostic) (text : String) (p q : Nat) : Prop where
  opening : ∃ t, d.opening = some t ∧ t.position = q
  recorded : d.json = .object [("code", .text d.kind.code), ("message", .text d.message),
    ("lexeme", .text d.token.lexeme), ("position", .integer p), ("opening_position", .integer q)]
  before : q < p
  bracket : text.toList[q]? = some '('

section Texts

open Reckoner.Parser

variable {label : Label} {text : String} {tokens : List Token} {error : ParseError}

theorem Lexer.FailsAt.locatedAt {position : Nat} {c : Char} (h : FailsAt text position c) :
    position < text.length ∧
      (ParseError.unexpectedCharacter c position).diagnostic.LocatedAt text position := by
  obtain ⟨hinside, -⟩ := List.getElem?_eq_some_iff.mp h.1.here
  rw [String.length_toList] at hinside
  exact ⟨hinside, rfl, Nat.le_of_lt hinside, List.nil_prefix, Diagnostic.line_of_position rfl⟩

/-- The token a parser blames in a text stands in the text, and so does the bracket. -/
theorem Lexer.HasTokens.locatedAt (h : HasTokens text tokens)
    (hparse : parse label tokens = .error error) :
    ∃ p, error.diagnostic.LocatedAt text p ∧
      (p = text.length ↔ error.diagnostic.token.kind = .finish) ∧
      (error.diagnostic.kind = .unbalancedBrackets → ∃ q, error.diagnostic.OpensAt text p q) := by
  have hbehind := h.increasing
  have hstands {t : Token} : t ∈ tokens → ∃ p, t.StandsAt text p := h.exists_standsAt
  have hbracket {t : Token} := h.exists_bracket (t := t)
  obtain ⟨body, -, rfl⟩ := h
  obtain ⟨before, t, after, s, heq, hbefore, hstep⟩ := exists_step_of_ended rfl hparse
  have htoken := State.token_of_step_error hstep
  have hposition := position_of_parse_error hparse
  rw [heq] at hbehind hstands hbracket
  obtain ⟨p, hp⟩ := hstands (t := t) (by simp)
  rw [htoken, hp.position] at hposition
  rw [← htoken] at hp
  refine ⟨p, ⟨hposition, hp.le_length, hp.lexeme, Diagnostic.line_of_position hposition⟩,
    hp.eq_length_iff, fun hkind => ?_⟩
  -- The bracket is one of the tokens before the one that is blamed.
  have hexplained := State.explained_step (State.follows_start hbefore) hstep
  obtain ⟨opening, hopening, first, inside, hfirst, hopens, -⟩ := hexplained.opening hkind
  have hmem : opening ∈ before := by
    have hmem : opening ∈ withoutEnds before := by simp [hfirst]
    exact List.mem_of_mem_filter hmem
  obtain ⟨q, hq, hchar⟩ := hbracket (t := opening) (by simp [hmem]) hopens
  have hlt := (List.pairwise_append.mp hbehind).2.2 opening hmem t List.mem_cons_self
  rw [htoken] at hp
  have hplace := hp.position
  refine ⟨q, ⟨opening, hopening, hq⟩, ?_, by omega, hchar⟩
  rw [Diagnostic.json, if_pos hkind, hopening, hposition, ← hq]
  rfl

/-- A text is refused at an offset in it. A character that nothing begins with is in the
text, a token that does not fit may also be the end, and an open bracket that is not closed
stands before. -/
theorem refused_locatedAt (text : String) :
    (∀ error, tokenize text = .error error →
      ∃ p, p < text.length ∧ error.diagnostic.LocatedAt text p) ∧
    ∀ label tokens error, tokenize text = .ok tokens → parse label tokens = .error error →
      ∃ p, error.diagnostic.LocatedAt text p ∧
        (p = text.length ↔ error.diagnostic.token.kind = .finish) ∧
        (error.diagnostic.kind = .unbalancedBrackets →
          ∃ q, error.diagnostic.OpensAt text p q) := by
  constructor
  · intro error h
    obtain ⟨position, c, hfails, rfl⟩ := tokenize_eq_error.mp h
    exact ⟨position, hfails.locatedAt⟩
  · intro label tokens error htokens hparse
    exact (tokenize_eq_ok.mp htokens).locatedAt hparse

/-- In `2*(x 3` the bracket should be closed before the second number, and in `x+(?` no
token begins with the question mark. -/
theorem refused_locatedAt_inside :
    (∃ tokens error, tokenize "2*(x 3" = .ok tokens ∧ parse 0 tokens = .error error ∧
      error.diagnostic.LocatedAt "2*(x 3" 5 ∧ ∃ q, error.diagnostic.OpensAt "2*(x 3" 5 q) ∧
    ∃ error, tokenize "x+(?" = .error error ∧ error.diagnostic.LocatedAt "x+(?" 3 := by
  constructor
  · have htokens : tokenize "2*(x 3" = .ok [⟨.number, "2", 0⟩, ⟨.star, "*", 1⟩,
        ⟨.openBracket, "(", 2⟩, ⟨.name, "x", 3⟩, ⟨.number, "3", 5⟩, ⟨.finish, "", 6⟩] := rfl
    have hparse : parse 0 [⟨.number, "2", 0⟩, ⟨.star, "*", 1⟩, ⟨.openBracket, "(", 2⟩,
        ⟨.name, "x", 3⟩, ⟨.number, "3", 5⟩, ⟨.finish, "", 6⟩] =
          .error (.unclosedBracket ⟨.openBracket, "(", 2⟩ ⟨.number, "3", 5⟩) := rfl
    obtain ⟨p, hlocated, -, hopens⟩ := (refused_locatedAt "2*(x 3").2 0 _ _ htokens hparse
    obtain rfl : 5 = p := Int.ofNat.inj hlocated.position
    exact ⟨_, _, htokens, hparse, hlocated, hopens rfl⟩
  · have hfails : tokenize "x+(?" = .error (.unexpectedCharacter '?' 3) := rfl
    obtain ⟨p, -, hlocated⟩ := (refused_locatedAt "x+(?").1 _ hfails
    obtain rfl : 3 = p := Int.ofNat.inj hlocated.position
    exact ⟨_, hfails, hlocated⟩

end Texts

end Reckoner
