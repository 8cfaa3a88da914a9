import Reckoner.Proofs.Grammar.Prefixes

/-!
Why a token list fails, told from the tokens before the one that is blamed. If these wait
for an operand, what comes is not one, or nothing comes. If they end with one, either a
bracket is open, and then the innermost open bracket should have been closed, or a whole
expression has been read and something follows it. Ends of input among the tokens do not
count. The parser's frames carry just the open brackets along, so its complaints agree.
-/

namespace Reckoner

def AwaitsOperand (tokens : List Token) : Prop :=
  tokens = [] ∨ ∃ t, tokens.getLast? = some t ∧
    t.kind ∈ [.plus, .minus, .star, .slash, .caret, .openBracket, .function]

def EndsOperand (tokens : List Token) : Prop :=
  ∃ t, tokens.getLast? = some t ∧ t.kind ∈ [.number, .name, .closeBracket]

def withoutEnds (tokens : List Token) : List Token := tokens.filter (·.kind ≠ .finish)

theorem AwaitsOperand.not_endsOperand {tokens : List Token} (h : AwaitsOperand tokens) :
    ¬EndsOperand tokens := by
  intro hends
  obtain ⟨t, hlast, hkind⟩ := hends
  rcases h with rfl | ⟨t', hlast', hkind'⟩
  · simp at hlast
  · obtain rfl : t = t' := Option.some.inj (hlast.symm.trans hlast')
    cases hk : t.kind <;> simp [hk] at hkind hkind'

/-- The failure at a token is the one the tokens before it call for. -/
structure ExplainedBy (before : List Token) (t : Token) (d : Diagnostic) : Prop where
  either : AwaitsOperand before ∨ EndsOperand before
  awaiting : AwaitsOperand before →
    d.kind = if t.kind = .finish then .unexpectedEnd else .unexpectedToken
  bracketed : EndsOperand before → (∃ opening, Innermost before opening) →
    d.kind = .unbalancedBrackets
  complete : EndsOperand before → (¬∃ opening, Innermost before opening) →
    d.kind = .trailingInput
  opening : d.kind = .unbalancedBrackets →
    ∃ opening, d.opening = some opening ∧ Innermost before opening

namespace ExplainedBy

variable {before others : List Token} {t opening : Token} {d : Diagnostic}

theorem of_awaiting (h : AwaitsOperand before)
    (hkind : d.kind = if t.kind = .finish then .unexpectedEnd else .unexpectedToken) :
    ExplainedBy before t d where
  either := .inl h
  awaiting _ := hkind
  bracketed hends := absurd hends h.not_endsOperand
  complete hends := absurd hends h.not_endsOperand
  opening hunbalanced := by
    rw [hkind] at hunbalanced
    split at hunbalanced <;> cases hunbalanced

theorem of_bracketed (h : EndsOperand before) (hopen : unclosed before = opening :: others)
    (hkind : d.kind = .unbalancedBrackets) (hopening : d.opening = some opening) :
    ExplainedBy before t d := by
  have hinnermost : Innermost before opening := innermost_iff.mpr (by rw [hopen, List.head?_cons])
  exact ⟨.inr h, fun hawaits => absurd h hawaits.not_endsOperand, fun _ _ => hkind,
    fun _ hnone => absurd ⟨opening, hinnermost⟩ hnone, fun _ => ⟨opening, hopening, hinnermost⟩⟩

theorem of_complete (h : EndsOperand before) (hopen : unclosed before = [])
    (hkind : d.kind = .trailingInput) : ExplainedBy before t d := by
  have hnone : ¬∃ opening, Innermost before opening := by
    intro hsome
    obtain ⟨opening, hinnermost⟩ := hsome
    simp [innermost_iff, hopen] at hinnermost
  exact ⟨.inr h, fun hawaits => absurd h hawaits.not_endsOperand,
    fun _ hsome => absurd hsome hnone, fun _ _ => hkind, fun hunbalanced => by
      rw [hkind] at hunbalanced
      cases hunbalanced⟩

end ExplainedBy

theorem withoutEnds_snoc_finish {t : Token} (h : t.kind = .finish) (tokens : List Token) :
    withoutEnds (tokens ++ [t]) = withoutEnds tokens := by
  simp [withoutEnds, h]

theorem withoutEnds_snoc {t : Token} (h : t.kind ≠ .finish) (tokens : List Token) :
    withoutEnds (tokens ++ [t]) = withoutEnds tokens ++ [t] := by
  simp [withoutEnds, h]

theorem AwaitsOperand.snoc {t : Token}
    (h : t.kind ∈ [.plus, .minus, .star, .slash, .caret, .openBracket, .function])
    (tokens : List Token) : AwaitsOperand (tokens ++ [t]) :=
  .inr ⟨t, List.getLast?_concat, h⟩

theorem EndsOperand.snoc {t : Token} (h : t.kind ∈ [.number, .name, .closeBracket])
    (tokens : List Token) : EndsOperand (tokens ++ [t]) :=
  ⟨t, List.getLast?_concat, h⟩

namespace Parser

namespace State

variable {label : Label} {t : Token} {s s' : State} {frames : List Frame} {e : Expr}
  {tokens : List Token} {error : ParseError}

/-- What a state says about the tokens read, ends of input left out. -/
def Follows (tokens : List Token) : State → Prop
  | awaiting frames => AwaitsOperand tokens ∧ brackets frames = unclosed tokens
  | holding frames _ => EndsOperand tokens ∧ brackets frames = unclosed tokens
  | finished _ => EndsOperand tokens ∧ unclosed tokens = []

/-- An operator asks for an operand and has nothing to do with brackets. -/
theorem follows_operator {family : Family} {sign : Sign}
    (ht : t.symbol? = some (.operator family sign)) (hopen : brackets frames = unclosed tokens) :
    (awaiting frames).Follows (tokens ++ [t]) := by
  have hkind := (Token.kind_of_symbol? ht).1
  refine ⟨.snoc ?_ tokens, ?_⟩
  · cases family <;> cases sign <;> simp [hkind, Symbol.kind]
  · cases family <;> cases sign <;> simp [unclosed_snoc, pairOff, hkind, Symbol.kind, hopen]

theorem follows_await (hopen : brackets frames = unclosed tokens)
    (hstep : await label t frames = .ok s) : s.Follows (tokens ++ [t]) := by
  rcases await_cases hstep with ⟨v, ht, rfl⟩ | ⟨n, ht, rfl⟩ | ⟨function, ht, rfl⟩ | ⟨ht, rfl⟩ |
    ⟨sign, level, ht, -, rfl⟩
  · have hkind : t.kind = .number := (Token.kind_of_symbol? ht).1
    exact ⟨.snoc (by simp [hkind]) tokens, by simp [unclosed_snoc, pairOff, hkind, hopen]⟩
  · have hkind : t.kind = .name := (Token.kind_of_symbol? ht).1
    exact ⟨.snoc (by simp [hkind]) tokens, by simp [unclosed_snoc, pairOff, hkind, hopen]⟩
  · have hkind : t.kind = .function := (Token.kind_of_symbol? ht).1
    exact ⟨.snoc (by simp [hkind]) tokens,
      by simp [unclosed_snoc, pairOff, hkind, hopen, brackets]⟩
  · have hkind : t.kind = .openBracket := (Token.kind_of_symbol? ht).1
    exact ⟨.snoc (by simp [hkind]) tokens,
      by simp [unclosed_snoc, pairOff, hkind, hopen, brackets]⟩
  · exact follows_operator ht hopen

theorem follows_proceed (hopen : brackets frames = unclosed tokens)
    (hstep : proceed label t frames e = .ok s) : s.Follows (tokens ++ [t]) := by
  rcases proceed_cases hstep with ⟨ht, rfl⟩ | ⟨ht, outer, value, hclose, rfl⟩ |
    ⟨family, sign, ht, rfl⟩
  · have hkind : t.kind = .caret := (Token.kind_of_symbol? ht).1
    exact ⟨.snoc (by simp [hkind]) tokens,
      by simp [unclosed_snoc, pairOff, hkind, hopen, brackets, brackets_settle]⟩
  · have hkind : t.kind = .closeBracket := (Token.kind_of_symbol? ht).1
    refine ⟨.snoc (by simp [hkind]) tokens, ?_⟩
    rw [unclosed_snoc, pairOff_closing hkind, ← hopen]
    cases hbrackets : brackets frames with
    | nil => simp [close?_of_nil hbrackets] at hclose
    | cons opening others =>
      obtain ⟨outer', value', hclose', houter⟩ := close?_of_cons hbrackets e
      obtain ⟨rfl, -⟩ := Prod.mk.inj (Option.some.inj (hclose.symm.trans hclose'))
      exact houter
  · exact follows_operator ht ((brackets_settle family.level frames e).trans hopen)

/-- Where the input may end no bracket is open. -/
theorem follows_finish {tree : Expr} (h : s.Follows tokens) (hfinish : s.finish t = .ok tree) :
    (finished tree).Follows tokens := by
  cases s with
  | awaiting frames => simp [finish] at hfinish
  | holding frames e =>
    obtain ⟨hends, hopen⟩ := h
    cases hbrackets : brackets frames with
    | nil => exact ⟨hends, hopen.symm.trans hbrackets⟩
    | cons opening others => simp [finish, complete_of_cons hbrackets] at hfinish
  | finished tree' => exact h

theorem follows_step (h : s.Follows (withoutEnds tokens)) (hstep : s.step label t = .ok s') :
    s'.Follows (withoutEnds (tokens ++ [t])) := by
  by_cases ht : t.kind = .finish
  · rw [withoutEnds_snoc_finish ht]
    cases hfinish : s.finish t with
    | error error => simp [step, ht, hfinish, Except.map] at hstep
    | ok tree =>
      obtain rfl : finished tree = s' := by
        simpa [step, ht, hfinish, Except.map] using hstep
      exact follows_finish h hfinish
  · rw [withoutEnds_snoc ht]
    simp only [step, ht, if_false] at hstep
    cases s with
    | awaiting frames => exact follows_await h.2 hstep
    | holding frames e => exact follows_proceed h.2 hstep
    | finished tree => simp at hstep

theorem follows_run {rest : List Token} (h : s.Follows (withoutEnds tokens))
    (hrun : s.run label rest = .ok s') : s'.Follows (withoutEnds (tokens ++ rest)) := by
  induction rest generalizing label s tokens with
  | nil =>
    obtain rfl : s = s' := by simpa [run] using hrun
    simpa using h
  | cons t rest ih =>
    cases hstep : s.step label t with
    | error error => simp [run, hstep] at hrun
    | ok next =>
      simp only [run, hstep] at hrun
      simpa using ih (follows_step h hstep) hrun

theorem follows_start (hrun : start.run label tokens = .ok s) : s.Follows (withoutEnds tokens) := by
  have hnone : start.Follows (withoutEnds []) := ⟨.inl rfl, rfl⟩
  simpa using follows_run hnone hrun

/-- After a value a token is refused for the innermost open bracket, or as trailing if none
is open. -/
theorem proceed_error_cases (h : proceed label t frames e = .error error) :
    (brackets frames = [] ∧ error = .trailingToken t) ∨
    ∃ opening others, brackets frames = opening :: others ∧ error = .unclosedBracket opening t := by
  cases hkind : t.kind with
  | caret | plus | minus | star | slash => simp [proceed, hkind, TokenKind.operator?] at h
  | closeBracket =>
    cases hbrackets : brackets frames with
    | nil => exact .inl ⟨rfl, by simpa [proceed, hkind, close?_of_nil hbrackets, eq_comm] using h⟩
    | cons opening others =>
      obtain ⟨outer, value, hclose, -⟩ := close?_of_cons hbrackets e
      simp [proceed, hkind, hclose] at h
  | finish | function | openBracket | number | name =>
    cases hbrackets : brackets frames with
    | nil =>
      refine .inl ⟨rfl, ?_⟩
      simpa [proceed, hkind, TokenKind.operator?, enclosing?_eq, hbrackets, eq_comm] using h
    | cons opening others =>
      refine .inr ⟨opening, others, rfl, ?_⟩
      simpa [proceed, hkind, TokenKind.operator?, enclosing?_eq, hbrackets, eq_comm] using h

theorem explained_finish (h : s.Follows tokens) (ht : t.kind = .finish)
    (hfinish : s.finish t = .error error) : ExplainedBy tokens t error.diagnostic := by
  cases s with
  | awaiting frames =>
    obtain rfl : ParseError.missingValue t = error := by simpa [finish] using hfinish
    exact .of_awaiting h.1 (by simp [ht]; rfl)
  | holding frames e =>
    obtain ⟨hends, hopen⟩ := h
    cases hbrackets : brackets frames with
    | nil =>
      obtain ⟨tree, htree⟩ := complete_of_nil hbrackets e
      simp [finish, htree] at hfinish
    | cons opening others =>
      obtain rfl : ParseError.unclosedBracket opening t = error := by
        simpa [finish, complete_of_cons hbrackets] using hfinish
      exact .of_bracketed hends (hopen.symm.trans hbrackets) rfl rfl
  | finished tree => simp [finish] at hfinish

theorem explained_step (h : s.Follows tokens) (hstep : s.step label t = .error error) :
    ExplainedBy tokens t error.diagnostic := by
  by_cases ht : t.kind = .finish
  · cases hfinish : s.finish t with
    | ok tree => simp [step, ht, hfinish, Except.map] at hstep
    | error cause =>
      obtain rfl : cause = error := by simpa [step, ht, hfinish, Except.map] using hstep
      exact explained_finish h ht hfinish
  · simp only [step, ht, if_false] at hstep
    cases s with
    | awaiting frames =>
      have hkind : error.diagnostic.kind = .unexpectedToken := by
        rcases await_error hstep with ⟨-, rfl | rfl⟩ | rfl <;> rfl
      exact .of_awaiting h.1 (by simp [ht, hkind])
    | holding frames e =>
      obtain ⟨hends, hopen⟩ := h
      rcases proceed_error_cases hstep with ⟨hnone, rfl⟩ | ⟨opening, others, hbrackets, rfl⟩
      · exact .of_complete hends (hopen.symm.trans hnone) rfl
      · exact .of_bracketed hends (hopen.symm.trans hbrackets) rfl rfl
    | finished tree =>
      obtain rfl := Except.error.inj hstep
      exact .of_complete h.1 h.2 rfl

end State

variable {label : Label} {tokens : List Token} {error : ParseError}

/-- The class of a failure, and the bracket it names, are told by the tokens before the one
that is blamed: those before the first hopeless place, or all of them if there is none. -/
theorem parse_error_explained (h : parse label tokens = .error error) :
    (∀ i t, IsLeast (hopeless label tokens) i → tokens[i]? = some t →
      ExplainedBy (withoutEnds (tokens.take i)) t error.diagnostic) ∧
    (hopeless label tokens = ∅ →
      ExplainedBy (withoutEnds tokens) Token.absent error.diagnostic) := by
  constructor
  · intro i t hi ht
    obtain ⟨t', s, ht', hbefore, hstep⟩ := exists_step_of_isLeast h hi
    obtain rfl : t = t' := Option.some.inj (ht.symm.trans ht')
    exact State.explained_step (State.follows_start hbefore) hstep
  · intro hempty
    obtain ⟨s, hrun, hfinish⟩ := exists_finish_of_empty h hempty
    exact State.explained_finish (State.follows_start hrun) rfl hfinish

/-- In `-((x)*sin(y z` the bracket after the function should have been closed, not the first,
and `x^-` only lacks an operand. -/
theorem parse_error_explained_inner_bracket :
    (∃ error, parse 0 [⟨.minus, "-", 0⟩, ⟨.openBracket, "(", 1⟩, ⟨.openBracket, "(", 2⟩,
          ⟨.name, "x", 3⟩, ⟨.closeBracket, ")", 4⟩, ⟨.star, "*", 5⟩, ⟨.function, "sin", 6⟩,
          ⟨.openBracket, "(", 9⟩, ⟨.name, "y", 10⟩, ⟨.name, "z", 12⟩] = .error error ∧
        error.diagnostic.kind = .unbalancedBrackets ∧
        error.diagnostic.opening = some ⟨.openBracket, "(", 9⟩) ∧
    ∃ error, parse 0 [⟨.name, "x", 0⟩, ⟨.caret, "^", 1⟩, ⟨.minus, "-", 2⟩] = .error error ∧
      error.diagnostic.kind = .unexpectedEnd := by
  constructor
  · let before : List Token := [⟨.minus, "-", 0⟩, ⟨.openBracket, "(", 1⟩,
      ⟨.openBracket, "(", 2⟩, ⟨.name, "x", 3⟩, ⟨.closeBracket, ")", 4⟩, ⟨.star, "*", 5⟩,
      ⟨.function, "sin", 6⟩, ⟨.openBracket, "(", 9⟩, ⟨.name, "y", 10⟩]
    have hparse : parse 0 (before ++ [⟨.name, "z", 12⟩]) = .error _ := rfl
    have hleast : IsLeast (hopeless 0 (before ++ [⟨.name, "z", 12⟩])) 9 :=
      isLeast_hopeless rfl rfl
    have hexplained : ExplainedBy before ⟨.name, "z", 12⟩ _ :=
      (parse_error_explained hparse).1 9 _ hleast rfl
    have hends : EndsOperand before := ⟨⟨.name, "y", 10⟩, rfl, by decide⟩
    have hinnermost : Innermost before ⟨.openBracket, "(", 9⟩ := innermost_iff.mpr rfl
    have hkind := hexplained.bracketed hends ⟨_, hinnermost⟩
    obtain ⟨opening, hopening, hopen⟩ := hexplained.opening hkind
    have hsame : some opening = some ⟨.openBracket, "(", 9⟩ :=
      (innermost_iff.mp hopen).symm.trans (innermost_iff.mp hinnermost)
    exact ⟨_, hparse, hkind, hopening.trans hsame⟩
  · let before : List Token := [⟨.name, "x", 0⟩, ⟨.caret, "^", 1⟩, ⟨.minus, "-", 2⟩]
    have hparse : parse 0 before = .error _ := rfl
    have hviable : Viable 0 before := viable_iff.mpr ⟨_, rfl⟩
    have hexplained : ExplainedBy before Token.absent _ :=
      (parse_error_explained hparse).2 hviable.hopeless_eq_empty
    have hawaits : AwaitsOperand before := .inr ⟨⟨.minus, "-", 2⟩, rfl, by decide⟩
    exact ⟨_, hparse, hexplained.awaiting hawaits⟩

end Parser

end Reckoner
