import Mathlib.Order.Bounds.Basic
import Reckoner.Proofs.Grammar.Brackets
import Reckoner.Proofs.Grammar.Productions

/-!
Where a token list goes wrong. Whatever the parser has read without complaint can be
completed: with a name where a value has to come, then with a closing bracket for every
open one. So the parser goes on exactly as long as some list with a tree begins with the
tokens read, and it blames the first token with which none does. If there is no such token
the list is only too short, and the token that stands for missing input is blamed.
-/

namespace Reckoner.Parser

def Viable (label : Label) (tokens : List Token) : Prop :=
  ∃ rest tree, parse label (tokens ++ rest) = .ok tree

/-- The places up to and with which no list with a tree begins. -/
def hopeless (label : Label) (tokens : List Token) : Set Nat :=
  {i | i < tokens.length ∧ ¬Viable label (tokens.take (i + 1))}

namespace State

variable {label : Label} {t : Token} {s : State} {tokens : List Token} {error : ParseError}

theorem exists_completion_holding (frames : List Frame) (e : Expr) (label : Label) :
    ∃ rest next tree, (holding frames e).run label rest = .ok next ∧
      next.finish Token.absent = .ok tree := by
  generalize hopen : brackets frames = openings
  induction openings generalizing frames e label with
  | nil =>
    obtain ⟨tree, htree⟩ := complete_of_nil hopen e
    exact ⟨[], holding frames e, tree, rfl, by simp only [finish, htree]⟩
  | cons opening others ih =>
    obtain ⟨outer, value, hclose, houter⟩ := close?_of_cons hopen e
    obtain ⟨rest, next, tree, hrun, hfinish⟩ := ih outer value (label + 1) houter
    have hstep : (holding frames e).step label ⟨.closeBracket, ")", 0⟩ =
        .ok (holding outer value) := by
      simp [step, proceed, hclose]
    exact ⟨_, next, tree, (run_cons hstep).trans hrun, hfinish⟩

/-- From every state some tokens lead to a tree. -/
theorem exists_completion (s : State) (label : Label) :
    ∃ rest next tree, s.run label rest = .ok next ∧ next.finish Token.absent = .ok tree := by
  cases s with
  | awaiting frames =>
    obtain ⟨rest, next, tree, hrun, hfinish⟩ :=
      exists_completion_holding frames (.var label "x") (label + 1)
    have hstep : (awaiting frames).step label ⟨.name, "x", 0⟩ =
        .ok (holding frames (.var label "x")) := rfl
    exact ⟨_, next, tree, (run_cons hstep).trans hrun, hfinish⟩
  | holding frames e => exact exists_completion_holding frames e label
  | finished tree => exact ⟨[], finished tree, tree, rfl, rfl⟩

/-- What comes after the failing token makes no difference. -/
theorem run_of_step_error {before : List Token} {next : State}
    (hbefore : s.run label before = .ok next)
    (hstep : next.step (label + before.length) t = .error error) (after : List Token) :
    s.run label (before ++ t :: after) = .error error := by
  rw [run_append _ hbefore]
  simp only [run, hstep]

/-- The failing token is the one blamed. -/
theorem token_of_step_error (h : s.step label t = .error error) :
    error.diagnostic.token = t := by
  rcases step_error h with ⟨-, rfl | rfl⟩ | rfl | rfl | rfl | rfl | ⟨opening, rfl⟩ <;> rfl

theorem token_of_finish_error (h : s.finish t = .error error) : error.diagnostic.token = t := by
  rcases finish_error h with rfl | ⟨opening, rfl⟩ <;> rfl

end State

variable {label : Label} {tokens : List Token} {error : ParseError}

/-- The tokens can be completed exactly if the parser reads them without complaint. -/
theorem viable_iff : Viable label tokens ↔ ∃ s, State.start.run label tokens = .ok s := by
  constructor
  · intro h
    obtain ⟨rest, tree, hparse⟩ := h
    cases hrun : State.start.run label tokens with
    | ok s => exact ⟨s, rfl⟩
    | error error =>
      obtain ⟨before, t, after, next, rfl, hbefore, hstep⟩ := State.exists_step_of_run_error hrun
      have hfails := State.run_of_step_error hbefore hstep (after ++ rest)
      simp [parse, hfails] at hparse
  · intro h
    obtain ⟨s, hrun⟩ := h
    obtain ⟨rest, next, tree, hrest, hfinish⟩ := s.exists_completion (label + tokens.length)
    refine ⟨rest, tree, ?_⟩
    rw [parse, State.run_append _ hrun, hrest]
    exact hfinish

theorem Viable.of_append {first last : List Token} (h : Viable label (first ++ last)) :
    Viable label first := by
  obtain ⟨rest, tree, hparse⟩ := h
  exact ⟨last ++ rest, tree, by rwa [← List.append_assoc]⟩

theorem Viable.take (h : Viable label tokens) (n : Nat) : Viable label (tokens.take n) := by
  rw [← List.take_append_drop n tokens] at h
  exact h.of_append

theorem Viable.hopeless_eq_empty (h : Viable label tokens) : hopeless label tokens = ∅ :=
  Set.eq_empty_of_forall_notMem fun i hi => hi.2 (h.take (i + 1))

/-- The place of a token that fails after others that do not. -/
theorem isLeast_hopeless {before after : List Token} {t : Token} {s : State}
    (hbefore : State.start.run label before = .ok s)
    (hstep : s.step (label + before.length) t = .error error) :
    IsLeast (hopeless label (before ++ t :: after)) before.length := by
  constructor
  · refine ⟨by simp, ?_⟩
    have htake : (before ++ t :: after).take (before.length + 1) = before ++ [t] := by
      simp [List.take_length_add_append]
    rw [htake, viable_iff, State.run_of_step_error hbefore hstep []]
    simp
  · intro i hi
    by_contra hlt
    have hviable := (viable_iff.mpr ⟨s, hbefore⟩).take (i + 1)
    have htake : (before ++ t :: after).take (i + 1) = before.take (i + 1) :=
      List.take_append_of_le_length (by omega)
    exact hi.2 (htake ▸ hviable)

/-- A list without a tree fails at its first hopeless place. -/
theorem exists_step_of_isLeast (h : parse label tokens = .error error) {i : Nat}
    (hi : IsLeast (hopeless label tokens) i) :
    ∃ t s, tokens[i]? = some t ∧ State.start.run label (tokens.take i) = .ok s ∧
      s.step (label + (tokens.take i).length) t = .error error := by
  rcases parse_error_cases h with ⟨before, t, after, s, rfl, hbefore, hstep⟩ | ⟨s, hrun, -⟩
  · obtain rfl := hi.unique (isLeast_hopeless hbefore hstep)
    rw [List.take_left]
    exact ⟨t, s, by simp, hbefore, hstep⟩
  · exact absurd (viable_iff.mpr ⟨s, hrun⟩) fun hviable => hi.1.2 (hviable.take (i + 1))

/-- Without a hopeless place it is read to the end, and the end comes too early. -/
theorem exists_finish_of_empty (h : parse label tokens = .error error)
    (hempty : hopeless label tokens = ∅) :
    ∃ s, State.start.run label tokens = .ok s ∧ s.finish Token.absent = .error error := by
  refine (parse_error_cases h).resolve_left ?_
  rintro ⟨before, t, after, s, rfl, hbefore, hstep⟩
  have hleast : IsLeast (hopeless label (before ++ t :: after)) before.length :=
    isLeast_hopeless hbefore hstep
  rw [hempty] at hleast
  exact absurd hleast.1 (Set.notMem_empty _)

theorem position_of_parse_error (h : parse label tokens = .error error) :
    error.diagnostic.position = error.diagnostic.token.position := by
  have hkind := parse_error_kind h
  cases error with
  | unexpectedCharacter c position =>
    simp [ParseError.diagnostic, Diagnostic.of, listFailures] at hkind
  | unknownFunction | malformedNumber | missingValue | notAValue | unclosedBracket
    | trailingToken | tokenAfterEnd => rfl

/-- The token blamed is the first that no list with a tree can have at its place, and the
failure depends on nothing after it. Without such a token the list can be completed, and
the token that stands for missing input is blamed. -/
theorem parse_error_token (h : parse label tokens = .error error) :
    (∀ i, IsLeast (hopeless label tokens) i →
      tokens[i]? = some error.diagnostic.token ∧ Viable label (tokens.take i) ∧
        ∀ after, parse label (tokens.take (i + 1) ++ after) = .error error) ∧
    (hopeless label tokens = ∅ →
      Viable label tokens ∧ error.diagnostic.token = Token.absent) ∧
    error.diagnostic.position = error.diagnostic.token.position := by
  refine ⟨?_, ?_, position_of_parse_error h⟩
  · intro i hi
    obtain ⟨t, s, ht, hbefore, hstep⟩ := exists_step_of_isLeast h hi
    refine ⟨by rw [State.token_of_step_error hstep, ht], viable_iff.mpr ⟨s, hbefore⟩, ?_⟩
    intro after
    have htake : tokens.take (i + 1) ++ after = tokens.take i ++ t :: after := by
      simp [List.take_add_one, ht]
    rw [htake, parse, State.run_of_step_error hbefore hstep]
  · intro hempty
    obtain ⟨s, hrun, hfinish⟩ := exists_finish_of_empty h hempty
    exact ⟨viable_iff.mpr ⟨s, hrun⟩, State.token_of_finish_error hfinish⟩

/-- In `sin(x^(y z` the second name in the inner bracket is blamed whatever follows it, and
`sin(x^(y` only lacks its end. -/
theorem parse_error_token_in_brackets :
    (∃ error, parse 0 [⟨.function, "sin", 0⟩, ⟨.openBracket, "(", 3⟩, ⟨.name, "x", 4⟩,
          ⟨.caret, "^", 5⟩, ⟨.openBracket, "(", 6⟩, ⟨.name, "y", 7⟩, ⟨.name, "z", 9⟩] =
        .error error ∧ error.diagnostic.token = ⟨.name, "z", 9⟩ ∧
      ∀ after, parse 0 (⟨.function, "sin", 0⟩ :: ⟨.openBracket, "(", 3⟩ :: ⟨.name, "x", 4⟩ ::
          ⟨.caret, "^", 5⟩ :: ⟨.openBracket, "(", 6⟩ :: ⟨.name, "y", 7⟩ :: ⟨.name, "z", 9⟩ ::
            after) = .error error) ∧
    ∃ error, parse 0 [⟨.function, "sin", 0⟩, ⟨.openBracket, "(", 3⟩, ⟨.name, "x", 4⟩,
        ⟨.caret, "^", 5⟩, ⟨.openBracket, "(", 6⟩, ⟨.name, "y", 7⟩] = .error error ∧
      error.diagnostic.token = Token.absent ∧ error.diagnostic.position = -1 := by
  let opened : List Token := [⟨.function, "sin", 0⟩, ⟨.openBracket, "(", 3⟩, ⟨.name, "x", 4⟩,
    ⟨.caret, "^", 5⟩, ⟨.openBracket, "(", 6⟩, ⟨.name, "y", 7⟩]
  constructor
  · have hparse : parse 0 (opened ++ [⟨.name, "z", 9⟩]) = .error _ := rfl
    have hleast : IsLeast (hopeless 0 (opened ++ [⟨.name, "z", 9⟩])) 6 :=
      isLeast_hopeless rfl rfl
    obtain ⟨htoken, -, hafter⟩ := (parse_error_token hparse).1 6 hleast
    exact ⟨_, hparse, (Option.some.inj htoken).symm, hafter⟩
  · have hparse : parse 0 opened = .error _ := rfl
    have hviable : Viable 0 opened := viable_iff.mpr ⟨_, rfl⟩
    obtain ⟨-, hshort, hposition⟩ := parse_error_token hparse
    have htoken := (hshort hviable.hopeless_eq_empty).2
    exact ⟨_, hparse, htoken, by rw [hposition, htoken]; rfl⟩

end Reckoner.Parser
