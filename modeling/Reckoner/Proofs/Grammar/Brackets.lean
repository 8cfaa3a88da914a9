import Mathlib.Data.List.Induction
import Reckoner.Parser

/-!
Brackets in token lists and among the parser's frames. Going through a list and taking an
opening bracket off for every closing one leaves the opening brackets without a partner;
behind the innermost of these everything is balanced. Of the frames only the brackets
count: finishing other constructs leaves them, and a closing bracket takes off one.
-/

namespace Reckoner

inductive Balanced : List Token → Prop
  | nil : Balanced []
  | other {t rest} (hopening : t.kind ≠ .openBracket) (hclosing : t.kind ≠ .closeBracket)
      (hrest : Balanced rest) : Balanced (t :: rest)
  | pair {opening closing inside rest} (hopening : opening.kind = .openBracket)
      (hinside : Balanced inside) (hclosing : closing.kind = .closeBracket)
      (hrest : Balanced rest) : Balanced (opening :: (inside ++ closing :: rest))

theorem Balanced.append {first last : List Token} (hfirst : Balanced first)
    (hlast : Balanced last) : Balanced (first ++ last) := by
  induction hfirst with
  | nil => exact hlast
  | other hopening hclosing hrest ih => exact .other hopening hclosing ih
  | pair hopening hinside hclosing hrest ihinside ihrest =>
    simpa using Balanced.pair hopening hinside hclosing ihrest

/-- The last opening bracket without a partner: all that follows it is balanced. -/
def Innermost (tokens : List Token) (opening : Token) : Prop :=
  ∃ before inside, tokens = before ++ opening :: inside ∧ opening.kind = .openBracket ∧
    Balanced inside

def pairOff (unclosed : List Token) (t : Token) : List Token :=
  match t.kind with
  | .openBracket => t :: unclosed
  | .closeBracket => unclosed.tail
  | _ => unclosed

def unclosed (tokens : List Token) : List Token := tokens.foldl pairOff []

theorem unclosed_snoc (tokens : List Token) (t : Token) :
    unclosed (tokens ++ [t]) = pairOff (unclosed tokens) t := by
  simp [unclosed]

theorem pairOff_opening {t : Token} (h : t.kind = .openBracket) (unclosed : List Token) :
    pairOff unclosed t = t :: unclosed := by
  simp [pairOff, h]

theorem pairOff_closing {t : Token} (h : t.kind = .closeBracket) (unclosed : List Token) :
    pairOff unclosed t = unclosed.tail := by
  simp [pairOff, h]

theorem pairOff_other {t : Token} (hopening : t.kind ≠ .openBracket)
    (hclosing : t.kind ≠ .closeBracket) (unclosed : List Token) :
    pairOff unclosed t = unclosed := by
  cases hkind : t.kind <;> simp_all [pairOff]

theorem Balanced.foldl_pairOff {tokens : List Token} (h : Balanced tokens)
    (unclosed : List Token) : tokens.foldl pairOff unclosed = unclosed := by
  induction h generalizing unclosed with
  | nil => rfl
  | other hopening hclosing hrest ih =>
    rw [List.foldl_cons, pairOff_other hopening hclosing, ih]
  | pair hopening hinside hclosing hrest ihinside ihrest =>
    rw [List.foldl_cons, pairOff_opening hopening, List.foldl_append, ihinside, List.foldl_cons,
      pairOff_closing hclosing, List.tail_cons, ihrest]

/-- Balanced tokens that go on behind balanced tokens do not begin with a closing bracket. -/
theorem Balanced.not_append_closing {tokens rest : List Token} {closing : Token}
    (h : Balanced tokens) (hclosing : closing.kind = .closeBracket) :
    ¬Balanced (tokens ++ closing :: rest) := by
  intro hlonger
  -- With one bracket open or with none, after the closing bracket none is left.
  have hfold : ∀ unclosed : List Token,
      rest.foldl pairOff unclosed.tail = unclosed := fun unclosed => by
    have hall := hlonger.foldl_pairOff unclosed
    rwa [List.foldl_append, h.foldl_pairOff, List.foldl_cons, pairOff_closing hclosing] at hall
  have hnone : rest.foldl pairOff [] = [] := hfold []
  have hone : rest.foldl pairOff [] = [closing] := hfold [closing]
  exact absurd (hnone.symm.trans hone) (by simp)

/-- A bracket has only one partner. -/
theorem Balanced.append_inj {first second rest rest' : List Token} {closing closing' : Token}
    (hfirst : Balanced first) (hsecond : Balanced second) (hclosing : closing.kind = .closeBracket)
    (hclosing' : closing'.kind = .closeBracket)
    (h : first ++ closing :: rest = second ++ closing' :: rest') :
    first = second ∧ closing = closing' ∧ rest = rest' := by
  rcases List.append_eq_append_iff.mp h with ⟨more, rfl, hrest⟩ | ⟨more, rfl, hrest⟩
  · cases more with
    | nil =>
      obtain ⟨rfl, rfl⟩ := List.cons.inj hrest
      simp
    | cons t more =>
      obtain ⟨rfl, -⟩ := List.cons.inj hrest
      exact absurd hsecond (hfirst.not_append_closing hclosing)
  · cases more with
    | nil =>
      obtain ⟨rfl, rfl⟩ := List.cons.inj hrest
      simp
    | cons t more =>
      obtain ⟨rfl, -⟩ := List.cons.inj hrest
      exact absurd hfirst (hsecond.not_append_closing hclosing')

/-- The brackets stand in the list, the first of them last, and what follows each of them
up to the one before it is balanced. -/
def StandIn : List Token → List Token → Prop
  | [], _ => True
  | opening :: outer, tokens => ∃ before inside, tokens = before ++ opening :: inside ∧
      opening.kind = .openBracket ∧ Balanced inside ∧ StandIn outer before

theorem StandIn.append {unclosed tokens more : List Token} (h : StandIn unclosed tokens)
    (hmore : Balanced more) : StandIn unclosed (tokens ++ more) := by
  cases unclosed with
  | nil => trivial
  | cons opening outer =>
    obtain ⟨before, inside, rfl, hopening, hinside, houter⟩ := h
    exact ⟨before, inside ++ more, by simp, hopening, hinside.append hmore, houter⟩

theorem standIn_unclosed (tokens : List Token) : StandIn (unclosed tokens) tokens := by
  induction tokens using List.reverseRecOn with
  | nil => trivial
  | append_singleton tokens t ih =>
    rw [unclosed_snoc]
    by_cases hopening : t.kind = .openBracket
    · rw [pairOff_opening hopening]
      exact ⟨tokens, [], rfl, hopening, .nil, ih⟩
    by_cases hclosing : t.kind = .closeBracket
    · rw [pairOff_closing hclosing]
      cases hunclosed : unclosed tokens with
      | nil => trivial
      | cons opening outer =>
        rw [hunclosed] at ih
        -- The token is the partner of the innermost bracket, and with it this is balanced.
        obtain ⟨before, inside, rfl, hkind, hinside, houter⟩ := ih
        have hpair : Balanced (opening :: (inside ++ [t])) := .pair hkind hinside hclosing .nil
        simpa using houter.append hpair
    · rw [pairOff_other hopening hclosing]
      exact ih.append (.other hopening hclosing .nil)

/-- The last opening bracket without a partner is the first of those left over. -/
theorem innermost_iff {tokens : List Token} {opening : Token} :
    Innermost tokens opening ↔ (unclosed tokens).head? = some opening := by
  constructor
  · intro h
    obtain ⟨before, inside, rfl, hopening, hinside⟩ := h
    rw [unclosed, List.foldl_append, List.foldl_cons, hinside.foldl_pairOff,
      pairOff_opening hopening, List.head?_cons]
  · intro h
    have hstand := standIn_unclosed tokens
    obtain ⟨outer, houter⟩ := List.head?_eq_some_iff.mp h
    rw [houter] at hstand
    obtain ⟨before, inside, heq, hopening, hinside, -⟩ := hstand
    exact ⟨before, inside, heq, hopening, hinside⟩

namespace Parser

def brackets : List Frame → List Token
  | [] => []
  | .bracket opening :: frames => opening :: brackets frames
  | _ :: frames => brackets frames

theorem enclosing?_eq (frames : List Frame) : enclosing? frames = (brackets frames).head? := by
  induction frames with
  | nil => rfl
  | cons frame frames ih =>
    cases frame with
    | bracket opening => rfl
    | sign | chain | raise | call => exact ih

theorem brackets_settle (loosest : Level) (frames : List Frame) (e : Expr) :
    brackets (settle loosest frames e).1 = brackets frames := by
  induction frames generalizing e with
  | nil => rfl
  | cons frame frames ih =>
    by_cases hfinished : frame.level?.any (fun level => loosest.rank ≤ level.rank) = true
    · simp only [settle, hfinished, if_true, ih]
      cases frame with
      | bracket opening => simp [Frame.level?] at hfinished
      | sign | chain | raise | call => rfl
    · simp only [settle, hfinished]
      rfl

theorem close?_of_nil {frames : List Frame} (h : brackets frames = []) (e : Expr) :
    close? frames e = none := by
  induction frames generalizing e with
  | nil => rfl
  | cons frame frames ih =>
    cases frame with
    | bracket opening => simp [brackets] at h
    | sign | chain | raise | call => exact ih h _

/-- Closing takes off the innermost bracket. -/
theorem close?_of_cons {frames : List Frame} {opening : Token} {others : List Token}
    (h : brackets frames = opening :: others) (e : Expr) :
    ∃ outer value, close? frames e = some (outer, value) ∧ brackets outer = others := by
  induction frames generalizing e with
  | nil => simp [brackets] at h
  | cons frame frames ih =>
    cases frame with
    | bracket opening' => exact ⟨frames, e, rfl, (List.cons.inj h).2⟩
    | sign | chain | raise | call => exact ih h _

theorem complete_of_nil {frames : List Frame} (h : brackets frames = []) (e : Expr) :
    ∃ tree, complete frames e = .ok tree := by
  induction frames generalizing e with
  | nil => exact ⟨e, rfl⟩
  | cons frame frames ih =>
    cases frame with
    | bracket opening => simp [brackets] at h
    | sign | chain | raise | call => exact ih h _

theorem complete_of_cons {frames : List Frame} {opening : Token} {others : List Token}
    (h : brackets frames = opening :: others) (e : Expr) : complete frames e = .error opening := by
  induction frames generalizing e with
  | nil => simp [brackets] at h
  | cons frame frames ih =>
    cases frame with
    | bracket opening' =>
      obtain rfl := (List.cons.inj h).1
      rfl
    | sign | chain | raise | call => exact ih h _

end Parser

end Reckoner
