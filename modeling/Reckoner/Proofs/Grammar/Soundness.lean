import Reckoner.Proofs.Grammar.Completeness

/-!
The parser reads nothing but phrases. At every moment the tokens consumed are the
words behind the frames, outermost first, followed by what the innermost of them is
being filled with. Finishing a construct moves its word from the frames to the
filling, and the filling is a phrase again; so at the end of the input the filling
is a whole expression.
-/

namespace Reckoner.Parser

/-- A phrase of a tighter level is also one of a looser level. -/
theorem exists_looser {tight loose : Level} (p : Phrase tight) (h : loose.rank ≤ tight.rank) :
    ∃ q : Phrase loose, q.word = p.word := by
  cases tight <;> cases loose <;> simp only [Level.rank] at h
  case sum.sum => exact ⟨p, rfl⟩
  case product.sum => exact ⟨.signed none p, rfl⟩
  case product.product => exact ⟨p, rfl⟩
  case power.sum => exact ⟨.signed none (.factor p), rfl⟩
  case power.product => exact ⟨.factor p, rfl⟩
  case power.power => exact ⟨p, rfl⟩
  case atom.sum => exact ⟨.signed none (.factor (.argument p)), rfl⟩
  case atom.product => exact ⟨.factor (.argument p), rfl⟩
  case atom.power => exact ⟨.argument p, rfl⟩
  case atom.atom => exact ⟨p, rfl⟩
  all_goals omega

/-- The word behind each frame: what the frame holds already, and the token that
asks for more. -/
inductive Behind : List Frame → List Symbol → Prop
  | start : Behind [] []
  | bracket {frames word} (opening : Token) (h : Behind frames word) :
      Behind (.bracket opening :: frames) (word ++ [.openBracket])
  | leadingSign {frames word} (sign : Sign) (label : Label) (h : Behind frames word)
      (hframes : (wanted frames).rank ≤ Level.sum.rank) :
      Behind (.sign .sum sign label :: frames) (word ++ [.operator .sum sign])
  | factorSign {frames word} (sign : Sign) (label : Label) (h : Behind frames word)
      (hframes : signLevel? frames = some .power) :
      Behind (.sign .power sign label :: frames) (word ++ [.operator .sum sign])
  | sum {frames word} (p : Phrase .sum) (soFar : Expr) (sign : Sign) (label : Label)
      (h : Behind frames word) (hframes : (wanted frames).rank ≤ Level.sum.rank) :
      Behind (.chain .sum soFar sign label :: frames)
        (word ++ (p.word ++ [.operator .sum sign]))
  | product {frames word} (p : Phrase .product) (soFar : Expr) (sign : Sign) (label : Label)
      (h : Behind frames word) (hframes : (wanted frames).rank ≤ Level.product.rank) :
      Behind (.chain .product soFar sign label :: frames)
        (word ++ (p.word ++ [.operator .product sign]))
  | raise {frames word} (b : Phrase .atom) (base : Expr) (label : Label)
      (h : Behind frames word) (hframes : (wanted frames).rank ≤ Level.power.rank) :
      Behind (.raise base label :: frames) (word ++ (b.word ++ [.caret]))
  | call {frames word} (function : Builtin) (label : Label) (h : Behind frames word) :
      Behind (.call function label :: frames) (word ++ [.function function])

/-- A phrase, at least as tight as the level, that may stand where the frames wait;
with a sign before it if they allow one there. -/
inductive Filling (level : Level) (frames : List Frame) : List Symbol → Prop
  | phrase {tight : Level} (p : Phrase tight) (htight : level.rank ≤ tight.rank)
      (hframes : (wanted frames).rank ≤ tight.rank) : Filling level frames p.word
  | signed (sign : Sign) (p : Phrase .power) (hlevel : level.rank ≤ Level.power.rank)
      (hframes : signLevel? frames = some .power) :
      Filling level frames (.operator .sum sign :: p.word)

namespace Filling

variable {level : Level} {frames : List Frame} {word : List Symbol}

theorem loosen {tight : Level} (h : Filling tight frames word) (loose : Level)
    (hle : loose.rank ≤ tight.rank) : Filling loose frames word := by
  cases h with
  | phrase p htight hframes => exact .phrase p (Nat.le_trans hle htight) hframes
  | signed sign p hlevel hframes => exact .signed sign p (Nat.le_trans hle hlevel) hframes

/-- Where no sign of a factor is allowed the filling is a phrase. -/
theorem exists_phrase (h : Filling level frames word) (target : Level)
    (hsign : signLevel? frames ≠ some .power)
    (htarget : target.rank ≤ level.rank ∨ target = wanted frames) :
    ∃ p : Phrase target, p.word = word := by
  cases h with
  | phrase p htight hframes =>
    apply exists_looser p
    rcases htarget with hle | rfl
    · exact Nat.le_trans hle htight
    · exact hframes
  | signed sign p hlevel hframes => exact absurd hframes hsign

/-- Where a sign of a factor is allowed the filling is a factor with an optional sign. -/
theorem exists_factor (h : Filling level frames word) (hwanted : wanted frames = .power) :
    ∃ (sign : Option Sign) (p : Phrase .power), Phrase.signWord sign ++ p.word = word := by
  cases h with
  | phrase p htight hframes =>
    rw [hwanted] at hframes
    obtain ⟨q, hq⟩ := exists_looser p hframes
    exact ⟨none, q, hq⟩
  | signed sign p hlevel hframes => exact ⟨some sign, p, rfl⟩

end Filling

/-- Finishing the innermost construct turns its word and its filling into a filling
of the next one. -/
theorem Behind.fill {level tight : Level} {frame : Frame} {frames : List Frame}
    {word filling : List Symbol} (h : Behind (frame :: frames) word)
    (hfilling : Filling level (frame :: frames) filling) (htight : frame.level? = some tight)
    (hlevel : level.rank ≤ tight.rank) :
    ∃ outer rest, Behind frames outer ∧ Filling level frames rest ∧
      outer ++ rest = word ++ filling := by
  cases h with
  | bracket opening h => simp [Frame.level?] at htight
  | leadingSign sign label h hframes =>
    obtain rfl := Option.some.inj htight
    obtain ⟨t, ht⟩ := hfilling.exists_phrase .product (by simp [signLevel?]) (.inr rfl)
    refine ⟨_, (Phrase.signed (some sign) t).word, h, .phrase _ hlevel hframes, ?_⟩
    simp [Phrase.word, Phrase.signWord, ht]
  | factorSign sign label h hframes =>
    obtain rfl := Option.some.inj htight
    obtain ⟨f, hf⟩ := hfilling.exists_phrase .power (by simp [signLevel?]) (.inr rfl)
    refine ⟨_, _, h, .signed sign f hlevel hframes, ?_⟩
    simp [hf]
  | sum p soFar sign label h hframes =>
    obtain rfl := Option.some.inj htight
    obtain ⟨t, ht⟩ := hfilling.exists_phrase .product (by simp [signLevel?]) (.inr rfl)
    refine ⟨_, (Phrase.sum p sign t).word, h, .phrase _ hlevel hframes, ?_⟩
    simp [Phrase.word, ht]
  | product p soFar sign label h hframes =>
    obtain rfl := Option.some.inj htight
    obtain ⟨factorSign, f, hf⟩ := hfilling.exists_factor rfl
    refine ⟨_, (Phrase.product p sign factorSign f).word, h, .phrase _ hlevel hframes, ?_⟩
    simp [Phrase.word, hf]
  | raise b base label h hframes =>
    obtain rfl := Option.some.inj htight
    obtain ⟨exponentSign, e, he⟩ := hfilling.exists_factor rfl
    refine ⟨_, (Phrase.power b exponentSign e).word, h, .phrase _ hlevel hframes, ?_⟩
    simp [Phrase.word, he]
  | call function label h =>
    obtain rfl := Option.some.inj htight
    obtain ⟨a, ha⟩ := hfilling.exists_phrase .atom (by simp [signLevel?]) (.inr rfl)
    have hframes : (wanted frames).rank ≤ Level.atom.rank := by
      cases wanted frames <;> decide
    refine ⟨_, (Phrase.call function a).word, h, .phrase _ hlevel hframes, ?_⟩
    simp [Phrase.word, ha]

def Settled (level : Level) (frames : List Frame) : Prop :=
  ∀ tight, frames.head?.bind Frame.level? = some tight → tight.rank < level.rank

theorem Settled.signLevel?_ne {family : Family} {frames : List Frame}
    (h : Settled family.level frames) : signLevel? frames ≠ some .power := by
  cases frames with
  | nil => simp [signLevel?]
  | cons frame rest =>
    cases frame with
    | bracket opening => simp [signLevel?]
    | sign level sign label => simp [signLevel?]
    | chain inner soFar sign label =>
      have hlt := h inner.level rfl
      cases inner with
      | sum => simp [signLevel?]
      | product => cases family <;> simp [Family.level, Level.rank] at hlt
    | raise base label =>
      have hlt := h .power rfl
      cases family <;> simp [Family.level, Level.rank] at hlt
    | call function label => simp [signLevel?]

theorem Settled.wanted_le {family : Family} {frames : List Frame}
    (h : Settled family.level frames) : (wanted frames).rank ≤ family.level.rank := by
  cases frames with
  | nil => cases family <;> decide
  | cons frame rest =>
    cases hl : frame.level? with
    | none => cases family <;> simp [wanted, hl, Family.level, Level.rank]
    | some tight =>
      have hlt := h tight (by simp [hl])
      cases family <;> cases tight <;> simp [Family.level, Level.rank] at hlt
      simp [wanted, hl, Level.inside, Family.level]

theorem Settled.wanted_le_power {frames : List Frame} (h : Settled .atom frames) :
    (wanted frames).rank ≤ Level.power.rank := by
  cases frames with
  | nil => decide
  | cons frame rest =>
    cases hl : frame.level? with
    | none => simp [wanted, hl, Level.rank]
    | some tight =>
      have hlt := h tight (by simp [hl])
      cases tight <;> simp [Level.rank] at hlt <;> simp [wanted, hl, Level.inside, Level.rank]

theorem Behind.settle {loosest : Level} {frames : List Frame} {word filling : List Symbol}
    (h : Behind frames word) (hfilling : Filling loosest frames filling) (e : Expr) :
    ∃ outer rest, Behind (settle loosest frames e).1 outer ∧
      Filling loosest (settle loosest frames e).1 rest ∧ outer ++ rest = word ++ filling ∧
      Settled loosest (settle loosest frames e).1 := by
  induction frames generalizing word filling e with
  | nil => exact ⟨word, filling, h, hfilling, rfl, by simp [Settled, Parser.settle]⟩
  | cons frame frames ih =>
    by_cases hpop : frame.level?.any (fun level => loosest.rank ≤ level.rank) = true
    · obtain ⟨tight, htight, hle⟩ := Option.any_eq_true _ _ |>.mp hpop
      obtain ⟨outer, rest, hbehind, hrest, heq⟩ := h.fill hfilling htight (of_decide_eq_true hle)
      obtain ⟨outer', rest', hbehind', hrest', heq', hsettled⟩ := ih hbehind hrest (frame.fill e)
      -- The frame is finished, and its word is now part of the filling.
      simp only [Parser.settle, hpop, if_true]
      exact ⟨outer', rest', hbehind', hrest', heq'.trans heq, hsettled⟩
    · simp only [Parser.settle, hpop]
      refine ⟨word, filling, h, hfilling, rfl, ?_⟩
      intro tight htight
      have hl : frame.level? = some tight := htight
      simpa [hl] using hpop

theorem Behind.close? {frames outer : List Frame} {word filling : List Symbol} {e value : Expr}
    (h : Behind frames word) (hfilling : Filling .sum frames filling)
    (hclose : close? frames e = some (outer, value)) :
    ∃ before, ∃ p : Phrase .sum, Behind outer before ∧
      before ++ .openBracket :: p.word = word ++ filling := by
  induction frames generalizing word filling e with
  | nil => simp [Parser.close?] at hclose
  | cons frame frames ih =>
    cases hl : frame.level? with
    | none =>
      cases h with
      | bracket opening h =>
        simp only [Parser.close?, Option.some.injEq, Prod.mk.injEq] at hclose
        obtain ⟨rfl, -⟩ := hclose
        obtain ⟨p, hp⟩ := hfilling.exists_phrase .sum (by simp [signLevel?]) (.inr rfl)
        exact ⟨_, p, h, by simp [hp]⟩
      | leadingSign | factorSign | sum | product | raise | call => simp [Frame.level?] at hl
    | some tight =>
      obtain ⟨outer', rest, hbehind, hrest, heq⟩ := h.fill hfilling hl (by cases tight <;> decide)
      have hnext : Parser.close? frames (frame.fill e) = some (outer, value) := by
        cases frame with
        | bracket opening => simp [Frame.level?] at hl
        | sign | chain | raise | call => exact hclose
      obtain ⟨before, p, hbefore, hp⟩ := ih hbehind hrest hnext
      exact ⟨before, p, hbefore, hp.trans heq⟩

theorem Behind.complete {frames : List Frame} {word filling : List Symbol} {e tree : Expr}
    (h : Behind frames word) (hfilling : Filling .sum frames filling)
    (hcomplete : complete frames e = .ok tree) :
    ∃ p : Phrase .sum, p.word = word ++ filling := by
  induction frames generalizing word filling e with
  | nil =>
    cases h
    exact hfilling.exists_phrase .sum (by simp [signLevel?]) (.inr rfl)
  | cons frame frames ih =>
    cases hl : frame.level? with
    | none =>
      cases frame with
      | bracket opening => simp [Parser.complete] at hcomplete
      | sign | chain | raise | call => simp [Frame.level?] at hl
    | some tight =>
      obtain ⟨outer, rest, hbehind, hrest, heq⟩ := h.fill hfilling hl (by cases tight <;> decide)
      have hnext : Parser.complete frames (frame.fill e) = .ok tree := by
        cases frame with
        | bracket opening => simp [Frame.level?] at hl
        | sign | chain | raise | call => exact hcomplete
      obtain ⟨p, hp⟩ := ih hbehind hrest hnext
      exact ⟨p, hp.trans heq⟩

/-- A sign stands at the head of an expression or before a factor, nowhere else. -/
theorem signLevel?_cases {frames : List Frame} {level : Level}
    (h : signLevel? frames = some level) :
    (level = .sum ∧ wanted frames = .sum) ∨ level = .power := by
  cases frames with
  | nil => exact .inl ⟨(Option.some.inj h).symm, rfl⟩
  | cons frame rest =>
    cases frame with
    | bracket opening => exact .inl ⟨(Option.some.inj h).symm, rfl⟩
    | chain family soFar sign label =>
      cases family with
      | sum => simp [signLevel?] at h
      | product => exact .inr (Option.some.inj h).symm
    | raise base label => exact .inr (Option.some.inj h).symm
    | sign | call => simp [signLevel?] at h

namespace State

variable {label : Label} {t : Token} {frames : List Frame} {e : Expr} {s : State}

/-- All a token can do where a value has to come. -/
theorem await_cases (h : await label t frames = .ok s) :
    (∃ v, t.symbol? = some (.number v) ∧ s = holding frames (.const label v)) ∨
    (∃ n, t.symbol? = some (.name n) ∧ s = holding frames (.var label n)) ∨
    (∃ function, t.symbol? = some (.function function) ∧
      s = awaiting (.call function label :: frames)) ∨
    (t.symbol? = some .openBracket ∧ s = awaiting (.bracket t :: frames)) ∨
    (∃ sign level, t.symbol? = some (.operator .sum sign) ∧ signLevel? frames = some level ∧
      s = awaiting (.sign level sign label :: frames)) := by
  obtain ⟨kind, lexeme, position⟩ := t
  cases kind with
  | number =>
    cases hv : Reading.number? lexeme with
    | none => simp [await, hv] at h
    | some v => exact .inl ⟨v, by simp [Token.symbol?, hv], by simpa [await, hv, eq_comm] using h⟩
  | name => exact .inr (.inl ⟨lexeme, rfl, by simpa [await, eq_comm] using h⟩)
  | function =>
    cases hf : Builtin.ofName? lexeme with
    | none => simp [await, hf] at h
    | some function =>
      exact .inr (.inr (.inl ⟨function, by simp [Token.symbol?, hf],
        by simpa [await, hf, eq_comm] using h⟩))
  | openBracket => exact .inr (.inr (.inr (.inl ⟨rfl, by simpa [await, eq_comm] using h⟩)))
  | plus =>
    cases hlevel : signLevel? frames with
    | none => simp [await, TokenKind.sign?, hlevel] at h
    | some level =>
      exact .inr (.inr (.inr (.inr ⟨.plus, level, rfl, rfl,
        by simpa [await, TokenKind.sign?, hlevel, eq_comm] using h⟩)))
  | minus =>
    cases hlevel : signLevel? frames with
    | none => simp [await, TokenKind.sign?, hlevel] at h
    | some level =>
      exact .inr (.inr (.inr (.inr ⟨.minus, level, rfl, rfl,
        by simpa [await, TokenKind.sign?, hlevel, eq_comm] using h⟩)))
  | finish | star | slash | caret | closeBracket => simp [await, TokenKind.sign?] at h

/-- All a token can do after a value. -/
theorem proceed_cases (h : proceed label t frames e = .ok s) :
    (t.symbol? = some .caret ∧
      s = awaiting (.raise (settle .atom frames e).2 label :: (settle .atom frames e).1)) ∨
    (t.symbol? = some .closeBracket ∧
      ∃ outer value, close? frames e = some (outer, value) ∧ s = holding outer value) ∨
    (∃ family sign, t.symbol? = some (.operator family sign) ∧
      s = awaiting (.chain family (settle family.level frames e).2 sign label ::
        (settle family.level frames e).1)) := by
  obtain ⟨kind, lexeme, position⟩ := t
  cases kind with
  | caret => exact .inl ⟨rfl, by simpa [proceed, eq_comm] using h⟩
  | closeBracket =>
    cases hclose : close? frames e with
    | none => simp [proceed, hclose] at h
    | some closed =>
      exact .inr (.inl ⟨rfl, closed.1, closed.2, rfl, by simpa [proceed, hclose, eq_comm] using h⟩)
  | plus =>
    exact .inr (.inr ⟨.sum, .plus, rfl, by simpa [proceed, TokenKind.operator?, eq_comm] using h⟩)
  | minus =>
    exact .inr (.inr ⟨.sum, .minus, rfl, by simpa [proceed, TokenKind.operator?, eq_comm] using h⟩)
  | star =>
    exact .inr (.inr
      ⟨.product, .plus, rfl, by simpa [proceed, TokenKind.operator?, eq_comm] using h⟩)
  | slash =>
    exact .inr (.inr
      ⟨.product, .minus, rfl, by simpa [proceed, TokenKind.operator?, eq_comm] using h⟩)
  | finish | function | openBracket | number | name =>
    cases hopening : enclosing? frames <;> simp [proceed, TokenKind.operator?, hopening] at h

end State

/-- What a state says about the tokens consumed on the way to it. -/
inductive Consumed : State → List Token → Prop
  | awaiting {frames word tokens} (h : Behind frames word) (hword : Spells tokens word) :
      Consumed (.awaiting frames) tokens
  | holding {frames word filling tokens} (e : Expr) (h : Behind frames word)
      (hfilling : Filling .atom frames filling) (hword : Spells tokens (word ++ filling)) :
      Consumed (.holding frames e) tokens
  | finished {tokens ends} (e : Expr) (p : Phrase .sum) (hword : Spells tokens p.word)
      (hends : Ended ends) : Consumed (.finished e) (tokens ++ ends)

namespace Consumed

variable {label : Label} {t : Token} {s s' : State} {tokens : List Token} {frames : List Frame}
  {word filling : List Symbol} {e : Expr}

theorem spells_snoc {symbol : Symbol} (h : Spells tokens word) (ht : t.symbol? = some symbol) :
    Spells (tokens ++ [t]) (word ++ [symbol]) :=
  h.append (Spells.cons_iff.mpr ⟨t, [], rfl, ht, Spells.nil_iff.mpr rfl⟩)

/-- Where the input may end a whole expression has been consumed. -/
theorem finish {tree : Expr} (h : Consumed s tokens) (hfinish : s.finish t = .ok tree) :
    ∃ p : Phrase .sum, ∃ before ends, tokens = before ++ ends ∧ Spells before p.word ∧
      Ended ends := by
  cases h with
  | awaiting h hword => simp [State.finish] at hfinish
  | @holding frames _ _ _ e h hfilling hword =>
    cases hcomplete : complete frames e with
    | error opening => simp [State.finish, hcomplete] at hfinish
    | ok tree =>
      obtain ⟨p, hp⟩ := h.complete (hfilling.loosen .sum (by decide)) hcomplete
      exact ⟨p, tokens, [], by simp, hp ▸ hword, by simp [Ended]⟩
  | finished e p hword hends => exact ⟨p, _, _, rfl, hword, hends⟩

theorem filling_atom (frames : List Frame) (p : Phrase .atom) : Filling .atom frames p.word :=
  .phrase p (Nat.le_refl _) (by cases wanted frames <;> decide)

theorem await (h : Behind frames word) (hword : Spells tokens word)
    (hstep : State.await label t frames = .ok s') : Consumed s' (tokens ++ [t]) := by
  rcases State.await_cases hstep with ⟨v, ht, rfl⟩ | ⟨n, ht, rfl⟩ | ⟨function, ht, rfl⟩ |
    ⟨ht, rfl⟩ | ⟨sign, level, ht, hlevel, rfl⟩
  · exact .holding _ h (filling_atom frames (.number v)) (spells_snoc hword ht)
  · exact .holding _ h (filling_atom frames (.name n)) (spells_snoc hword ht)
  · exact .awaiting (.call function label h) (spells_snoc hword ht)
  · exact .awaiting (.bracket t h) (spells_snoc hword ht)
  · rcases signLevel?_cases hlevel with ⟨rfl, hwanted⟩ | rfl
    · exact .awaiting (.leadingSign sign label h (by simp [hwanted])) (spells_snoc hword ht)
    · exact .awaiting (.factorSign sign label h hlevel) (spells_snoc hword ht)

theorem proceed (h : Behind frames word) (hfilling : Filling .atom frames filling)
    (hword : Spells tokens (word ++ filling)) (hstep : State.proceed label t frames e = .ok s') :
    Consumed s' (tokens ++ [t]) := by
  rcases State.proceed_cases hstep with ⟨ht, rfl⟩ | ⟨ht, outer, value, hclose, rfl⟩ |
    ⟨family, sign, ht, rfl⟩
  · obtain ⟨before, rest, hbehind, hrest, heq, hsettled⟩ := h.settle hfilling e
    obtain ⟨b, rfl⟩ : ∃ b : Phrase .atom, b.word = rest := by
      cases hrest with
      | phrase p htight hframes => exact exists_looser p htight
      | signed sign p hlevel hframes => simp [Level.rank] at hlevel
    refine .awaiting (.raise b _ label hbehind hsettled.wanted_le_power) ?_
    rw [← List.append_assoc, heq]
    exact spells_snoc hword ht
  · obtain ⟨before, p, hbefore, heq⟩ := h.close? (hfilling.loosen .sum (by decide)) hclose
    refine .holding _ hbefore (filling_atom outer (.bracketed p)) ?_
    have hclosed : before ++ (Phrase.bracketed p).word = word ++ filling ++ [.closeBracket] := by
      rw [← heq]
      simp [Phrase.word]
    rw [hclosed]
    exact spells_snoc hword ht
  · obtain ⟨before, rest, hbehind, hrest, heq, hsettled⟩ :=
      h.settle (hfilling.loosen family.level (by cases family <;> decide)) e
    have hsign := hsettled.signLevel?_ne
    have hwanted := hsettled.wanted_le
    have hspells : Spells (tokens ++ [t]) (before ++ (rest ++ [.operator family sign])) := by
      rw [← List.append_assoc, heq]
      exact spells_snoc hword ht
    cases family with
    | sum =>
      obtain ⟨p, rfl⟩ := hrest.exists_phrase .sum hsign (.inl (Nat.le_refl _))
      exact .awaiting (.sum p _ sign label hbehind hwanted) hspells
    | product =>
      obtain ⟨p, rfl⟩ := hrest.exists_phrase .product hsign (.inl (Nat.le_refl _))
      exact .awaiting (.product p _ sign label hbehind hwanted) hspells

theorem step (h : Consumed s tokens) (hstep : s.step label t = .ok s') :
    Consumed s' (tokens ++ [t]) := by
  by_cases ht : t.kind = .finish
  · cases hfinish : s.finish t with
    | error error => simp [State.step, ht, hfinish, Except.map] at hstep
    | ok tree =>
      obtain rfl : State.finished tree = s' := by
        simpa [State.step, ht, hfinish, Except.map] using hstep
      obtain ⟨p, before, ends, rfl, hword, hends⟩ := h.finish hfinish
      rw [List.append_assoc]
      refine .finished tree p hword ?_
      intro t' h'
      rcases List.mem_append.mp h' with h' | h'
      · exact hends t' h'
      · exact List.mem_singleton.mp h' ▸ ht
  · simp only [State.step, ht, if_false] at hstep
    cases h with
    | awaiting h hword => exact await h hword hstep
    | holding e h hfilling hword => exact proceed h hfilling hword hstep
    | finished e p hword hends => simp at hstep

theorem run {rest : List Token} (h : Consumed s tokens) (hrun : s.run label rest = .ok s') :
    Consumed s' (tokens ++ rest) := by
  induction rest generalizing label s tokens with
  | nil =>
    obtain rfl : s = s' := by simpa [State.run] using hrun
    simpa using h
  | cons t rest ih =>
    cases hstep : s.step label t with
    | error error => simp [State.run, hstep] at hrun
    | ok next =>
      simp only [State.run, hstep] at hrun
      simpa using ih (h.step hstep) hrun

end Consumed

/-- A token list with a tree is a phrase followed by ends of input, and the tree is that of
the phrase. -/
theorem exists_phrase_of_parse {label : Label} {tokens : List Token} {tree : Expr}
    (h : parse label tokens = .ok tree) :
    ∃ p : Phrase .sum, ∃ before ends, tokens = before ++ ends ∧ Spells before p.word ∧
      Ended ends ∧ p.tree label = tree := by
  cases hrun : State.start.run label tokens with
  | error error => simp [parse, hrun] at h
  | ok s =>
    have hstart : Consumed State.start [] := .awaiting .start (Spells.nil_iff.mpr rfl)
    have hconsumed : Consumed s tokens := by simpa using hstart.run hrun
    obtain ⟨p, before, ends, rfl, hword, hends⟩ :=
      hconsumed.finish (by simpa [parse, hrun] using h)
    refine ⟨p, before, ends, rfl, hword, hends, ?_⟩
    exact Except.ok.inj ((parse_phrase p hword hends).symm.trans h)

end Reckoner.Parser
