import Mathlib.Logic.Basic
import Reckoner.Proofs.Grammar.Relabelling
import Reckoner.Proofs.Grammar.Soundness

/-!
Brackets around the operand of a factor operator. An operand with a minus in front may stand
behind such an operator without brackets, and unless a caret comes next, which would take the
factor behind the minus for its base, the parser makes the same of it.
-/

namespace Reckoner.Parser

namespace State

variable {label : Label} {s s' : State} {t : Token} {outer : List Frame} {e : Expr}
  {tokens : List Token} {outer' : List Frame}

theorem exists_of_run_append {first last : List Token}
    (h : s.run label (first ++ last) = .ok s') :
    ∃ next, s.run label first = .ok next ∧ next.run (label + first.length) last = .ok s' := by
  induction first generalizing label s with
  | nil => exact ⟨s, rfl, h⟩
  | cons t first ih =>
    rw [List.cons_append] at h
    cases hstep : s.step label t with
    | error e => simp [run, hstep] at h
    | ok next =>
      rw [run_cons hstep] at h
      obtain ⟨middle, hfirst, hlast⟩ := ih h
      refine ⟨middle, (run_cons hstep).trans hfirst, ?_⟩
      rwa [List.length_cons, Nat.add_comm first.length, ← Nat.add_assoc]

/-- Behind a factor operator the parser waits for a factor, or for its sign. -/
theorem awaiting_of_factorOperator (ht : t.kind = .star ∨ t.kind = .slash ∨ t.kind = .caret)
    (hstep : s.step label t = .ok s') :
    ∃ frames, s' = awaiting frames ∧ signLevel? frames = some .power ∧ wanted frames = .power := by
  cases s with
  | awaiting frames =>
    rcases ht with ht | ht | ht <;> simp [step, await, ht, TokenKind.sign?] at hstep
  | holding frames e =>
    rcases ht with ht | ht | ht
    · obtain rfl : awaiting _ = s' := by
        simpa [step, proceed, ht, TokenKind.operator?] using hstep
      exact ⟨_, rfl, rfl, rfl⟩
    · obtain rfl : awaiting _ = s' := by
        simpa [step, proceed, ht, TokenKind.operator?] using hstep
      exact ⟨_, rfl, rfl, rfl⟩
    · obtain rfl : awaiting _ = s' := by
        simpa [step, proceed, ht] using hstep
      exact ⟨_, rfl, rfl, rfl⟩
  | finished tree => rcases ht with ht | ht | ht <;> simp [step, ht] at hstep

theorem Holds.finish_eq {level : Level} (h : Holds level outer e s) (t : Token) :
    s.finish t = (holding outer e).finish t := by
  obtain ⟨inner, value, rfl, hinner, rfl⟩ := h
  rw [finish, finish, complete_append hinner]

theorem enclosing?_append {level : Level} {inner : List Frame}
    (h : ∀ frame ∈ inner, frame.AtLeast level) (outer : List Frame) :
    enclosing? (inner ++ outer) = enclosing? outer := by
  induction inner with
  | nil => rfl
  | cons frame rest ih =>
    obtain ⟨tight, hl, -⟩ := h frame (List.mem_cons_self ..)
    have hrest := ih fun f hf => h f (List.mem_cons_of_mem _ hf)
    cases frame with
    | bracket opening => simp [Frame.level?] at hl
    | sign | chain | raise | call => exact hrest

/-- Whatever comes next but a caret finishes a factor first. -/
theorem Holds.step_eq (h : Holds .power outer e s) (ht : t.kind ≠ .caret) :
    s.step label t = (holding outer e).step label t := by
  by_cases hfinish : t.kind = .finish
  · simp only [step, if_pos hfinish, h.finish_eq]
  obtain ⟨inner, value, rfl, hinner, rfl⟩ := h
  have hsettle : ∀ family : Family, settle family.level (inner ++ outer) value =
      settle family.level outer (fillAll inner value) := by
    intro family
    refine settle_append (fun frame hframe => ?_) outer value
    obtain ⟨tight, hl, hle⟩ := hinner frame hframe
    exact ⟨tight, hl, Nat.le_trans (by cases family <;> decide) hle⟩
  have hclose := close?_append hinner outer value
  have hopening := enclosing?_append hinner outer
  simp only [step, if_neg hfinish, proceed]
  split
  · rename_i hcaret
    exact absurd hcaret ht
  · rw [hclose]
  · simp only [hsettle, hopening]

/-- Two states that hold operands of one shape for frames of one shape come to one shape by the
same tokens, unless the first of these is a caret. -/
theorem Holds.exists_finish {e' tree : Expr} {last : State} (h : Holds .power outer e s)
    (h' : Holds .power outer' e' s')
    (hsame : (holding outer e).unlabelled = (holding outer' e').unlabelled)
    (hnext : ∀ t ∈ tokens.head?, t.kind ≠ .caret) (hrun : s.run label tokens = .ok last)
    (hfinish : last.finish t = .ok tree)
    (label' : Label) :
    ∃ last' tree', s'.run label' tokens = .ok last' ∧ last'.finish t = .ok tree' ∧
      tree.unlabelled = tree'.unlabelled := by
  cases tokens with
  | nil =>
    obtain rfl := Except.ok.inj hrun
    rw [h.finish_eq] at hfinish
    obtain ⟨tree', hfinish', htree⟩ := exists_finish_of_unlabelled hsame hfinish
    exact ⟨s', tree', rfl, by rw [h'.finish_eq, hfinish'], htree⟩
  | cons t rest =>
    have ht : t.kind ≠ .caret := hnext t rfl
    cases hstep : s.step label t with
    | error error => simp [run, hstep] at hrun
    | ok next =>
      rw [run_cons hstep] at hrun
      rw [h.step_eq ht] at hstep
      obtain ⟨next', hstep', hnext⟩ := exists_step_of_unlabelled hsame hstep label'
      rw [← h'.step_eq ht] at hstep'
      obtain ⟨last', hlast, hsame'⟩ := exists_run_of_unlabelled hnext hrun (label' + 1)
      obtain ⟨tree', hfinish', htree⟩ := exists_finish_of_unlabelled hsame' hfinish
      exact ⟨last', tree', (run_cons hstep').trans hlast, hfinish', htree⟩

end State

/-- Behind a factor operator the brackets around a minus and a factor can be left out, if no
caret comes next. -/
theorem exists_parse_without_brackets {label : Label} {before inner after : List Token}
    {opening closing operator : Token} {tree : Expr} {f : Phrase .power}
    (h : parse label (before ++ operator :: opening :: (inner ++ closing :: after)) = .ok tree)
    (hoperator : operator.kind = .star ∨ operator.kind = .slash ∨ operator.kind = .caret)
    (hopening : opening.symbol? = some .openBracket)
    (hclosing : closing.symbol? = some .closeBracket)
    (hinner : Spells inner (.operator .sum .minus :: f.word))
    (hafter : ∀ t ∈ after.head?, t.kind ≠ .caret) (label' : Label) :
    ∃ tree', parse label' (before ++ operator :: (inner ++ after)) = .ok tree' ∧
      tree.unlabelled = tree'.unlabelled := by
  cases hrun : State.start.run label (before ++ operator :: opening :: (inner ++ closing :: after))
    with
  | error error => simp [parse, hrun] at h
  | ok last =>
    have hfinish : last.finish Token.absent = .ok tree := by simpa [parse, hrun] using h
    obtain ⟨held, hbefore, hrest⟩ := State.exists_of_run_append hrun
    obtain ⟨held', hbefore', hheld⟩ := State.exists_run_of_unlabelled rfl hbefore label'
    cases hstep : held.step (label + before.length) operator with
    | error error => simp [State.run, hstep] at hrest
    | ok next =>
      obtain ⟨next', hstep', hnext⟩ :=
        State.exists_step_of_unlabelled hheld hstep (label' + before.length)
      rw [State.run_cons hstep] at hrest
      obtain ⟨frames, rfl, -, hwanted⟩ := State.awaiting_of_factorOperator hoperator hstep
      obtain ⟨frames', rfl, hsign, hwanted'⟩ := State.awaiting_of_factorOperator hoperator hstep'
      have hlist : opening :: (inner ++ closing :: after) =
          opening :: (inner ++ [closing]) ++ after := by simp
      rw [hlist] at hrest
      obtain ⟨s, hbracketed, hafterwards⟩ := State.exists_of_run_append hrest
      -- With its brackets the operand is an argument, without them a sign and a factor.
      have hclose : Spells [closing] [.closeBracket] :=
        Spells.cons_iff.mpr ⟨closing, [], rfl, hclosing, Spells.nil_iff.mpr rfl⟩
      have hargument : Spells (opening :: (inner ++ [closing]))
          (Phrase.bracketed (.signed (some .minus) (.factor f))).word :=
        Spells.cons_iff.mpr ⟨opening, _, rfl, hopening, hinner.append hclose⟩
      have hsigned : Spells inner (Phrase.signWord (some .minus) ++ f.word) := hinner
      obtain ⟨s', hs, hholds⟩ := State.run_phrase _ frames (label + before.length + 1) hargument
        (by rw [hwanted]; decide)
      obtain rfl := Except.ok.inj (hbracketed.symm.trans hs)
      obtain ⟨t, ht, hholds'⟩ := State.run_signed .power frames' (label' + before.length + 1)
        (fun frames label _ hword hframes => State.run_phrase f frames label hword hframes)
        hsigned hsign (by rw [hwanted']; decide)
      have hsame := congrArg (fun e => Expr.chain 0 .sum .minus (.minus, e) [])
        (f.unlabelled_tree (label + before.length + 1 + 1 + 1) (label' + before.length + 1 + 1))
      have hframes : frames.map Frame.unlabelled = frames'.map Frame.unlabelled :=
        State.awaiting.inj hnext
      obtain ⟨last', tree', hlast, htree, hshape⟩ := (hholds.loosen (by decide)).exists_finish
        hholds' (congrArg₂ State.holding hframes hsame) hafter hafterwards hfinish
        (label' + before.length + 1 + inner.length)
      refine ⟨tree', ?_, hshape⟩
      rw [parse, State.run_append _ hbefore', State.run_cons hstep', State.run_append _ ht, hlast]
      exact htree

end Reckoner.Parser
