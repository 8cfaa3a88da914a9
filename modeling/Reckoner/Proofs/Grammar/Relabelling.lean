import Reckoner.Proofs.Grammar.Completeness
import Reckoner.Proofs.Shape

/-!
Labels are only handed on. What the parser does at a token depends on the constructs it is
in and not on their labels, so from two states that differ in labels alone the same tokens
lead to two states that differ in labels alone, or to the same error.
-/

namespace Reckoner

namespace Expr

theorem unlabelled_unlabelled (e : Expr) : e.unlabelled.unlabelled = e.unlabelled := by
  induction e using induct with
  | const | var => rfl
  | chain l family o s e rest ihe ihrest =>
    have hrest : unlabelledTerms (unlabelledTerms rest) = unlabelledTerms rest := by
      simp only [unlabelledTerms_eq, List.map_map]
      exact List.map_congr_left fun t ht => congrArg (t.1, ·) (ihrest t ht)
    rw [unlabelled, unlabelled, ihe, hrest]
  | power l base exponent ihbase ihexponent =>
    rw [unlabelled, unlabelled, ihbase, ihexponent]
  | call l callee argument ih => rw [unlabelled, unlabelled, ih]

end Expr

namespace Phrase

theorem unlabelled_signedTree {build : Label → Expr}
    (h : ∀ label label', (build label).unlabelled = (build label').unlabelled)
    (sign : Option Sign) (label label' : Label) :
    (signedTree label sign build).unlabelled = (signedTree label' sign build).unlabelled := by
  cases sign with
  | none => exact h label label'
  | some sign =>
    cases sign with
    | plus => exact h _ _
    | minus => exact congrArg (fun e => Expr.chain 0 .sum .minus (.minus, e) []) (h _ _)

/-- The shape of a phrase's tree does not depend on where its labels begin. -/
theorem unlabelled_tree {level : Level} (p : Phrase level) (label label' : Label) :
    (p.tree label).unlabelled = (p.tree label').unlabelled := by
  induction p generalizing label label' with
  | signed sign t ih => exact unlabelled_signedTree ih sign label label'
  | sum p sign t ihp iht =>
    rw [tree, tree, Expr.unlabelled_extend, Expr.unlabelled_extend, ihp label label',
      iht _ (label' + p.word.length + 1)]
  | factor f ih => exact ih label label'
  | product p sign factorSign f ihp ihf =>
    rw [tree, tree, Expr.unlabelled_extend, Expr.unlabelled_extend, ihp label label',
      unlabelled_signedTree ihf factorSign _ (label' + p.word.length + 1)]
  | argument a ih => exact ih label label'
  | power b exponentSign e ihb ihe =>
    rw [tree, tree, Expr.unlabelled, Expr.unlabelled, ihb label label',
      unlabelled_signedTree ihe exponentSign _ (label' + b.word.length + 1)]
  | call function a ih => exact congrArg (Expr.call 0 (.builtin function)) (ih _ _)
  | bracketed e ih => exact ih _ _
  | number | name => rfl

end Phrase

namespace Parser

def Frame.unlabelled : Frame → Frame
  | bracket opening => bracket opening
  | sign level s _ => sign level s 0
  | chain family soFar s _ => chain family soFar.unlabelled s 0
  | raise base _ => raise base.unlabelled 0
  | call function _ => call function 0

def State.unlabelled : State → State
  | awaiting frames => awaiting (frames.map Frame.unlabelled)
  | holding frames e => holding (frames.map Frame.unlabelled) e.unlabelled
  | finished tree => finished tree.unlabelled

variable {frame : Frame} {frames : List Frame} {e e' : Expr}

namespace Frame

theorem unlabelled_unlabelled (frame : Frame) : frame.unlabelled.unlabelled = frame.unlabelled := by
  cases frame with
  | bracket | sign | call => rfl
  | chain family soFar s l => rw [unlabelled, unlabelled, Expr.unlabelled_unlabelled]
  | raise base l => rw [unlabelled, unlabelled, Expr.unlabelled_unlabelled]

theorem level?_unlabelled (frame : Frame) : frame.unlabelled.level? = frame.level? := by
  cases frame <;> rfl

theorem unlabelled_fill (frame : Frame) (h : e.unlabelled = e'.unlabelled) :
    (frame.unlabelled.fill e).unlabelled = (frame.fill e').unlabelled := by
  cases frame with
  | bracket => exact h
  | sign level s l =>
    cases s with
    | plus => exact h
    | minus =>
      show Expr.chain 0 .sum .minus (.minus, e.unlabelled) [] =
        Expr.chain 0 .sum .minus (.minus, e'.unlabelled) []
      rw [h]
  | chain family soFar s l =>
    rw [unlabelled, fill, fill, Expr.unlabelled_extend, Expr.unlabelled_extend,
      Expr.unlabelled_unlabelled, h]
  | raise base l =>
    rw [unlabelled, fill, fill, Expr.unlabelled, Expr.unlabelled, Expr.unlabelled_unlabelled, h]
  | call function l => rw [unlabelled, fill, fill, Expr.unlabelled, Expr.unlabelled, h]

end Frame

theorem map_unlabelled_unlabelled (frames : List Frame) :
    (frames.map Frame.unlabelled).map Frame.unlabelled = frames.map Frame.unlabelled := by
  rw [List.map_map]
  exact List.map_congr_left fun frame _ => frame.unlabelled_unlabelled

theorem signLevel?_unlabelled (frames : List Frame) :
    signLevel? (frames.map Frame.unlabelled) = signLevel? frames := by
  cases frames with
  | nil => rfl
  | cons frame frames =>
    cases frame with
    | chain family soFar s l => cases family <;> rfl
    | bracket | sign | raise | call => rfl

theorem enclosing?_unlabelled (frames : List Frame) :
    enclosing? (frames.map Frame.unlabelled) = enclosing? frames := by
  induction frames with
  | nil => rfl
  | cons frame frames ih =>
    cases frame with
    | bracket opening => rfl
    | sign | chain | raise | call => exact ih

theorem settle_unlabelled (loosest : Level) (frames : List Frame)
    (h : e.unlabelled = e'.unlabelled) :
    (settle loosest (frames.map Frame.unlabelled) e).1 =
        (settle loosest frames e').1.map Frame.unlabelled ∧
      (settle loosest (frames.map Frame.unlabelled) e).2.unlabelled =
        (settle loosest frames e').2.unlabelled := by
  induction frames generalizing e e' with
  | nil => exact ⟨rfl, h⟩
  | cons frame frames ih =>
    rw [List.map_cons, settle, settle, frame.level?_unlabelled]
    split
    · exact ih (frame.unlabelled_fill h)
    · exact ⟨rfl, h⟩

/-- What is left when the innermost bracket is taken off, in frames that differ in labels. -/
theorem close?_unlabelled (frames : List Frame) (h : e.unlabelled = e'.unlabelled) :
    (close? (frames.map Frame.unlabelled) e).map (fun p => (p.1, p.2.unlabelled)) =
      (close? frames e').map fun p => (p.1.map Frame.unlabelled, p.2.unlabelled) := by
  induction frames generalizing e e' with
  | nil => rfl
  | cons frame frames ih =>
    have hfill := frame.unlabelled_fill h
    cases frame with
    | bracket opening => exact congrArg some (congrArg _ h)
    | sign | chain | raise | call => exact ih hfill

theorem complete_unlabelled (frames : List Frame) (h : e.unlabelled = e'.unlabelled) :
    (complete (frames.map Frame.unlabelled) e).map Expr.unlabelled =
      (complete frames e').map Expr.unlabelled := by
  induction frames generalizing e e' with
  | nil => exact congrArg Except.ok h
  | cons frame frames ih =>
    have hfill := frame.unlabelled_fill h
    cases frame with
    | bracket opening => rfl
    | sign | chain | raise | call => exact ih hfill

namespace State

variable {s s' : State} {t : Token} {tokens : List Token}

theorem finish_unlabelled (t : Token) (s : State) :
    (s.unlabelled.finish t).map Expr.unlabelled = (s.finish t).map Expr.unlabelled := by
  cases s with
  | awaiting frames => rfl
  | holding frames e =>
    have hcomplete := complete_unlabelled frames e.unlabelled_unlabelled
    simp only [unlabelled, finish]
    cases hleft : complete (frames.map Frame.unlabelled) e.unlabelled <;>
      cases hright : complete frames e <;> rw [hleft, hright] at hcomplete <;>
      simp_all [Except.map]
  | finished tree => exact congrArg Except.ok tree.unlabelled_unlabelled

theorem await_unlabelled (label label' : Label) (t : Token) (frames : List Frame) :
    (await label t (frames.map Frame.unlabelled)).map unlabelled =
      (await label' t frames).map unlabelled := by
  have htwice := map_unlabelled_unlabelled frames
  have hlevel := signLevel?_unlabelled frames
  obtain ⟨kind, lexeme, position⟩ := t
  cases kind with
  | number =>
    cases hv : Reading.number? lexeme <;>
      simp [await, hv, Except.map, unlabelled, htwice, Expr.unlabelled]
  | function =>
    cases hf : Builtin.ofName? lexeme <;>
      simp [await, hf, Except.map, unlabelled, htwice, Frame.unlabelled]
  | name | openBracket =>
    simp [await, Except.map, unlabelled, htwice, Expr.unlabelled, Frame.unlabelled]
  | plus | minus =>
    cases hframes : signLevel? frames <;>
      simp [await, TokenKind.sign?, hlevel, hframes, Except.map, unlabelled, htwice,
        Frame.unlabelled]
  | finish | star | slash | caret | closeBracket => simp [await, TokenKind.sign?, Except.map]

theorem proceed_unlabelled (label label' : Label) (t : Token) (frames : List Frame) (e : Expr) :
    (proceed label t (frames.map Frame.unlabelled) e.unlabelled).map unlabelled =
      (proceed label' t frames e).map unlabelled := by
  have htwice := fun frames => map_unlabelled_unlabelled frames
  have hsettle := fun level => settle_unlabelled level frames e.unlabelled_unlabelled
  have hclose := close?_unlabelled frames e.unlabelled_unlabelled
  have hopening := enclosing?_unlabelled frames
  obtain ⟨kind, lexeme, position⟩ := t
  cases kind with
  | caret =>
    obtain ⟨houter, hbase⟩ := hsettle .atom
    simp [proceed, Except.map, unlabelled, Frame.unlabelled, houter, hbase, htwice]
  | closeBracket =>
    simp only [proceed]
    cases hright : close? frames e with
    | none =>
      rw [hright, Option.map_none, Option.map_eq_none_iff] at hclose
      rw [hclose]
    | some right =>
      obtain ⟨outer, value⟩ := right
      rw [hright, Option.map_some, Option.map_eq_some_iff] at hclose
      obtain ⟨⟨outer', value'⟩, hleft, heq⟩ := hclose
      obtain ⟨rfl, hvalue⟩ := Prod.mk.inj heq
      simp [hleft, Except.map, unlabelled, htwice, hvalue]
  | plus | minus =>
    obtain ⟨houter, hsoFar⟩ := hsettle .sum
    simp [proceed, TokenKind.operator?, Except.map, unlabelled, Frame.unlabelled, Family.level,
      houter, hsoFar, htwice]
  | star | slash =>
    obtain ⟨houter, hsoFar⟩ := hsettle .product
    simp [proceed, TokenKind.operator?, Except.map, unlabelled, Frame.unlabelled, Family.level,
      houter, hsoFar, htwice]
  | finish | function | openBracket | number | name =>
    simp only [proceed, TokenKind.operator?, hopening]

/-- A step does the same to the state without its labels. -/
theorem step_unlabelled (label label' : Label) (t : Token) (s : State) :
    (s.unlabelled.step label t).map unlabelled = (s.step label' t).map unlabelled := by
  by_cases ht : t.kind = .finish
  · have hfinish := finish_unlabelled t s
    simp only [step, if_pos ht]
    cases hleft : s.unlabelled.finish t <;> cases hright : s.finish t <;>
      rw [hleft, hright] at hfinish <;> simp_all [Except.map, unlabelled]
  · simp only [step, if_neg ht]
    cases s with
    | awaiting frames => exact await_unlabelled label label' t frames
    | holding frames e => exact proceed_unlabelled label label' t frames e
    | finished tree => rfl

/-- The same token takes states that differ in labels to states that differ in labels. -/
theorem exists_step_of_unlabelled {label : Label} {next : State}
    (h : s.unlabelled = s'.unlabelled) (hstep : s.step label t = .ok next) (label' : Label) :
    ∃ next', s'.step label' t = .ok next' ∧ next.unlabelled = next'.unlabelled := by
  have hleft := step_unlabelled 0 label t s
  have hright := step_unlabelled 0 label' t s'
  rw [h, hright, hstep] at hleft
  cases hstep' : s'.step label' t with
  | error e => simp [hstep', Except.map] at hleft
  | ok next' =>
    rw [hstep'] at hleft
    exact ⟨next', rfl, (Except.ok.inj hleft).symm⟩

theorem exists_run_of_unlabelled {label : Label} {last : State}
    (h : s.unlabelled = s'.unlabelled) (hrun : s.run label tokens = .ok last) (label' : Label) :
    ∃ last', s'.run label' tokens = .ok last' ∧ last.unlabelled = last'.unlabelled := by
  induction tokens generalizing label label' s s' with
  | nil =>
    obtain rfl := Except.ok.inj hrun
    exact ⟨s', rfl, h⟩
  | cons t rest ih =>
    cases hstep : s.step label t with
    | error e => simp [run, hstep] at hrun
    | ok next =>
      obtain ⟨next', hstep', hnext⟩ := exists_step_of_unlabelled h hstep label'
      rw [run_cons hstep] at hrun
      obtain ⟨last', hlast, hsame⟩ := ih hnext hrun (label' + 1)
      exact ⟨last', (run_cons hstep').trans hlast, hsame⟩

theorem exists_finish_of_unlabelled {tree : Expr} (h : s.unlabelled = s'.unlabelled)
    (hfinish : s.finish t = .ok tree) :
    ∃ tree', s'.finish t = .ok tree' ∧ tree.unlabelled = tree'.unlabelled := by
  have hleft := finish_unlabelled t s
  have hright := finish_unlabelled t s'
  rw [h, hright, hfinish] at hleft
  cases hfinish' : s'.finish t with
  | error e => simp [hfinish', Except.map] at hleft
  | ok tree' =>
    rw [hfinish'] at hleft
    exact ⟨tree', rfl, (Except.ok.inj hleft).symm⟩

end State

end Parser

end Reckoner
