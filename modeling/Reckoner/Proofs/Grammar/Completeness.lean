import Reckoner.Proofs.Grammar.Phrase

/-!
The parser reads every phrase. Reading the word of a phrase leaves the parser with
the phrase's tree, except that the innermost constructs are not finished yet: what
they are still to be filled with is held, and all of them are at least as tight as
the phrase. So whatever comes next finishes them before it looks further out.
-/

namespace Reckoner

def Level.inside : Level → Level
  | sum => product
  | product => power
  | power => power
  | atom => atom

namespace Parser

/-- The loosest phrase that may stand where the frames wait for a value. -/
def wanted : List Frame → Level
  | [] => .sum
  | frame :: _ =>
      match frame.level? with
      | none => .sum
      | some level => level.inside

def Frame.AtLeast (level : Level) (frame : Frame) : Prop :=
  ∃ tight, frame.level? = some tight ∧ level.rank ≤ tight.rank

def fillAll (frames : List Frame) (e : Expr) : Expr := frames.foldl (fun e f => f.fill e) e

theorem signLevel?_of_wanted {frames : List Frame}
    (h : (wanted frames).rank ≤ Level.sum.rank) : signLevel? frames = some .sum := by
  cases frames with
  | nil => rfl
  | cons frame rest =>
    cases hl : frame.level? with
    | none =>
      cases frame with
      | bracket opening => rfl
      | sign | chain | raise | call => simp [Frame.level?] at hl
    | some level =>
      simp only [wanted, hl] at h
      cases level <;> simp [Level.inside, Level.rank] at h

/-- Nothing is finished where a phrase of the family's level may stand. -/
theorem settle_family_of_wanted {family : Family} {frames : List Frame} (e : Expr)
    (h : (wanted frames).rank ≤ family.level.rank) :
    settle family.level frames e = (frames, e) := by
  cases frames with
  | nil => rfl
  | cons frame rest =>
    cases hl : frame.level? with
    | none => simp [settle, hl]
    | some level =>
      simp only [wanted, hl] at h
      have hlt : ¬ family.level.rank ≤ level.rank := by
        cases family <;> cases level <;> simp [Family.level, Level.inside, Level.rank] at h ⊢
      simp [settle, hl, hlt]

/-- Before a caret nothing is finished unless it is a call. -/
theorem settle_atom_of_wanted {frames : List Frame} (e : Expr)
    (h : (wanted frames).rank ≤ Level.power.rank) :
    settle .atom frames e = (frames, e) := by
  cases frames with
  | nil => rfl
  | cons frame rest =>
    cases hl : frame.level? with
    | none => simp [settle, hl]
    | some level =>
      simp only [wanted, hl] at h
      have hlt : ¬ Level.atom.rank ≤ level.rank := by
        cases level <;> simp [Level.inside, Level.rank] at h ⊢
      simp [settle, hl, hlt]

theorem settle_append {loosest : Level} {inner : List Frame}
    (h : ∀ frame ∈ inner, frame.AtLeast loosest) (outer : List Frame) (e : Expr) :
    settle loosest (inner ++ outer) e = settle loosest outer (fillAll inner e) := by
  induction inner generalizing e with
  | nil => rfl
  | cons frame rest ih =>
    obtain ⟨tight, hl, hle⟩ := h frame (List.mem_cons_self ..)
    have hrest : ∀ f ∈ rest, f.AtLeast loosest := fun f hf => h f (List.mem_cons_of_mem _ hf)
    simp only [List.cons_append, settle, hl, Option.any_some, hle, decide_true, if_true]
    exact ih hrest _

theorem close?_append {level : Level} {inner : List Frame}
    (h : ∀ frame ∈ inner, frame.AtLeast level) (outer : List Frame) (e : Expr) :
    close? (inner ++ outer) e = close? outer (fillAll inner e) := by
  induction inner generalizing e with
  | nil => rfl
  | cons frame rest ih =>
    obtain ⟨tight, hl, -⟩ := h frame (List.mem_cons_self ..)
    have hrest : ∀ f ∈ rest, f.AtLeast level := fun f hf => h f (List.mem_cons_of_mem _ hf)
    cases frame with
    | bracket opening => simp [Frame.level?] at hl
    | sign | chain | raise | call => exact ih hrest _

theorem complete_append {level : Level} {inner : List Frame}
    (h : ∀ frame ∈ inner, frame.AtLeast level) (outer : List Frame) (e : Expr) :
    complete (inner ++ outer) e = complete outer (fillAll inner e) := by
  induction inner generalizing e with
  | nil => rfl
  | cons frame rest ih =>
    obtain ⟨tight, hl, -⟩ := h frame (List.mem_cons_self ..)
    have hrest : ∀ f ∈ rest, f.AtLeast level := fun f hf => h f (List.mem_cons_of_mem _ hf)
    cases frame with
    | bracket opening => simp [Frame.level?] at hl
    | sign | chain | raise | call => exact ih hrest _

namespace State

theorem run_append {label : Nat} {s s' : State} {first : List Token} (rest : List Token)
    (h : s.run label first = .ok s') :
    s.run label (first ++ rest) = s'.run (label + first.length) rest := by
  induction first generalizing label s with
  | nil =>
    simp only [run, Except.ok.injEq] at h
    simp [h]
  | cons t ts ih =>
    simp only [run] at h
    simp only [List.cons_append, run, List.length_cons]
    cases hstep : s.step label t with
    | error e => simp [hstep] at h
    | ok next =>
      simp only [hstep] at h
      have hlabel : label + 1 + ts.length = label + (ts.length + 1) := by omega
      simp only [ih h, hlabel]

/-- The state holds the value `e` for the outer frames, up to finishing constructs
at least as tight as the level. -/
def Holds (level : Level) (outer : List Frame) (e : Expr) (s : State) : Prop :=
  ∃ inner value, s = holding (inner ++ outer) value ∧
    (∀ frame ∈ inner, frame.AtLeast level) ∧ fillAll inner value = e

theorem Holds.of_value (level : Level) (outer : List Frame) (e : Expr) :
    Holds level outer e (holding outer e) :=
  ⟨[], e, rfl, by simp, rfl⟩

theorem Holds.loosen {tight loose : Level} {outer : List Frame} {e : Expr} {s : State}
    (h : Holds tight outer e s) (hle : loose.rank ≤ tight.rank) : Holds loose outer e s := by
  obtain ⟨inner, value, hs, hinner, hfill⟩ := h
  refine ⟨inner, value, hs, ?_, hfill⟩
  intro frame hf
  obtain ⟨level, hl, htight⟩ := hinner frame hf
  exact ⟨level, hl, Nat.le_trans hle htight⟩

/-- A construct whose last operand is held is held itself. -/
theorem Holds.absorb {inside level : Level} {frame : Frame} {outer : List Frame} {e : Expr}
    {s : State} (h : Holds inside (frame :: outer) e s) (hl : frame.level? = some level)
    (hle : level.rank ≤ inside.rank) : Holds level outer (frame.fill e) s := by
  obtain ⟨inner, value, rfl, hinner, rfl⟩ := h
  refine ⟨inner ++ [frame], value, by simp, ?_, by simp [fillAll]⟩
  intro f hf
  rcases List.mem_append.mp hf with hf | hf
  · obtain ⟨tight, ht, hle'⟩ := hinner f hf
    exact ⟨tight, ht, Nat.le_trans hle hle'⟩
  · obtain rfl := List.mem_singleton.mp hf
    exact ⟨level, hl, Nat.le_refl _⟩

variable {label : Nat} {t : Token} {frames outer : List Frame} {e : Expr} {s : State}

theorem step_number {v : Float} (ht : t.symbol? = some (.number v)) :
    (awaiting frames).step label t = .ok (holding frames (.const label v)) := by
  obtain ⟨kind, lexeme, position⟩ := t
  cases kind <;> simp_all [Token.symbol?, step, await]

theorem step_name {n : String} (ht : t.symbol? = some (.name n)) :
    (awaiting frames).step label t = .ok (holding frames (.var label n)) := by
  obtain ⟨kind, lexeme, position⟩ := t
  cases kind <;> simp_all [Token.symbol?, step, await]

theorem step_function {function : Builtin} (ht : t.symbol? = some (.function function)) :
    (awaiting frames).step label t = .ok (awaiting (.call function label :: frames)) := by
  obtain ⟨kind, lexeme, position⟩ := t
  cases kind <;> simp_all [Token.symbol?, step, await]

theorem step_openBracket (ht : t.symbol? = some .openBracket) :
    (awaiting frames).step label t = .ok (awaiting (.bracket t :: frames)) := by
  obtain ⟨kind, lexeme, position⟩ := t
  cases kind <;> simp_all [Token.symbol?, step, await]

/-- A sign is taken where the frames allow one. -/
theorem step_sign {sign : Sign} {level : Level} (ht : t.symbol? = some (.operator .sum sign))
    (hlevel : signLevel? frames = some level) :
    (awaiting frames).step label t = .ok (awaiting (.sign level sign label :: frames)) := by
  obtain ⟨kind, lexeme, position⟩ := t
  cases kind <;> simp_all [Token.symbol?, step, await, TokenKind.sign?]

theorem step_operator {family : Family} {sign : Sign}
    (ht : t.symbol? = some (.operator family sign)) (h : Holds family.level outer e s)
    (houter : (wanted outer).rank ≤ family.level.rank) :
    s.step label t = .ok (awaiting (.chain family e sign label :: outer)) := by
  obtain ⟨inner, value, rfl, hinner, rfl⟩ := h
  have hsettle := (settle_append hinner outer value).trans (settle_family_of_wanted _ houter)
  obtain ⟨kind, lexeme, position⟩ := t
  cases kind <;> simp_all [Token.symbol?, step, proceed, TokenKind.operator?]

theorem step_caret (ht : t.symbol? = some .caret) (h : Holds .atom outer e s)
    (houter : (wanted outer).rank ≤ Level.power.rank) :
    s.step label t = .ok (awaiting (.raise e label :: outer)) := by
  obtain ⟨inner, value, rfl, hinner, rfl⟩ := h
  have hsettle := (settle_append hinner outer value).trans (settle_atom_of_wanted _ houter)
  obtain ⟨kind, lexeme, position⟩ := t
  cases kind <;> simp_all [Token.symbol?, step, proceed]

theorem step_closeBracket {opening : Token} (ht : t.symbol? = some .closeBracket)
    (h : Holds .sum (.bracket opening :: outer) e s) :
    s.step label t = .ok (holding outer e) := by
  obtain ⟨inner, value, rfl, hinner, rfl⟩ := h
  have hclose := close?_append hinner (.bracket opening :: outer) value
  obtain ⟨kind, lexeme, position⟩ := t
  cases kind <;> simp_all [Token.symbol?, step, proceed, close?]

theorem run_cons {next : State} {rest : List Token} (h : s.step label t = .ok next) :
    s.run label (t :: rest) = next.run (label + 1) rest := by
  simp only [run, h]

/-- An operand with an optional sign, where the frames allow the sign. -/
theorem run_signed (level : Level) (frames : List Frame) (label : Nat) {word : List Symbol}
    {build : Label → Expr}
    (hoperand : ∀ (frames : List Frame) (label : Nat) (tokens : List Token),
      Spells tokens word → (wanted frames).rank ≤ level.inside.rank →
      ∃ s, (awaiting frames).run label tokens = .ok s ∧
        Holds level.inside frames (build label) s)
    {sign : Option Sign} {tokens : List Token}
    (hword : Spells tokens (Phrase.signWord sign ++ word))
    (hsign : signLevel? frames = some level)
    (hframes : (wanted frames).rank ≤ level.inside.rank) :
    ∃ s, (awaiting frames).run label tokens = .ok s ∧
      Holds level frames (Phrase.signedTree label sign build) s := by
  have hle : level.rank ≤ level.inside.rank := by cases level <;> decide
  cases sign with
  | none =>
    obtain ⟨s, hrun, hholds⟩ := hoperand frames label tokens hword hframes
    exact ⟨s, hrun, hholds.loosen hle⟩
  | some sign =>
    obtain ⟨t, rest, rfl, ht, hrest⟩ := Spells.cons_iff.mp hword
    have hinside : (wanted (.sign level sign label :: frames)).rank ≤ level.inside.rank :=
      Nat.le_refl _
    obtain ⟨s, hrun, hholds⟩ := hoperand _ (label + 1) rest hrest hinside
    refine ⟨s, (run_cons (step_sign ht hsign)).trans hrun, ?_⟩
    have hfilled := hholds.absorb rfl hle
    cases sign <;> exact hfilled

/-- A held operand, an operator that opens a construct with it, and the last operand. -/
theorem run_infix {level inside tight : Level} {first last : List Token} {frame : Frame}
    {left right : Expr}
    (hleft : ∃ s, (awaiting frames).run label first = .ok s ∧ Holds tight frames left s)
    (hstep : ∀ s, Holds tight frames left s →
      s.step (label + first.length) t = .ok (awaiting (frame :: frames)))
    (hright : ∃ s, (awaiting (frame :: frames)).run (label + first.length + 1) last = .ok s ∧
      Holds inside (frame :: frames) right s)
    (hl : frame.level? = some level) (hle : level.rank ≤ inside.rank) :
    ∃ s, (awaiting frames).run label (first ++ t :: last) = .ok s ∧
      Holds level frames (frame.fill right) s := by
  obtain ⟨s, hrun, hholds⟩ := hleft
  obtain ⟨s', hrun', hholds'⟩ := hright
  refine ⟨s', ?_, hholds'.absorb hl hle⟩
  rw [run_append _ hrun, run_cons (hstep s hholds), hrun']

/-- Reading a phrase where one of its level may stand gives its tree. -/
theorem run_phrase {level : Level} (p : Phrase level) (frames : List Frame) (label : Nat)
    {tokens : List Token} (hword : Spells tokens p.word)
    (hframes : (wanted frames).rank ≤ level.rank) :
    ∃ s, (awaiting frames).run label tokens = .ok s ∧ Holds level frames (p.tree label) s := by
  induction p generalizing frames label tokens with
  | signed sign p ih =>
    have hwanted : (wanted frames).rank ≤ Level.product.rank :=
      Nat.le_trans hframes (by decide)
    exact run_signed .sum frames label (fun frames label _ hw hf => ih frames label hw hf) hword
      (signLevel?_of_wanted hframes) hwanted
  | sum p sign q ihp ihq =>
    obtain ⟨first, after, rfl, hfirst, hafter⟩ := Spells.append_iff.mp hword
    obtain ⟨t, last, rfl, ht, hlast⟩ := Spells.cons_iff.mp hafter
    rw [Phrase.tree, ← hfirst.length_eq]
    have hright := ihq (.chain .sum (p.tree label) sign (label + first.length) :: frames)
      (label + first.length + 1) hlast (Nat.le_refl _)
    exact run_infix (ihp frames label hfirst hframes)
      (fun s hs => step_operator ht hs hframes) hright rfl (by decide)
  | factor p ih =>
    obtain ⟨s, hrun, hholds⟩ := ih frames label hword (Nat.le_trans hframes (by decide))
    exact ⟨s, hrun, hholds.loosen (by decide)⟩
  | product p sign factorSign q ihp ihq =>
    obtain ⟨first, after, rfl, hfirst, hafter⟩ := Spells.append_iff.mp hword
    obtain ⟨t, last, rfl, ht, hlast⟩ := Spells.cons_iff.mp hafter
    rw [Phrase.tree, ← hfirst.length_eq]
    have hright := run_signed .power
      (.chain .product (p.tree label) sign (label + first.length) :: frames)
      (label + first.length + 1) (fun frames label _ hw hf => ihq frames label hw hf) hlast rfl
      (Nat.le_refl _)
    exact run_infix (ihp frames label hfirst hframes)
      (fun s hs => step_operator ht hs hframes) hright rfl (by decide)
  | argument p ih =>
    obtain ⟨s, hrun, hholds⟩ := ih frames label hword (Nat.le_trans hframes (by decide))
    exact ⟨s, hrun, hholds.loosen (by decide)⟩
  | power b exponentSign e ihb ihe =>
    obtain ⟨first, after, rfl, hfirst, hafter⟩ := Spells.append_iff.mp hword
    obtain ⟨t, last, rfl, ht, hlast⟩ := Spells.cons_iff.mp hafter
    rw [Phrase.tree, ← hfirst.length_eq]
    have hright := run_signed .power (.raise (b.tree label) (label + first.length) :: frames)
      (label + first.length + 1) (fun frames label _ hw hf => ihe frames label hw hf) hlast rfl
      (Nat.le_refl _)
    exact run_infix (ihb frames label hfirst (Nat.le_trans hframes (by decide)))
      (fun s hs => step_caret ht hs hframes) hright rfl (by decide)
  | call function a ih =>
    obtain ⟨t, rest, rfl, ht, hrest⟩ := Spells.cons_iff.mp hword
    obtain ⟨s, hrun, hholds⟩ := ih (.call function label :: frames) (label + 1) hrest
      (Nat.le_refl _)
    exact ⟨s, (run_cons (step_function ht)).trans hrun, hholds.absorb rfl (by decide)⟩
  | bracketed e ih =>
    obtain ⟨t, rest, rfl, ht, hrest⟩ := Spells.cons_iff.mp hword
    obtain ⟨inner, after, rfl, hinner, hafter⟩ := Spells.append_iff.mp hrest
    obtain ⟨t', last, rfl, ht', hlast⟩ := Spells.cons_iff.mp hafter
    obtain rfl := Spells.nil_iff.mp hlast
    obtain ⟨s, hrun, hholds⟩ := ih (.bracket t :: frames) (label + 1) hinner (Nat.le_refl _)
    refine ⟨holding frames (e.tree (label + 1)), ?_, Holds.of_value _ _ _⟩
    rw [run_cons (step_openBracket ht), run_append _ hrun, run_cons (step_closeBracket ht' hholds)]
    rfl
  | number v =>
    obtain ⟨t, rest, rfl, ht, hrest⟩ := Spells.cons_iff.mp hword
    obtain rfl := Spells.nil_iff.mp hrest
    exact ⟨_, run_cons (step_number ht), Holds.of_value _ _ _⟩
  | name n =>
    obtain ⟨t, rest, rfl, ht, hrest⟩ := Spells.cons_iff.mp hword
    obtain rfl := Spells.nil_iff.mp hrest
    exact ⟨_, run_cons (step_name ht), Holds.of_value _ _ _⟩

end State

def Ended (tokens : List Token) : Prop := ∀ t ∈ tokens, t.kind = .finish

theorem State.run_finished {label : Nat} {tree : Expr} {ends : List Token} (h : Ended ends) :
    (State.finished tree).run label ends = .ok (.finished tree) := by
  induction ends generalizing label with
  | nil => rfl
  | cons t rest ih =>
    have ht : t.kind = .finish := h t (List.mem_cons_self ..)
    have hstep : (State.finished tree).step label t = .ok (.finished tree) := by
      simp [step, finish, ht, Except.map]
    rw [run_cons hstep, ih fun t' h' => h t' (List.mem_cons_of_mem _ h')]

/-- A phrase followed by any number of ends of input gives the phrase's tree. -/
theorem parse_phrase (p : Phrase .sum) {label : Nat} {tokens ends : List Token}
    (hword : Spells tokens p.word) (hends : Ended ends) :
    parse label (tokens ++ ends) = .ok (p.tree label) := by
  obtain ⟨s, hrun, inner, value, rfl, hinner, hfill⟩ :=
    State.run_phrase p [] label hword (by decide)
  have hcomplete : complete (inner ++ []) value = .ok (p.tree label) := by
    rw [complete_append hinner, hfill]
    rfl
  have hfinish : ∀ t, (State.holding (inner ++ []) value).finish t = .ok (p.tree label) := by
    intro t
    simp only [State.finish, hcomplete]
  rw [parse, State.start, State.run_append _ hrun]
  cases ends with
  | nil => exact hfinish _
  | cons t rest =>
    have ht : t.kind = .finish := hends t (List.mem_cons_self ..)
    have hstep : (State.holding (inner ++ []) value).step (label + tokens.length) t =
        .ok (.finished (p.tree label)) := by
      simp only [State.step, ht, if_true, hfinish, Except.map]
    rw [State.run_cons hstep,
      State.run_finished fun t' h' => hends t' (List.mem_cons_of_mem _ h')]
    rfl

end Parser

end Reckoner
