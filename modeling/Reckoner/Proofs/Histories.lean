import Reckoner.Proofs.Isolation

/-!
A desk after any commands. What a name is worth in a formula is told by the history alone:
it is the last value bound in this formula since it was compiled, or else what the
calculator had for the name just then, or else zero. Questions and refused commands leave
no trace, and a command on one formula leaves no trace in another, even of the same text,
nor in the calculator; what the calculator is told later reaches no formula.
-/

namespace Reckoner.Desk

/-- What a calculator that started with the bindings has for a name after the commands. -/
def known (initial : Bindings) (past : List Command) (name : String) : Float :=
  ((Bindings.last? (past.flatMap Command.told) name).or initial[name]?).getD 0.0

/-- What a name is worth in the formula under a key: bound since its compile, or known to
the calculator before. -/
def worth (initial : Bindings) (key : String) (earlier later : List Command) (name : String) :
    Float :=
  (Bindings.last? (later.flatMap (Command.bound key)) name).getD (known initial earlier name)

/-- How a desk answers about the formula of a text when its names are worth what the
environment gives: with the grammar's value, and otherwise by the text alone. -/
structure Answers (d : Desk) (key text : String) (env : String → Float) : Prop where
  value : ∀ p : Phrase .sum, p.ReadsText text →
    d.run (.evaluate key) = (d, [], .ok (.value (p.value env)))
  source : d.run (.source key) = (d, [], .ok (.text text))
  fixed : ∃ r written, Rooted.ofText 0 text = .ok r ∧ r.root.render = .ok written ∧
    d.run (.names key) = (d, [], .ok (.names r.root.names)) ∧
    d.run (.text key) = (d, [], .ok (.text written))

def Keeps (d : Desk) (key text : String) (env : String → Float) : Prop :=
  ∃ f, d.formulas[key]? = some f ∧ f.Holds d.heap.store text env

variable {d : Desk} {c : Command} {key text : String} {env : String → Float}

/-- A formula that is not compiled anew takes what a command binds in it, and only that. -/
theorem Keeps.run (h : d.Keeps key text env) (hsound : d.Sound) (hc : ¬c.Compiles key) :
    (d.run c).1.Keeps key text (fun n => (Bindings.last? (c.bound key) n).getD (env n)) := by
  obtain ⟨f, hf, hholds⟩ := h
  by_cases hkey : c.target? = some key
  · have heffect := hsound.effect_run c
    generalize d.run c = outcome at heffect ⊢
    cases heffect with
    | kept htold hbound =>
      rw [hbound key f hf]
      exact ⟨f, hf, hholds⟩
    | told htarget => simp [htarget] at hkey
    | compiled htext => exact absurd ⟨Option.some.inj hkey, htext⟩ hc
    | @bound _ k f' _ hf' _ htarget =>
      obtain rfl : k = key := Option.some.inj (htarget.symm.trans hkey)
      obtain rfl : f = f' := Option.some.inj (hf.symm.trans hf')
      have hbound := hholds.bindAll (Bindings.ofPairs (c.bound k))
      simp only [Bindings.getD_ofPairs] at hbound
      exact ⟨f, hf, hbound⟩
  · obtain ⟨hformulas, hstore⟩ := hsound.formula_run hkey
    rw [Command.bound_of_target?_ne hkey]
    exact ⟨f, hformulas.trans hf, hholds.frame (hstore f hf)⟩

/-- A text the grammar has a reading of is compiled with the calculator's values. -/
theorem Sound.keeps_compile (h : d.Sound) (key : String) (htext : Grammatical text) :
    (d.run (.compile key text)).1.Keeps key text d.calculator.env := by
  rcases d.calculator.compile_cases h.fresh text with
    ⟨-, f, heap, notes, hf, hholds, -⟩ | ⟨hnone, -⟩
  · refine ⟨f, ?_, ?_⟩
    · rw [run_compile_eq, hf, getElem?_put, if_pos rfl]
    · rw [run_compile_eq, hf]
      exact hholds
  · exact absurd htext hnone

theorem env_after (initial : Bindings) (past : List Command) :
    ((start initial).after past).calculator.env = known initial past := by
  funext name
  rw [Calculator.env, Std.TreeMap.getD_eq_getD_getElem?, (sound_start initial).calculator_after,
    Calculator.withVariables, Bindings.getElem?_update]
  rfl

theorem Keeps.after {commands : List Command} (h : d.Keeps key text env) (hsound : d.Sound)
    (hcommands : ∀ c ∈ commands, ¬c.Compiles key) :
    (d.after commands).Keeps key text
      (fun n => (Bindings.last? (commands.flatMap (Command.bound key)) n).getD (env n)) := by
  -- Every command makes a new environment out of the one before, so this is generalized.
  induction commands generalizing d env with
  | nil => exact h
  | cons c rest ih =>
    have hrest := ih (h.run hsound (hcommands c (List.mem_cons_self ..))) (hsound.run c)
      fun c hc => hcommands c (List.mem_cons_of_mem _ hc)
    have hlast : ∀ n, (Bindings.last? ((c :: rest).flatMap (Command.bound key)) n).getD (env n) =
        (Bindings.last? (rest.flatMap (Command.bound key)) n).getD
          ((Bindings.last? (c.bound key) n).getD (env n)) := by
      intro n
      rw [List.flatMap_cons, Bindings.last?_append, Option.getD_or]
    simp only [hlast]
    exact hrest

/-- After its compile, and any commands that compile nothing anew under its key, a formula is
kept with the names worth what the history tells. -/
theorem keeps_after (initial : Bindings) {earlier later : List Command} (htext : Grammatical text)
    (hlater : ∀ c ∈ later, ¬c.Compiles key) :
    ((start initial).after (earlier ++ .compile key text :: later)).Keeps key text
      (worth initial key earlier later) := by
  have hsound := (sound_start initial).after earlier
  have hcompiled := hsound.keeps_compile key htext
  rw [env_after] at hcompiled
  rw [after_append]
  exact hcompiled.after (hsound.run _) hlater

theorem Keeps.answers (h : d.Keeps key text env) : d.Answers key text env := by
  obtain ⟨f, hf, hholds⟩ := h
  obtain ⟨r, written, hr, hwritten, hnames, htext⟩ := hholds.fixed
  refine ⟨fun p hp => ?_, ?_, r, written, hr, hwritten, ?_, ?_⟩
  · rw [Desk.run, onFormula_of_some hf, hholds.evaluate hp]
    rfl
  · rw [Desk.run, onFormula_of_some hf, hholds.source_eq]
    rfl
  · rw [Desk.run, onFormula_of_some hf, hnames]
    rfl
  · rw [Desk.run, onFormula_of_some hf, htext]
    rfl

/-- Whatever has been done before: a formula answers by its text and by the values its names
got from binding it since its compile, from the calculator at its compile, or zero; a text
is calculated under what the calculator has now; a text without a reading is refused; and
what a command does is no more than to tell the calculator, or to change the formula under
one key. -/
theorem run_after (initial : Bindings) (past : List Command) :
    let d := (start initial).after past
    (∀ earlier key text later, past = earlier ++ .compile key text :: later → Grammatical text →
      (∀ c ∈ later, ¬c.Compiles key) → d.Answers key text (worth initial key earlier later)) ∧
    (∀ text (p : Phrase .sum), p.ReadsText text → ∃ notes,
      d.run (.calculate text) = (d, notes, .ok (.value (p.value (known initial past))))) ∧
    (∀ key text, ¬Grammatical text → ∃ error error',
      d.run (.calculate text) = (d, [], .error (.failure (.parse error))) ∧
      d.run (.compile key text) = (d, [], .error (.failure (.parse error')))) ∧
    ∀ c, (start initial).runAll (past ++ [c]) = (start initial).runAll past ++ [(d.run c).2] ∧
      (∀ refusal, (d.run c).2.2 = .error refusal → (d.run c).1 = d) ∧
      (c.told = [] → (d.run c).1.calculator = d.calculator) ∧
      ∀ key, c.target? ≠ some key → (d.run c).1.formulas[key]? = d.formulas[key]? ∧
        ∀ f, d.formulas[key]? = some f → ∀ l ∈ f.root.labels,
          (d.run c).1.heap.store.get l = d.heap.store.get l := by
  intro d
  have hsound : d.Sound := (sound_start initial).after past
  refine ⟨?_, ?_, ?_, ?_⟩
  · rintro earlier key text later rfl htext hlater
    exact (keeps_after initial htext hlater).answers
  · intro text p hp
    rw [← env_after initial past]
    exact hsound.run_calculate hp
  · intro key text h
    obtain ⟨error, herror⟩ := hsound.run_calculate_refused h
    obtain ⟨error', herror'⟩ := hsound.run_compile_refused key h
    exact ⟨error, error', herror, herror'⟩
  · intro c
    refine ⟨runAll_append _ past [c], fun _ => hsound.run_of_refused, ?_,
      fun _ => hsound.formula_run⟩
    intro htold
    rw [hsound.calculator_run, htold]
    rfl

/-- Two formulas of `x - y`, bound apart: neither sees what the other was bound to or what the
calculator is told later, and a text without a reading replaces neither. -/
theorem run_after_two_formulas :
    let past : List Command := [.compile "f" "x - y", .compile "g" "x - y", .bind "f" "y" 2.0,
      .bindAll "g" [("x", 7.0), ("y", 0.5)], .withVariable "x" 9.0, .compile "f" "x -"]
    let d := (start (Bindings.ofPairs [("x", 1.0)])).after past
    d.run (.evaluate "f") = (d, [], .ok (.value (-1.0))) ∧
    d.run (.evaluate "g") = (d, [], .ok (.value 6.5)) ∧
    ∃ notes, d.run (.calculate "x - y") = (d, notes, .ok (.value 9.0)) := by
  intro past d
  let p : Phrase .sum := .sum (.signed none (.factor (.argument (.name "x")))) .minus
    (.factor (.argument (.name "y")))
  let tokens : List Token := [⟨.name, "x", 0⟩, ⟨.minus, "-", 2⟩, ⟨.name, "y", 4⟩]
  have htokens : Lexer.tokenize "x - y" = .ok (tokens ++ [⟨.finish, "", 5⟩]) := rfl
  have hword : Spells tokens p.word := rfl
  have hends : Parser.Ended [⟨.finish, "", 5⟩] := by simp [Parser.Ended]
  have hp : p.ReadsText "x - y" := ⟨_, htokens, tokens, _, rfl, hword, hends⟩
  have hnone : ¬Grammatical "x -" := by
    have hread : Rooted.ofText 0 "x -" = .error (.missingValue ⟨.finish, "", 3⟩) := rfl
    simp [grammatical_iff 0, hread]
  obtain ⟨hformulas, hcalculate, -⟩ := run_after (Bindings.ofPairs [("x", 1.0)]) past
  refine ⟨?_, ?_, ?_⟩
  · have hlater : ∀ c ∈ past.drop 1, ¬c.Compiles "f" := by
      simp [past, Command.Compiles, hnone]
    have hanswers := hformulas [] "f" "x - y" (past.drop 1) rfl ⟨p, hp⟩ hlater
    have hvalue : p.value (worth (Bindings.ofPairs [("x", 1.0)]) "f" [] (past.drop 1)) = -1.0 := by
      decide +kernel
    rw [← hvalue]
    exact hanswers.value p hp
  · have hlater : ∀ c ∈ past.drop 2, ¬c.Compiles "g" := by
      simp [past, Command.Compiles]
    have hanswers := hformulas (past.take 1) "g" "x - y" (past.drop 2) rfl ⟨p, hp⟩ hlater
    have hvalue : p.value (worth (Bindings.ofPairs [("x", 1.0)]) "g" (past.take 1)
        (past.drop 2)) = 6.5 := by
      decide +kernel
    rw [← hvalue]
    exact hanswers.value p hp
  · have hvalue : p.value (known (Bindings.ofPairs [("x", 1.0)]) past) = 9.0 := by
      decide +kernel
    rw [← hvalue]
    exact hcalculate "x - y" p hp

end Reckoner.Desk
