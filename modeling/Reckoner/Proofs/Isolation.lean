import Reckoner.Desk
import Reckoner.Proofs.Formulas

/-!
Formulas side by side. All formulas of a desk stand in one heap, so a command on one of them
works on a store that holds the values of all. What keeps them apart is that the parser makes
new nodes only, in labels that were free: no node is in two formulas, and binding one of them
does not reach the others.
-/

namespace Reckoner.Desk

namespace Command

def told : Command → List (String × Float)
  | withVariable name value => [(name, value)]
  | withVariables pairs => pairs
  | _ => []

def target? : Command → Option String
  | compile key _ => some key
  | bind key _ _ => some key
  | bindAll key _ => some key
  | _ => none

def bound (key : String) : Command → List (String × Float)
  | bind k name value => if k = key then [(name, value)] else []
  | bindAll k pairs => if k = key then pairs else []
  | _ => []

def Compiles (key : String) : Command → Prop
  | compile k t => k = key ∧ Grammatical t
  | _ => False

theorem bound_of_target?_ne {key : String} {c : Command} (h : c.target? ≠ some key) :
    c.bound key = [] := by
  cases c with
  | bind k name value =>
    have hk : k ≠ key := fun hk => h (congrArg some hk)
    simp [bound, hk]
  | bindAll k pairs =>
    have hk : k ≠ key := fun hk => h (congrArg some hk)
    simp [bound, hk]
  | _ => rfl

end Command

def after (d : Desk) (commands : List Command) : Desk :=
  commands.foldl (fun d c => (d.run c).1) d

/-- Every formula is that of a text, and its nodes are its own: what is free has not been
used, and no node is in two formulas. -/
structure Sound (d : Desk) : Prop where
  fresh : d.heap.Fresh
  holds : ∀ (key : String) (f : Formula), d.formulas[key]? = some f →
    ∃ text env, f.Holds d.heap.store text env
  used : ∀ (key : String) (f : Formula), d.formulas[key]? = some f →
    ∀ l ∈ f.root.labels, l < d.heap.free
  apart : ∀ (key other : String) (f g : Formula), d.formulas[key]? = some f →
    d.formulas[other]? = some g → key ≠ other → f.root.labels.Disjoint g.root.labels

/-- What a command can do to a desk: leave it as it is, tell its calculator something, put
a new formula under a key, or bind names in one that is there. -/
inductive Effect (d : Desk) : Command → Outcome → Prop
  | kept {c notes answer} (htold : c.told = [])
      (hbound : ∀ key f, d.formulas[key]? = some f → c.bound key = []) :
      Effect d c (d, notes, answer)
  | told {c} (htarget : c.target? = none) :
      Effect d c ({ d with calculator := d.calculator.withVariables c.told }, [], .ok .done)
  | compiled {key text f heap notes} (htext : Grammatical text)
      (hf : f.Holds heap.store text d.calculator.env) (hmade : d.heap.Makes f.root heap) :
      Effect d (.compile key text) (d.put key f heap, notes, .ok (.names f.names))
  | bound {c key f notes} (hf : d.formulas[key]? = some f) (htold : c.told = [])
      (htarget : c.target? = some key) :
      Effect d c (d.withStore (f.bindAll (Bindings.ofPairs (c.bound key)) d.heap.store), notes,
        .ok .done)

variable {d : Desk} {c : Command} {key text : String} {env : String → Float}

theorem onFormula_of_some {f : Formula} (h : d.formulas[key]? = some f)
    (act : Formula → Outcome) : d.onFormula key act = act f := by
  rw [onFormula, h]

theorem onFormula_of_none (h : d.formulas[key]? = none) (act : Formula → Outcome) :
    d.onFormula key act = d.refused (.noFormula key) := by
  rw [onFormula, h]

/-- A question changes nothing, whatever the answer. -/
theorem effect_question (htold : c.told = []) (hbound : ∀ key, c.bound key = [])
    {act : Formula → Outcome} (hact : ∀ f, ∃ notes answer, act f = (d, notes, answer)) :
    Effect d c (d.onFormula key act) := by
  cases hf : d.formulas[key]? with
  | none =>
    rw [onFormula_of_none hf]
    exact .kept htold fun k _ _ => hbound k
  | some f =>
    obtain ⟨notes, answer, heq⟩ := hact f
    rw [onFormula_of_some hf, heq]
    exact .kept htold fun k _ _ => hbound k

theorem exists_asked (d : Desk) (outcome : Except Fault Answer) :
    ∃ notes answer, d.asked outcome = (d, notes, answer) := by
  cases outcome with
  | ok a => exact ⟨[], .ok a, rfl⟩
  | error fault => exact ⟨[], .error (.failure (.fault fault)), rfl⟩

/-- Binding in a formula, and nothing if there is none. -/
theorem effect_binding (htold : c.told = []) (htarget : c.target? = some key)
    (notes : Formula → List Note) :
    Effect d c (d.onFormula key fun f =>
      (d.withStore (f.bindAll (Bindings.ofPairs (c.bound key)) d.heap.store), notes f,
        .ok .done)) := by
  cases hf : d.formulas[key]? with
  | none =>
    rw [onFormula_of_none hf]
    refine .kept htold fun k f hk => Command.bound_of_target?_ne fun hkey => ?_
    obtain rfl : key = k := Option.some.inj (htarget.symm.trans hkey)
    simp [hf] at hk
  | some f =>
    rw [onFormula_of_some hf]
    exact .bound hf htold htarget

theorem run_calculate_eq (d : Desk) (text : String) :
    d.run (.calculate text) =
      match d.calculator.calculate d.heap text with
      | .ok (value, notes) => (d, notes, .ok (.value value))
      | .error failure => d.refused (.failure failure) :=
  rfl

theorem run_compile_eq (d : Desk) (key text : String) :
    d.run (.compile key text) =
      match d.calculator.compile d.heap text with
      | .ok (f, heap, notes) => (d.put key f heap, notes, .ok (.names f.names))
      | .error e => d.refused (.failure (.parse e)) :=
  rfl

theorem Sound.effect_run (h : d.Sound) (c : Command) : Effect d c (d.run c) := by
  cases c with
  | withVariable name value => exact .told rfl
  | withVariables pairs => exact .told rfl
  | bindings => exact .kept rfl fun _ _ _ => rfl
  | calculate text =>
    cases hvalue : d.calculator.calculate d.heap text with
    | ok result =>
      rw [run_calculate_eq, hvalue]
      exact .kept rfl fun _ _ _ => rfl
    | error failure =>
      rw [run_calculate_eq, hvalue]
      exact .kept rfl fun _ _ _ => rfl
  | compile key text =>
    rcases d.calculator.compile_cases h.fresh text with
      ⟨htext, f, heap, notes, hf, hholds, hmade⟩ | ⟨-, error, herror⟩
    · rw [run_compile_eq, hf]
      exact .compiled htext hholds hmade
    · rw [run_compile_eq, herror]
      exact .kept rfl fun _ _ _ => rfl
  | bind key name value =>
    have hbound : (Command.bind key name value).bound key = [(name, value)] := if_pos rfl
    have hrun := effect_binding (d := d) (c := .bind key name value) rfl rfl
      fun f => (f.bind name value d.heap.store).2
    rw [hbound] at hrun
    exact hrun
  | bindAll key pairs =>
    have hbound : (Command.bindAll key pairs).bound key = pairs := if_pos rfl
    have hrun := effect_binding (d := d) (c := .bindAll key pairs) rfl rfl fun _ => []
    rw [hbound] at hrun
    exact hrun
  | evaluate key =>
    exact effect_question rfl (fun _ => rfl) fun f => exists_asked d _
  | text key =>
    exact effect_question rfl (fun _ => rfl) fun f => exists_asked d _
  | describe key | source key | names key | list key =>
    exact effect_question rfl (fun _ => rfl) fun f => ⟨_, _, rfl⟩

theorem getElem?_put (d : Desk) (key other : String) (f : Formula) (heap : Heap) :
    (d.put key f heap).formulas[other]? =
      if key = other then some f else d.formulas[other]? := by
  simp [put, Std.TreeMap.getElem?_insert]

theorem sound_start (initial : Bindings) : (start initial).Sound where
  fresh := Heap.fresh_empty
  holds := by simp [start]
  used := by simp [start]
  apart := by simp [start]

/-- A formula in nodes that were free is apart from those that were there. -/
theorem Sound.put (h : d.Sound) {f : Formula} {heap : Heap} (hf : f.Holds heap.store text env)
    (hmade : d.heap.Makes f.root heap) (key : String) : (d.put key f heap).Sound := by
  have hnew : ∀ (other : String) (g : Formula), d.formulas[other]? = some g →
      f.root.labels.Disjoint g.root.labels := fun other g hg l hl hl' =>
    Nat.not_lt_of_le (hmade.within.low_le l hl) (h.used other g hg l hl')
  refine ⟨hmade.fresh, fun other g hg => ?_, fun other g hg => ?_,
    fun k other g g' hg hg' hne => ?_⟩
  · rw [getElem?_put] at hg
    split at hg
    · obtain rfl := Option.some.inj hg
      exact ⟨text, env, hf⟩
    · obtain ⟨text', env', hholds⟩ := h.holds other g hg
      exact ⟨text', env', hholds.frame fun l hl => hmade.kept l (h.used other g hg l hl)⟩
  · rw [getElem?_put] at hg
    split at hg
    · obtain rfl := Option.some.inj hg
      exact hmade.within.lt_high
    · exact fun l hl => Nat.lt_trans (h.used other g hg l hl) hmade.within.low_lt_high
  · rw [getElem?_put] at hg hg'
    by_cases hk : key = k
    · subst hk
      rw [if_pos rfl] at hg
      rw [if_neg hne] at hg'
      obtain rfl := Option.some.inj hg
      exact hnew other g' hg'
    · rw [if_neg hk] at hg
      by_cases ho : key = other
      · subst ho
        rw [if_pos rfl] at hg'
        obtain rfl := Option.some.inj hg'
        exact (hnew k g hg).symm
      · rw [if_neg ho] at hg'
        exact h.apart k other g g' hg hg' hne

/-- Binding in one formula changes nothing but at its own nodes. -/
theorem Sound.get_bindAll (h : d.Sound) {f : Formula} (hf : d.formulas[key]? = some f)
    (bindings : Bindings) {l : Label} (hl : l ∉ f.root.labels) :
    (f.bindAll bindings d.heap.store).get l = d.heap.store.get l := by
  obtain ⟨text, env, hholds⟩ := h.holds key f hf
  exact Expr.get_bindAll_other hholds.consistent bindings d.heap.store hl

theorem Sound.bindAll (h : d.Sound) {f : Formula} (hf : d.formulas[key]? = some f)
    (bindings : Bindings) : (d.withStore (f.bindAll bindings d.heap.store)).Sound where
  fresh := by
    intro l hl
    have hnew : l ∉ f.root.labels := fun hmem => Nat.not_lt_of_le hl (h.used key f hf l hmem)
    exact (h.get_bindAll hf bindings hnew).trans (h.fresh l hl)
  holds := by
    intro other g hg
    obtain ⟨text, env, hholds⟩ := h.holds other g hg
    by_cases hkey : key = other
    · obtain rfl : f = g := Option.some.inj (hf.symm.trans (hkey ▸ hg))
      exact ⟨text, _, hholds.bindAll bindings⟩
    · have hapart : ∀ l ∈ g.root.labels, l ∉ f.root.labels :=
        fun l hl hmem => h.apart key other f g hf hg hkey hmem hl
      exact ⟨text, env, hholds.frame fun l hl => h.get_bindAll hf bindings (hapart l hl)⟩
  used := h.used
  apart := h.apart

theorem Sound.run (h : d.Sound) (c : Command) : (d.run c).1.Sound := by
  have heffect := h.effect_run c
  generalize d.run c = outcome at heffect ⊢
  cases heffect with
  | kept => exact h
  | told => exact ⟨h.fresh, h.holds, h.used, h.apart⟩
  | compiled _ hf hmade => exact h.put hf hmade _
  | bound hf => exact h.bindAll hf _

theorem Sound.after (h : d.Sound) (commands : List Command) : (d.after commands).Sound := by
  induction commands generalizing d with
  | nil => exact h
  | cons c rest ih => exact ih (h.run c)

/-- A refused command leaves everything as it was. -/
theorem Sound.run_of_refused (h : d.Sound) {refusal : Refusal}
    (hrefused : (d.run c).2.2 = .error refusal) : (d.run c).1 = d := by
  have heffect := h.effect_run c
  generalize d.run c = outcome at heffect hrefused ⊢
  cases heffect with
  | kept => rfl
  | told | compiled | bound => cases hrefused

/-- The calculator takes what it is told, and only that. -/
theorem Sound.calculator_run (h : d.Sound) (c : Command) :
    (d.run c).1.calculator = d.calculator.withVariables c.told := by
  have heffect := h.effect_run c
  generalize d.run c = outcome at heffect ⊢
  cases heffect with
  | kept htold => rw [htold]; rfl
  | told => rfl
  | compiled => rfl
  | bound _ htold => rw [htold]; rfl

/-- Commands on other formulas and on the calculator do not change a formula. -/
theorem Sound.formula_run (h : d.Sound) (hc : c.target? ≠ some key) :
    (d.run c).1.formulas[key]? = d.formulas[key]? ∧
      ∀ f, d.formulas[key]? = some f → ∀ l ∈ f.root.labels,
        (d.run c).1.heap.store.get l = d.heap.store.get l := by
  have heffect := h.effect_run c
  generalize d.run c = outcome at heffect ⊢
  cases heffect with
  | kept => exact ⟨rfl, fun _ _ _ _ => rfl⟩
  | told => exact ⟨rfl, fun _ _ _ _ => rfl⟩
  | @compiled k _ _ _ _ _ _ hmade =>
    have hk : k ≠ key := fun hk => hc (congrArg some hk)
    rw [getElem?_put, if_neg hk]
    exact ⟨rfl, fun f hf l hl => hmade.kept l (h.used key f hf l hl)⟩
  | @bound _ k f _ hf _ htarget =>
    have hk : k ≠ key := fun hk => hc (htarget.trans (congrArg some hk))
    have hapart : ∀ g, d.formulas[key]? = some g → ∀ l ∈ g.root.labels, l ∉ f.root.labels :=
      fun g hg l hl hmem => h.apart k key f g hf hg hk hmem hl
    exact ⟨rfl, fun g hg l hl => h.get_bindAll hf _ (hapart g hg l hl)⟩

theorem Sound.calculator_after (h : d.Sound) (commands : List Command) :
    (d.after commands).calculator =
      d.calculator.withVariables (commands.flatMap Command.told) := by
  induction commands generalizing d with
  | nil => rfl
  | cons c rest ih =>
    have hrest := ih (h.run c)
    rw [h.calculator_run, Calculator.withVariables, Calculator.withVariables,
      ← Bindings.update_append] at hrest
    exact hrest

theorem after_append (d : Desk) (first second : List Command) :
    d.after (first ++ second) = (d.after first).after second :=
  List.foldl_append

theorem runAll_append (d : Desk) (first second : List Command) :
    d.runAll (first ++ second) = d.runAll first ++ (d.after first).runAll second := by
  induction first generalizing d with
  | nil => rfl
  | cons c rest ih => exact congrArg _ (ih (d.run c).1)

theorem Sound.run_calculate (h : d.Sound) {p : Phrase .sum} (hp : p.ReadsText text) :
    ∃ notes, d.run (.calculate text) = (d, notes, .ok (.value (p.value d.calculator.env))) := by
  obtain ⟨notes, hvalue⟩ := d.calculator.calculate_of_reads h.fresh hp
  exact ⟨notes, by rw [run_calculate_eq, hvalue]⟩

theorem Sound.run_calculate_refused (h : d.Sound) (htext : ¬Grammatical text) :
    ∃ error, d.run (.calculate text) = (d, [], .error (.failure (.parse error))) := by
  obtain ⟨error, herror⟩ := d.calculator.calculate_of_not_grammatical h.fresh htext
  exact ⟨error, by rw [run_calculate_eq, herror]; rfl⟩

theorem Sound.run_compile_refused (h : d.Sound) (key : String) (htext : ¬Grammatical text) :
    ∃ error, d.run (.compile key text) = (d, [], .error (.failure (.parse error))) := by
  rcases d.calculator.compile_cases h.fresh text with ⟨hsome, -⟩ | ⟨-, error, herror⟩
  · exact absurd hsome htext
  · exact ⟨error, by rw [run_compile_eq, herror]; rfl⟩

end Reckoner.Desk
