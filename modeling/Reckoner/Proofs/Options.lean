import Mathlib.Data.List.Perm.Basic
import Reckoner.Proofs.BindingRuns
import Reckoner.Proofs.CommandLine

/-!
Options before a double dash and an expression behind it. The options are taken one by one
and each has its own effect on the settings, so it only counts which flags there are and
what each name was given last. What is printed depends on no more than that. A binding
that is not understood stops the reading, with nothing printed.
-/

namespace Reckoner

namespace Text

variable {blank : Char → Bool} {text : List Char}

theorem trim_eq_nil_iff : trim blank text = [] ↔ ∀ c ∈ text, blank c = true := by
  rw [trim, List.reverse_eq_nil_iff, List.dropWhile_eq_nil_iff]
  cases hkept : text.dropWhile blank with
  | nil => simpa using List.dropWhile_eq_nil_iff.mp hkept
  | cons c kept =>
    have hc : blank c ≠ true := by
      have hfirst := List.head?_dropWhile_not blank text
      rw [hkept] at hfirst
      exact Bool.eq_false_iff.mp hfirst
    have hmem : c ∈ text := (List.dropWhile_sublist blank).subset (by simp [hkept])
    exact iff_of_false (fun h => hc (h c (by simp))) fun h => hc (h c hmem)

end Text

section Alike

variable {bindings bindings' : Bindings}

theorem Expr.bindAll_congr (h : ∀ n : String, bindings[n]? = bindings'[n]?) (root : Expr)
    (store : Store) : root.bindAll bindings store = root.bindAll bindings' store := by
  have hvisit : Binder.visit bindings = Binder.visit bindings' := by
    funext p e
    have hvalue : Binder.valueOf? bindings e = Binder.valueOf? bindings' e := by
      cases hn : e.name? with
      | none => simp [Binder.valueOf?, hn]
      | some n => simp [Binder.valueOf?, hn, h]
    simp only [Binder.visit, hvalue]
  simp only [Binder.bindAll_eq_apply, Binder.apply, Binder.start, hvisit]

/-- Only what the names are worth counts, not how they are bound. -/
theorem Calculator.compile_congr (h : ∀ n : String, bindings[n]? = bindings'[n]?) (heap : Heap)
    (text : String) :
    Calculator.compile ⟨bindings⟩ heap text = Calculator.compile ⟨bindings'⟩ heap text := by
  have hcontains : ∀ n : String, bindings.contains n = bindings'.contains n := by
    intro n
    rw [Std.TreeMap.contains_eq_isSome_getElem?, Std.TreeMap.contains_eq_isSome_getElem?, h]
  simp only [compile, Formula.bindAll, Expr.bindAll_congr h, hcontains]

end Alike

namespace CommandLine

/-- The text gives a name a value: before the first equals sign there is a name, perhaps with
blanks around it, and after the sign there is a number. -/
def Gives (text : String) (pair : String × Float) : Prop :=
  ∃ before after, text.toList = before ++ '=' :: after ∧ '=' ∉ before ∧
    (∃ c ∈ before, Text.isBlank c = false) ∧
    pair.1 = String.ofList (Text.trim Text.isBlank before) ∧
    Reading.number? (String.ofList after) = some pair.2

theorem head_append {before : List Char} (h : '=' ∉ before) (after : List Char) :
    head (before ++ '=' :: after) = before ∧ value? (before ++ '=' :: after) = some after := by
  have hbefore : ∀ c ∈ before, (c != '=') = true := by
    intro c hc
    have hne : c ≠ '=' := fun heq => h (heq ▸ hc)
    simpa using hne
  constructor
  · rw [head, List.takeWhile_append_of_pos hbefore]
    simp
  · rw [value?, List.dropWhile_append_of_pos hbefore]
    simp

/-- An equals sign parts the text where it first stands. -/
theorem eq_of_value? {text after : List Char} (h : value? text = some after) :
    text = head text ++ '=' :: after ∧ '=' ∉ head text := by
  rw [value?] at h
  cases hrest : text.dropWhile (· != '=') with
  | nil => simp [hrest] at h
  | cons c rest =>
    have hfirst := List.head?_dropWhile_not (· != '=') text
    rw [hrest] at hfirst h
    obtain rfl : c = '=' := by simpa using hfirst
    obtain rfl : rest = after := by simpa using h
    refine ⟨?_, fun hmem => ?_⟩
    · rw [← hrest, head, List.takeWhile_append_dropWhile]
    · simpa using List.mem_takeWhile_imp hmem

theorem binding_eq_ok_iff {text : String} {pair : String × Float} :
    binding text.toList = .ok pair ↔ Gives text pair := by
  have hempty : ∀ name : List Char,
      String.ofList (Text.trim Text.isBlank name) = "" ↔ ∀ c ∈ name, Text.isBlank c = true := by
    intro name
    rw [← Text.trim_eq_nil_iff]
    simp
  constructor
  · intro h
    cases hvalue : value? text.toList with
    | none => simp [binding, hvalue] at h
    | some after =>
      obtain ⟨htext, hbefore⟩ := eq_of_value? hvalue
      by_cases hname : String.ofList (Text.trim Text.isBlank (head text.toList)) = ""
      · simp [binding, hvalue, hname] at h
      · cases hnumber : Reading.number? (String.ofList after) with
        | none => simp [binding, hvalue, hname, hnumber] at h
        | some v =>
          simp only [binding, hvalue, hname, hnumber, if_false] at h
          obtain rfl := Except.ok.inj h
          have hletter : ∃ c ∈ head text.toList, Text.isBlank c = false := by
            simpa [hempty] using hname
          exact ⟨_, after, htext, hbefore, hletter, rfl, hnumber⟩
  · intro h
    obtain ⟨before, after, htext, hbefore, hletter, hname, hnumber⟩ := h
    obtain ⟨hhead, hvalue⟩ := head_append hbefore after
    have hne : pair.1 ≠ "" := by
      simpa [hname, hempty] using hletter
    simp only [binding, htext, hhead, hvalue, hnumber, ← hname, hne, if_false]

theorem rightUnique_gives : Relator.RightUnique Gives := by
  intro text pair pair' h h'
  rw [← binding_eq_ok_iff] at h h'
  exact Except.ok.inj (h.symm.trans h')

inductive OptionArgument
  | noConstants
  | render
  | json
  | shortVerbose
  | verbose
  | var (text : String)
  deriving DecidableEq

namespace OptionArgument

def argument : OptionArgument → String
  | noConstants => "--no-constants"
  | render => "--render"
  | json => "--json"
  | shortVerbose => "-v"
  | verbose => "--verbose"
  | var text => "--var=" ++ text

def shape : OptionArgument → Shape
  | noConstants => .long .noConstants none
  | render => .long .render none
  | json => .long .json none
  | shortVerbose => .short .verbose none
  | verbose => .long .verbose none
  | var text => .long .var (some text.toList)

def apply (s : Settings) : OptionArgument → Except Stop Settings
  | noConstants => .ok { s with constants := false }
  | render => .ok { s with render := true }
  | json => .ok { s with json := true }
  | shortVerbose => .ok { s with verbose := true }
  | verbose => .ok { s with verbose := true }
  | var text => s.bind text.toList

theorem argument_ne (o : OptionArgument) : o.argument ≠ "--" := by
  cases o with
  | var text =>
    intro h
    have hlist := congrArg String.toList h
    simp [argument] at hlist
  | noConstants | render | json | shortVerbose | verbose => decide

theorem shape_argument (o : OptionArgument) : Shape.of o.argument = .ok o.shape := by
  cases o with
  | var text =>
    have htext : (argument (var text)).toList = "--var".toList ++ '=' :: text.toList := by
      simp [argument]
    have hswitch : Switch.ofLong? "--var".toList = some .var := by decide
    have hname : '=' ∉ "--var".toList := by decide
    obtain ⟨hhead, hvalue⟩ := head_append hname text.toList
    rw [Shape.of, htext]
    change Shape.ofLong ("--var".toList ++ '=' :: text.toList) = _
    simp only [Shape.ofLong, hhead, hswitch, hvalue, shape]
  | noConstants | render | json | shortVerbose | verbose => decide

def texts (options : List OptionArgument) : List String :=
  options.filterMap fun
    | var text => some text
    | _ => none

end OptionArgument

open OptionArgument

variable {options : List OptionArgument} {expression : String}

theorem shapes_options (options : List OptionArgument) (rest : List String) :
    shapes (options.map argument ++ "--" :: rest) =
      .ok (options.map fun o => (o.argument, o.shape), some rest) := by
  induction options with
  | nil => rfl
  | cons o options ih =>
    rw [List.map_cons, List.cons_append, shapes, if_neg o.argument_ne, o.shape_argument, ih]
    rfl

def reading (s : Settings) : Progress := ⟨none, false, [], s⟩

theorem take_cons (s : Settings) (o : OptionArgument) (rest : List (String × Shape)) :
    (reading s).take ((o.argument, o.shape) :: rest) =
      match o.apply s with
      | .ok next => (reading next).take rest
      | .error stop => .error stop := by
  cases o <;> rfl

structure Configured (options : List OptionArgument) (pairs : List (String × Float))
    (s after : Settings) : Prop where
  constants : after.constants = true ↔ s.constants = true ∧ .noConstants ∉ options
  render : after.render = true ↔ s.render = true ∨ .render ∈ options
  json : after.json = true ↔ s.json = true ∨ .json ∈ options
  bindings : after.bindings = s.bindings ++ pairs
  blank : after.blank = s.blank

theorem bind_of_gives {text : String} {pair : String × Float} (h : Gives text pair)
    (s : Settings) : s.bind text.toList = .ok { s with bindings := s.bindings ++ [pair] } := by
  have hdash : text.toList ≠ ['-', '-'] := by
    intro heq
    obtain ⟨before, after, htext, -⟩ := h
    have hmem : '=' ∈ ['-', '-'] := heq ▸ htext ▸ by simp
    simp at hmem
  simp only [Settings.bind, hdash, if_false, binding_eq_ok_iff.mpr h]

theorem exists_take {pairs : List (String × Float)}
    (h : List.Forall₂ Gives (texts options) pairs) (s : Settings) :
    ∃ after, (reading s).take (options.map fun o => (o.argument, o.shape)) = .ok (reading after) ∧
      Configured options pairs s after := by
  induction options generalizing pairs s with
  | nil =>
    cases h
    exact ⟨s, rfl, by simp, by simp, by simp, by simp, rfl⟩
  | cons o options ih =>
    rw [List.map_cons, take_cons]
    cases o with
    | var text =>
      cases h with
      | @cons _ pair _ pairs hgives hrest =>
        obtain ⟨after, htake, hafter⟩ := ih hrest { s with bindings := s.bindings ++ [pair] }
        refine ⟨after, ?_, ?_⟩
        · rw [OptionArgument.apply, bind_of_gives hgives]
          exact htake
        · obtain ⟨hconstants, hrender, hjson, hbindings, hblank⟩ := hafter
          exact ⟨by simpa using hconstants, by simpa using hrender, by simpa using hjson,
            by simpa using hbindings, hblank⟩
    | noConstants | render | json | shortVerbose | verbose =>
      obtain ⟨after, htake, hconstants, hrender, hjson, hbindings, hblank⟩ := ih h _
      exact ⟨after, htake, by simpa using hconstants, by simpa using hrender,
        by simpa using hjson, hbindings, hblank⟩

theorem bind_cases (text : String) (s : Settings) :
    ((text = "--" ∨ ∃ pair, Gives text pair) ∧ ∃ next, s.bind text.toList = .ok next) ∨
      ∃ e, s.bind text.toList = .error (.usage e) := by
  by_cases hdash : text.toList = ['-', '-']
  · have htext : text = "--" := String.toList_inj.mp hdash
    exact .inl ⟨.inl htext, _, if_pos hdash⟩
  · cases hbinding : binding text.toList with
    | ok pair =>
      have hgives := binding_eq_ok_iff.mp hbinding
      exact .inl ⟨.inr ⟨pair, hgives⟩, _, bind_of_gives hgives s⟩
    | error e => exact .inr ⟨e, by simp only [Settings.bind, hdash, if_false, hbinding]⟩

/-- A binding that is not understood ends the reading, unless another one has before. -/
theorem exists_usage
    (h : ∃ text ∈ texts options, text ≠ "--" ∧ ∀ pair, ¬Gives text pair) (s : Settings) :
    ∃ e, (reading s).take (options.map fun o => (o.argument, o.shape)) = .error (.usage e) := by
  induction options generalizing s with
  | nil => simp [texts] at h
  | cons o options ih =>
    obtain ⟨text, hmem, hdash, hnone⟩ := h
    rw [List.map_cons, take_cons]
    cases o with
    | var first =>
      rcases bind_cases first s with ⟨hfirst, next, hnext⟩ | ⟨e, he⟩
      · have hne : text ≠ first := by
          rintro rfl
          rcases hfirst with heq | ⟨pair, hgives⟩
          · exact hdash heq
          · exact hnone pair hgives
        have hrest : text ∈ texts options := (List.mem_cons.mp hmem).resolve_left hne
        rw [OptionArgument.apply, hnext]
        exact ih ⟨text, hrest, hdash, hnone⟩ next
      · exact ⟨e, by rw [OptionArgument.apply, he]⟩
    | noConstants | render | json | shortVerbose | verbose => exact ih ⟨text, hmem, hdash, hnone⟩ _

theorem run_of_take {s : Settings} (hblank : s.blank = none)
    (h : Progress.start.take (options.map fun o => (o.argument, o.shape)) = .ok (reading s)) :
    run (options.map argument ++ ["--", expression]) = evaluate expression s := by
  have hrequest : request (options.map argument ++ ["--", expression]) = .ok (expression, s) := by
    rw [request, shapes_options]
    simp only [h]
    simp [Progress.takeRest, reading, Progress.finish, hblank]
  rw [run, hrequest]

theorem run_of_usage {e : UsageError}
    (h : Progress.start.take (options.map fun o => (o.argument, o.shape)) = .error (.usage e)) :
    ∃ output, run (options.map argument ++ ["--", expression]) = .ok output ∧
      output.status = 2 ∧ output.stdout = "" := by
  have hrequest : request (options.map argument ++ ["--", expression]) = .error (.usage e) := by
    rw [request, shapes_options]
    simp only [h]
  rw [run, hrequest]
  exact ⟨_, rfl, rfl, rfl⟩

def Output.shown (output : Output) : UInt32 × String := (output.status, output.stdout)

theorem shown_evaluate_congr {s s' : Settings} (hconstants : s.constants = s'.constants)
    (hrender : s.render = s'.render) (hjson : s.json = s'.json)
    (hbindings : ∀ n, Bindings.last? s.bindings n = Bindings.last? s'.bindings n)
    (expression : String) :
    (evaluate expression s).map Output.shown = (evaluate expression s').map Output.shown := by
  have hvalues : ∀ n : String, (calculator s).bindings[n]? = (calculator s').bindings[n]? := by
    intro n
    simp only [calculator, Calculator.withVariables, Bindings.getElem?_update, hbindings,
      hconstants]
  have hcompile : (calculator s).compile Heap.empty expression =
      (calculator s').compile Heap.empty expression :=
    Calculator.compile_congr hvalues Heap.empty expression
  have hprinted : ∀ f text value, printed s f text value = printed s' f text value := by
    intro f text value
    simp only [printed, payload, hjson, hrender, Std.TreeMap.getD_eq_getD_getElem?, hvalues]
  rw [evaluate, evaluate, hcompile]
  cases (calculator s').compile Heap.empty expression with
  | error e => simp only [rejected, hjson]
  | ok compiled =>
    obtain ⟨f, heap, notes⟩ := compiled
    cases hanswer : answer f heap.store with
    | error fault => simp only [hanswer, Except.map]
    | ok answered =>
      obtain ⟨text, value⟩ := answered
      simp only [hanswer, hprinted, Except.map, Output.shown]

def command (options : List OptionArgument) (expression : String) : List String :=
  options.map argument ++ ["--", expression]

/-- Settings with the flags among the options, in which the names are last given what the
pairs give them last. -/
structure Asks (options : List OptionArgument) (pairs : List (String × Float)) (s : Settings) :
    Prop where
  constants : s.constants = true ↔ .noConstants ∉ options
  render : s.render = true ↔ .render ∈ options
  json : s.json = true ↔ .json ∈ options
  bindings : ∀ n, Bindings.last? s.bindings n = Bindings.last? pairs n

def SameFlags (options options' : List OptionArgument) : Prop :=
  ∀ flag ∈ [noConstants, render, json], flag ∈ options ↔ flag ∈ options'

theorem exists_pairs {texts : List String} (h : ∀ text ∈ texts, ∃ pair, Gives text pair) :
    ∃ pairs, List.Forall₂ Gives texts pairs := by
  induction texts with
  | nil => exact ⟨[], .nil⟩
  | cons text texts ih =>
    obtain ⟨⟨pair, hpair⟩, hrest⟩ := List.forall_mem_cons.mp h
    obtain ⟨pairs, hpairs⟩ := ih hrest
    exact ⟨pair :: pairs, .cons hpair hpairs⟩

theorem last?_perm {pairs pairs' : List (String × Float)} (h : pairs'.Perm pairs)
    (hnodup : (pairs.map Prod.fst).Nodup) (name : String) :
    Bindings.last? pairs' name = Bindings.last? pairs name := by
  have hnodup' : (pairs'.map Prod.fst).Nodup := (h.map Prod.fst).nodup_iff.mpr hnodup
  ext value
  rw [Bindings.last?_eq_some_iff hnodup', Bindings.last?_eq_some_iff hnodup, h.mem_iff]

/-- Well formed options with an expression behind them are the settings they ask for. -/
theorem run_command {pairs : List (String × Float)}
    (h : List.Forall₂ Gives (texts options) pairs) {s : Settings} (hs : Asks options pairs s)
    (expression : String) :
    (run (command options expression)).map Output.shown =
      (evaluate expression s).map Output.shown := by
  obtain ⟨after, htake, hafter⟩ := exists_take h Settings.default
  have hrun : run (command options expression) = evaluate expression after :=
    run_of_take hafter.blank htake
  have hconstants : after.constants = s.constants := by
    rw [Bool.eq_iff_iff, hafter.constants, hs.constants]
    simp [Settings.default]
  have hrender : after.render = s.render := by
    rw [Bool.eq_iff_iff, hafter.render, hs.render]
    simp [Settings.default]
  have hjson : after.json = s.json := by
    rw [Bool.eq_iff_iff, hafter.json, hs.json]
    simp [Settings.default]
  rw [hrun]
  refine shown_evaluate_congr hconstants hrender hjson (fun n => ?_) expression
  rw [hafter.bindings, hs.bindings]
  rfl

theorem exists_asks (options : List OptionArgument) (pairs : List (String × Float)) :
    ∃ s, Asks options pairs s :=
  ⟨⟨pairs, none, decide (noConstants ∉ options), decide (render ∈ options),
    decide (json ∈ options), false⟩, by simp, by simp, by simp, fun _ => rfl⟩

/-- Settings are also what other options ask for that have the same flags and give the names
the same values last. -/
theorem Asks.of_same {options' : List OptionArgument} {pairs pairs' : List (String × Float)}
    {s : Settings} (h : Asks options pairs s) (hflags : SameFlags options options')
    (hlast : ∀ n, Bindings.last? pairs' n = Bindings.last? pairs n) : Asks options' pairs' s where
  constants := h.constants.trans (not_congr (hflags .noConstants (by simp)))
  render := h.render.trans (hflags .render (by simp))
  json := h.json.trans (hflags .json (by simp))
  bindings n := (h.bindings n).trans (hlast n).symm

/-- Options and an expression behind a double dash, whatever it looks like. If every binding is
understood, what is returned and printed is what comes of the settings that the options ask
for; so it makes no difference in which order and how often the flags stand, nor which of two
names is bound first. If some binding is not understood, nothing is printed and the status is
two; only a double dash is not looked at, as it leaves the binding blank. -/
theorem run_options (options : List OptionArgument) (expression : String) :
    ((∀ text ∈ texts options, ∃ pair, Gives text pair) →
      ∃ pairs output, List.Forall₂ Gives (texts options) pairs ∧
        run (command options expression) = .ok output ∧
        (∀ s, Asks options pairs s →
          (evaluate expression s).map Output.shown = .ok output.shown) ∧
        (∀ options' pairs', SameFlags options options' →
          List.Forall₂ Gives (texts options') pairs' →
          (∀ n, Bindings.last? pairs' n = Bindings.last? pairs n) →
          (run (command options' expression)).map Output.shown = .ok output.shown) ∧
        ∀ options', SameFlags options options' → (texts options').Perm (texts options) →
          (pairs.map Prod.fst).Nodup →
          (run (command options' expression)).map Output.shown = .ok output.shown) ∧
    ((∃ text ∈ texts options, text ≠ "--" ∧ ∀ pair, ¬Gives text pair) →
      ∃ output, run (command options expression) = .ok output ∧
        output.status = 2 ∧ output.stdout = "") := by
  constructor
  · intro h
    obtain ⟨pairs, hpairs⟩ := exists_pairs h
    obtain ⟨after, htake, hafter⟩ := exists_take hpairs Settings.default
    obtain ⟨output, hevaluate, -⟩ := evaluate_answers_or_refuses expression after
    have hrun : run (command options expression) = .ok output :=
      (run_of_take hafter.blank htake).trans hevaluate
    have hshown : (run (command options expression)).map Output.shown = .ok output.shown := by
      rw [hrun]
      rfl
    have hsame : ∀ options' pairs', SameFlags options options' →
        List.Forall₂ Gives (texts options') pairs' →
        (∀ n, Bindings.last? pairs' n = Bindings.last? pairs n) →
        (run (command options' expression)).map Output.shown = .ok output.shown := by
      intro options' pairs' hflags hpairs' hlast
      obtain ⟨s, hs⟩ := exists_asks options pairs
      rw [run_command hpairs' (hs.of_same hflags hlast), ← run_command hpairs hs, hshown]
    refine ⟨pairs, output, hpairs, hrun, fun s hs => ?_, hsame, ?_⟩
    · rw [← run_command hpairs hs, hshown]
    · intro options' hflags hperm hnodup
      obtain ⟨pairs', hpairs', hperm'⟩ := List.perm_comp_forall₂ hperm hpairs
      exact hsame options' pairs' hflags hpairs' (last?_perm hperm' hnodup)
  · intro h
    obtain ⟨e, he⟩ := exists_usage h Settings.default
    exact run_of_usage he

/-- A name with blanks around it and a flag that is repeated; and a binding without a name. -/
theorem run_options_of_minus :
    (run (command [.var " x =2", .render, .render, .var "y=1"] "-x")).map Output.shown =
      .ok (0, "-x\n-2.0\n") ∧
    (run (command [.render, .var "y=1", .var " x =2"] "-x")).map Output.shown =
      .ok (0, "-x\n-2.0\n") ∧
    ∃ output, run (command [.var "--", .var "=1"] "--") = .ok output ∧
      output.status = 2 ∧ output.stdout = "" := by
  have htwo : Gives " x =2" ("x", 2.0) := by
    rw [← binding_eq_ok_iff]
    decide +kernel
  have hone : Gives "y=1" ("y", 1.0) := by
    rw [← binding_eq_ok_iff]
    decide +kernel
  have hnone : ∀ pair, ¬Gives "=1" pair := by
    intro pair h
    rw [← binding_eq_ok_iff] at h
    exact absurd h nofun
  have hpairs : List.Forall₂ Gives [" x =2", "y=1"] [("x", 2.0), ("y", 1.0)] :=
    .cons htwo (.cons hone .nil)
  have htexts : ∀ text ∈ [" x =2", "y=1"], ∃ pair, Gives text pair := by
    simpa using ⟨⟨_, _, htwo⟩, _, _, hone⟩
  obtain ⟨pairs, output, hgives, hrun, hasks, -, hperm⟩ :=
    (run_options [.var " x =2", .render, .render, .var "y=1"] "-x").1 htexts
  obtain rfl : pairs = [("x", 2.0), ("y", 1.0)] :=
    List.right_unique_forall₂' rightUnique_gives hgives hpairs
  have hshown : output.shown = (0, "-x\n-2.0\n") := by
    have hevaluate : evaluate "-x" ⟨[("x", 2.0), ("y", 1.0)], none, true, true, false, false⟩ =
        .ok ⟨0, "-x\n-2.0\n", ""⟩ := by
      decide +kernel
    have hs := hasks ⟨[("x", 2.0), ("y", 1.0)], none, true, true, false, false⟩
      ⟨by simp, by simp, by simp, fun _ => rfl⟩
    rw [hevaluate] at hs
    exact (Except.ok.inj hs).symm
  rw [← hshown]
  refine ⟨by rw [hrun]; rfl, ?_, ?_⟩
  · exact hperm [.render, .var "y=1", .var " x =2"] (by simp [SameFlags]) (.swap ..) (by simp)
  · exact (run_options [.var "--", .var "=1"] "--").2
      ⟨"=1", by simp [texts], by decide, hnone⟩

/-- A double dash gives nothing, and it is no usage error. -/
theorem run_blank_binding : (∀ pair, ¬Gives "--" pair) ∧
    run (command [.var "--"] "1") = .error (.blankBinding 0) := by
  refine ⟨fun pair h => ?_, by decide +kernel⟩
  rw [← binding_eq_ok_iff] at h
  exact absurd h nofun

end CommandLine

end Reckoner
