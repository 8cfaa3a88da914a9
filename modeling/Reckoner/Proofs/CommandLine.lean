import Reckoner.CommandLine.Run
import Reckoner.Proofs.Formulas
import Reckoner.Proofs.Grammar.Names
import Reckoner.Proofs.Grammar.Substitution
import Reckoner.Proofs.Json.Lines

/-!
What the evaluation of a text prints. It never breaks down: a text that is not understood
is refused with its diagnostic, and every other text is answered. The record of an answer
is one line of JSON that a strict reader reads back, and it tells a computation of its
own: a text, values for the names and what the text is worth under them. That computation
is the one that was asked for.
-/

namespace Reckoner

namespace Bindings

theorem getElem?_update_map (bindings : Bindings) (names : List String) (env : String → Float)
    (n : String) :
    (bindings.update (names.map fun n => (n, env n)))[n]? =
      if n ∈ names then some (env n) else bindings[n]? := by
  induction names generalizing bindings with
  | nil => rfl
  | cons name names ih =>
    have hstep : bindings.update ((name :: names).map fun n => (n, env n)) =
        Bindings.update (bindings.insert name (env name)) (names.map fun n => (n, env n)) := rfl
    rw [hstep, ih, Std.TreeMap.getElem?_insert]
    by_cases hname : name = n
    · simp [hname]
    · simp [hname, Ne.symm hname]

/-- Bindings that are told as pairs give each name told what it is told to be worth. -/
theorem getElem?_ofPairs_map (names : List String) (env : String → Float) (n : String) :
    (ofPairs (names.map fun n => (n, env n)))[n]? = if n ∈ names then some (env n) else none := by
  rw [ofPairs, getElem?_update_map]
  simp [empty]

end Bindings

section Reading

variable {label : Label} {text : String} {r : Rooted} {p : Phrase .sum} {env : String → Float}

theorem Phrase.ReadsText.evaluate (hp : p.ReadsText text) (hr : Rooted.ofText label text = .ok r)
    {store : Store} (h : r.root.Agrees store env) : r.root.evaluate store = .ok (p.value env) := by
  have hroot := hp.root_eq hr
  rw [hroot] at h
  rw [Expr.evaluate_eq_fold, hroot]
  exact p.fold_tree h

theorem Phrase.ReadsText.evaluate_bindAll (hp : p.ReadsText text)
    (hr : Rooted.ofText label text = .ok r) (bindings : Bindings) :
    r.root.evaluate (r.root.bindAll bindings Store.empty).2 =
      .ok (p.value fun n => bindings.getD n 0.0) := by
  have hstore := Rooted.store_of_ofText hr
  obtain ⟨tokens, htokens, hreads⟩ := hp
  obtain ⟨r', hr', hvalue⟩ := hreads.exists_ofTokens label
  obtain rfl := Except.ok.inj (hr.symm.trans (Rooted.ofText_eq_ok.mpr ⟨tokens, htokens, hr'⟩))
  rw [← hstore]
  exact hvalue bindings

/-- What is written of a tree is worth what the tree is worth, also if nothing but the names
that the tree lists is bound. -/
theorem Rooted.exists_written (hp : p.ReadsText text) (hr : Rooted.ofText label text = .ok r)
    (env : String → Float) :
    ∃ written, r.root.render = .ok written ∧ ∀ label', ∃ r',
      Rooted.ofText label' written = .ok r' ∧
        r'.root.evaluate (r'.root.bindAll
          (Bindings.ofPairs (r.root.names.map fun n => (n, env n))) r'.store).2 =
            .ok (p.value env) := by
  let bindings := Bindings.ofPairs (r.root.names.map fun n => (n, env n))
  have hwritable := (Rooted.canonical_of_ofText hr).writable
  have hconsistent : r.root.Consistent := by
    rw [hp.root_eq hr]
    exact .of_nodup (p.distinct_tree label)
  have hbound : ∀ l n, .var l n ∈ r.root.preorder → bindings[n]? = some (env n) := by
    intro l n hmem
    rw [Bindings.getElem?_ofPairs_map, if_pos (Expr.mem_names hmem)]
  have henv : (fun n => bindings.getD n (env n)) = env := by
    funext n
    rw [Std.TreeMap.getD_eq_getD_getElem?, Bindings.getElem?_ofPairs_map]
    split <;> rfl
  have hstore : ∀ l n, .var l n ∈ r.root.preorder → bindings[n]? = none →
      r.store.get l = env n :=
    fun l n hmem hnone => absurd (hnone.symm.trans (hbound l n hmem)) (by simp)
  have hagrees := Expr.agrees_bindAll hconsistent bindings hstore
  rw [henv] at hagrees
  obtain ⟨written, hwritten, hreread⟩ := Expr.exists_reread hwritable hconsistent r.store
  refine ⟨written, hwritten, fun label' => ?_⟩
  obtain ⟨r', hr', hvalue⟩ := hreread label'
  obtain ⟨v, hv, hv'⟩ := hvalue bindings fun l n hmem => by rw [hbound l n hmem]; rfl
  obtain rfl := Except.ok.inj (hv.symm.trans (hp.evaluate hr hagrees))
  exact ⟨r', hr', hv'⟩

end Reading

theorem Diagnostic.isFinite_json (d : Diagnostic) : d.json.IsFinite := by
  cases hopening : d.opening <;> by_cases hkind : d.kind = .unbalancedBrackets <;>
    simp [json, hopening, hkind, Text.Json.IsFinite, Text.Json.AreFinite]

namespace CommandLine

open Text

def numberOf? : Json → Option Float
  | .number x => some x
  | .text t => Reading.number? t
  | _ => none

theorem numberOf?_jsonNumber (x : Float) : numberOf? (jsonNumber x) = some x := by
  unfold jsonNumber
  split
  · rfl
  · exact Numeral.number?_text x

theorem isFinite_jsonNumber (x : Float) : (jsonNumber x).IsFinite := by
  unfold jsonNumber
  split
  · assumption
  · trivial

def IsLine (text : String) : Prop := ∃ body, text = line body ∧ Unbroken body.toList

theorem isLine_line {value : Json} (h : value.IsFinite) : IsLine (line value.line) :=
  ⟨_, rfl, Json.unbroken_line h⟩

/-- The text is the line of a record with these entries: a text, its value, and the names
with the values given to them. -/
structure Records (stdout text : String) (value : Float) (pairs : List (String × Float)) :
    Prop where
  isLine : IsLine stdout
  read : ∃ number members,
    Json.read? stdout = some (.object
      [("expression", .text text), ("value", number), ("variables", .object members)]) ∧
    numberOf? number = some value ∧
    members.map (Prod.map id numberOf?) = pairs.map (Prod.map id some)

theorem isFinite_payload (c : Calculator) (f : Formula) (text : String) (value : Float) :
    (payload c f text value).IsFinite := by
  have hmembers (names : List String) : Json.AreFinite
      (names.map fun n => (n, jsonNumber (c.bindings.getD n 0.0))) := by
    induction names with
    | nil => trivial
    | cons n names ih => exact ⟨isFinite_jsonNumber _, ih⟩
  exact ⟨trivial, isFinite_jsonNumber value, hmembers f.names, trivial⟩

theorem records_payload (c : Calculator) (f : Formula) (text : String) (value : Float) :
    Records (line (payload c f text value).line) text value
      (f.names.map fun n => (n, c.env n)) where
  isLine := isLine_line (isFinite_payload c f text value)
  read := by
    refine ⟨_, _, Json.read?_line (isFinite_payload c f text value), numberOf?_jsonNumber value, ?_⟩
    simp [Function.comp_def, numberOf?_jsonNumber, Calculator.env]

structure Refuses (s : Settings) (error : ParseError) (output : Output) : Prop where
  status : output.status = 2
  record : s.json = true → IsLine output.stdout ∧
    Json.read? output.stdout = some (.object [("error", error.diagnostic.json)]) ∧
    output.stderr = ""
  plain : s.json = false → output.stdout = "" ∧ output.stderr = line error.diagnostic.line

/-- The output for a text that is understood. If it is a record, this tells the names of the
text's tokens and what they are bound to, and a text that is worth under them what the first
text is worth under the bindings. -/
structure Answers (s : Settings) (tokens : List Token) (root : Expr) (output : Output) : Prop where
  status : output.status = 0
  record : ∃ v, root.evaluate (root.bindAll (calculator s).bindings Store.empty).2 = .ok v ∧
    (s.json = true → ∃ text pairs, Records output.stdout text v pairs ∧
      root.render = .ok text ∧
      FirstAppearances (pairs.map Prod.fst) (tokens.filterMap Token.name?) ∧
      (∀ pair ∈ pairs, pair.2 = (calculator s).bindings.getD pair.1 0.0) ∧
      ∀ label, ∃ r, Rooted.ofText label text = .ok r ∧
        r.root.evaluate (r.root.bindAll (Bindings.ofPairs pairs) r.store).2 = .ok v)

theorem refuses_rejected (s : Settings) (error : ParseError) :
    Refuses s error (rejected s error.diagnostic) where
  status := by
    unfold rejected
    split <;> rfl
  record := by
    intro hjson
    have hfinite : (Json.object [("error", error.diagnostic.json)]).IsFinite :=
      ⟨error.diagnostic.isFinite_json, trivial⟩
    rw [rejected, if_pos hjson]
    exact ⟨isLine_line hfinite, Json.read?_line hfinite, rfl⟩
  plain := by
    intro hjson
    rw [rejected, hjson]
    exact ⟨rfl, rfl⟩

theorem evaluate_of_error {expression : String} {error : ParseError}
    (h : Rooted.ofText 0 expression = .error error) (s : Settings) :
    ∃ output, evaluate expression s = .ok output ∧ Refuses s error output := by
  refine ⟨rejected s error.diagnostic, ?_, refuses_rejected s error⟩
  rw [evaluate, Calculator.compile_of_error h]

theorem evaluate_of_ok {expression : String} {tokens : List Token} {r : Rooted}
    (htokens : Lexer.tokenize expression = .ok tokens) (hr : Rooted.ofTokens 0 tokens = .ok r)
    (s : Settings) :
    ∃ output, evaluate expression s = .ok output ∧ Answers s tokens r.root output := by
  have hread : Rooted.ofText 0 expression = .ok r := Rooted.ofText_eq_ok.mpr ⟨tokens, htokens, hr⟩
  rcases (calculator s).compile_cases Heap.fresh_empty expression with
    ⟨⟨p, hp⟩, f, heap, notes, hcompile, hf, -⟩ | ⟨hnone, -⟩
  · obtain ⟨r', text, hr', hrender, hnames, htext⟩ := hf.fixed
    obtain rfl := Except.ok.inj (hread.symm.trans hr')
    obtain ⟨written, hwritten, hreread⟩ := Rooted.exists_written hp hread (calculator s).env
    obtain rfl := Except.ok.inj (hrender.symm.trans hwritten)
    have hanswer : answer f heap.store = .ok (text, p.value (calculator s).env) := by
      rw [answer, hf.evaluate hp, htext]
      rfl
    have hevaluate : evaluate expression s = .ok
        ⟨0, printed s f text (p.value (calculator s).env),
          if s.verbose then noteLines notes else ""⟩ := by
      simp only [evaluate, hcompile, hanswer]
    have hvalue := hp.evaluate_bindAll hread (calculator s).bindings
    refine ⟨_, hevaluate, rfl, p.value (calculator s).env, hvalue, fun hjson => ?_⟩
    refine ⟨text, _, ?_, hrender, ?_, ?_, hreread⟩
    · have hrecords := records_payload (calculator s) f text (p.value (calculator s).env)
      rw [hnames] at hrecords
      rwa [printed, if_pos hjson]
    · simpa [Function.comp_def] using Rooted.firstAppearances_names hr
    · intro pair hpair
      obtain ⟨n, -, rfl⟩ := List.mem_map.mp hpair
      rfl
  · exact absurd ((grammatical_iff 0).mpr ⟨r, hread⟩) hnone

/-- Every evaluation comes to an output, whatever the text, the bindings and the switches: what
has no tokens or no tree is refused, and everything else is answered. -/
theorem evaluate_answers_or_refuses (expression : String) (s : Settings) :
    ∃ output, evaluate expression s = .ok output ∧
      match Lexer.tokenize expression with
      | .error error => Refuses s error output
      | .ok tokens =>
          match Parser.parse 0 tokens with
          | .error error => Refuses s error output
          | .ok root => Answers s tokens root output := by
  cases htokens : Lexer.tokenize expression with
  | error error =>
    exact evaluate_of_error (by simp [Rooted.ofText, htokens, bind, Except.bind]) s
  | ok tokens =>
    cases hparse : Parser.parse 0 tokens with
    | error error =>
      have hread : Rooted.ofText 0 expression = .error error := by
        simp [Rooted.ofText, Rooted.ofTokens, htokens, hparse, bind, Except.bind]
      simpa only [hparse] using evaluate_of_error hread s
    | ok root =>
      have hr := Rooted.ofTokens_eq_ok.mpr ⟨root, hparse, rfl⟩
      simpa only [hparse] using evaluate_of_ok htokens hr s

example : evaluate "a / b + a" ⟨[("a", 1.0)], none, true, false, true, false⟩ = .ok ⟨0,
    "\x7b\"expression\": \"a / b + a\", \"value\": \"inf\", " ++
      "\"variables\": \x7b\"a\": 1.0, \"b\": 0.0\x7d\x7d\n", ""⟩ := by
  decide +kernel

end CommandLine

end Reckoner
