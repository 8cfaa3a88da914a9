import Reckoner.Calculator
import Reckoner.Proofs.Grammar.Ownership
import Reckoner.Proofs.Grammar.Relabelling
import Reckoner.Proofs.Grammar.Value
import Reckoner.Proofs.Rendering.Canonical

/-!
What a formula is to the text it was compiled from. It keeps the tree of the text, and the
heap keeps values for its names; binding changes only these values, so the formula is always
worth what the text says under them. A calculator compiles exactly the texts that the grammar
has a reading of, and its own values are those a new formula starts with. A new tree takes
labels that no other tree has, so a heap serves any number of formulas.
-/

namespace Reckoner

namespace Phrase

def ReadsText (p : Phrase .sum) (text : String) : Prop :=
  ∃ tokens, Lexer.tokenize text = .ok tokens ∧ p.Reads tokens

end Phrase

def Grammatical (text : String) : Prop := ∃ p : Phrase .sum, p.ReadsText text

theorem grammatical_iff {text : String} (label : Label) :
    Grammatical text ↔ ∃ r, Rooted.ofText label text = .ok r := by
  constructor
  · intro h
    obtain ⟨p, tokens, htokens, word, ends, rfl, hword, hends⟩ := h
    have hparse : Parser.parse label (word ++ ends) = .ok (p.tree label) :=
      Parser.parse_phrase p hword hends
    exact ⟨_, Rooted.ofText_eq_ok.mpr ⟨_, htokens, Rooted.ofTokens_eq_ok.mpr ⟨_, hparse, rfl⟩⟩⟩
  · intro h
    obtain ⟨r, hr⟩ := h
    obtain ⟨tokens, htokens, hread⟩ := Rooted.ofText_eq_ok.mp hr
    obtain ⟨tree, hparse, -⟩ := Rooted.ofTokens_eq_ok.mp hread
    obtain ⟨p, word, ends, heq, hword, hends, -⟩ := Parser.exists_phrase_of_parse hparse
    exact ⟨p, tokens, htokens, word, ends, heq, hword, hends⟩

section Reading

variable {label : Label} {text : String} {r : Rooted}

/-- A text is built into the tree of each reading it has. -/
theorem Phrase.ReadsText.root_eq {p : Phrase .sum} (h : p.ReadsText text)
    (hr : Rooted.ofText label text = .ok r) : r.root = p.tree label := by
  obtain ⟨tokens, htokens, word, ends, rfl, hword, hends⟩ := h
  obtain ⟨tokens', htokens', hread⟩ := Rooted.ofText_eq_ok.mp hr
  obtain rfl := Except.ok.inj (htokens.symm.trans htokens')
  obtain ⟨tree, hparse, rfl⟩ := Rooted.ofTokens_eq_ok.mp hread
  exact Except.ok.inj (hparse.symm.trans (Parser.parse_phrase p hword hends))

theorem Rooted.store_of_ofText (hr : Rooted.ofText label text = .ok r) :
    r.store = Store.empty := by
  obtain ⟨tokens, -, hread⟩ := Rooted.ofText_eq_ok.mp hr
  obtain ⟨tree, -, rfl⟩ := Rooted.ofTokens_eq_ok.mp hread
  rfl

/-- No node of the tree has two holders, and none has a label that was not free for it. -/
theorem Rooted.within_of_ofText (hr : Rooted.ofText label text = .ok r) :
    r.root.Within label r.free := by
  obtain ⟨tokens, -, hread⟩ := Rooted.ofText_eq_ok.mp hr
  exact ⟨Rooted.distinct_of_ofTokens hread, fun l hl => (Rooted.label_le_and_lt_free hread hl).1,
    fun l hl => (Rooted.label_le_and_lt_free hread hl).2⟩

/-- The trees that are read from a text differ in their labels alone. -/
theorem Rooted.unlabelled_of_ofText {label' : Label} {r' : Rooted}
    (hr : Rooted.ofText label text = .ok r) (hr' : Rooted.ofText label' text = .ok r') :
    r.root.unlabelled = r'.root.unlabelled := by
  obtain ⟨p, hp⟩ := (grammatical_iff label).mpr ⟨r, hr⟩
  rw [hp.root_eq hr, hp.root_eq hr', p.unlabelled_tree label label']

end Reading

namespace Heap

def Fresh (heap : Heap) : Prop := ∀ l, heap.free ≤ l → heap.store.get l = 0.0

theorem fresh_empty : empty.Fresh := fun l _ => Store.get_empty l

/-- The tree was made in labels that were free, and no older node has another value. -/
structure Makes (before : Heap) (root : Expr) (after : Heap) : Prop where
  within : root.Within before.free after.free
  fresh : after.Fresh
  kept : ∀ l < before.free, after.store.get l = before.store.get l

/-- Reading a text and binding its tree. -/
theorem Fresh.makes {heap : Heap} (h : heap.Fresh) {text : String} {r : Rooted}
    (hr : Rooted.ofText heap.free text = .ok r) (bindings : Bindings) :
    heap.Makes r.root ⟨(r.root.bindAll bindings heap.store).2, r.free⟩ := by
  have hwithin := Rooted.within_of_ofText hr
  have hother : ∀ l, l ∉ r.root.labels →
      (r.root.bindAll bindings heap.store).2.get l = heap.store.get l := fun l hl =>
    Expr.get_bindAll_other (.of_nodup hwithin.nodup) bindings heap.store hl
  refine ⟨hwithin, fun l hl => ?_, fun l hl => hother l fun hmem => ?_⟩
  · rw [← h l (Nat.le_trans hwithin.low_lt_high.le hl)]
    exact hother l fun hmem => Nat.not_lt_of_le hl (hwithin.lt_high l hmem)
  · exact Nat.not_lt_of_le (hwithin.low_le l hmem) hl

end Heap

namespace Formula

/-- The formula is that of the text, and its names are worth what the environment gives. -/
structure Holds (f : Formula) (store : Store) (text : String) (env : String → Float) : Prop where
  source_eq : f.source = text
  read : ∃ label r, Rooted.ofText label text = .ok r ∧ r.root = f.root
  names_eq : f.names = f.root.names
  agrees : f.root.Agrees store env

variable {f : Formula} {store after : Store} {text : String} {env : String → Float}

theorem Holds.of_read {heap : Heap} (h : heap.Fresh) {r : Rooted}
    (hr : Rooted.ofText heap.free text = .ok r) :
    Holds ⟨text, r.root, r.root.names⟩ heap.store text (fun _ => 0.0) where
  source_eq := rfl
  read := ⟨heap.free, r, hr, rfl⟩
  names_eq := rfl
  agrees := by
    intro node hnode
    cases node with
    | var l n => exact h l ((Rooted.within_of_ofText hr).low_le l (List.mem_map_of_mem hnode))
    | const | chain | power | call => trivial

theorem Holds.consistent (h : f.Holds store text env) : f.root.Consistent := by
  obtain ⟨label, r, hr, hroot⟩ := h.read
  rw [← hroot]
  exact .of_nodup (Rooted.within_of_ofText hr).nodup

/-- Binding gives the bound names their values and leaves the others theirs. -/
theorem Holds.bindAll (h : f.Holds store text env) (bindings : Bindings) :
    f.Holds (f.bindAll bindings store) text (fun n => bindings.getD n (env n)) where
  source_eq := h.source_eq
  read := h.read
  names_eq := h.names_eq
  agrees := Expr.agrees_bindAll h.consistent bindings fun l n hmem _ => h.agrees (.var l n) hmem

/-- Only the values of the formula's own nodes count. -/
theorem Holds.frame (h : f.Holds store text env)
    (hsame : ∀ l ∈ f.root.labels, after.get l = store.get l) : f.Holds after text env where
  source_eq := h.source_eq
  read := h.read
  names_eq := h.names_eq
  agrees := by
    intro node hnode
    have hworth := h.agrees node hnode
    cases node with
    | var l n => exact (hsame l (List.mem_map_of_mem hnode)).trans hworth
    | const | chain | power | call => trivial

theorem Holds.evaluate (h : f.Holds store text env) {p : Phrase .sum} (hp : p.ReadsText text) :
    f.evaluate store = .ok (p.value env) := by
  obtain ⟨label, r, hr, hroot⟩ := h.read
  have htree : f.root = p.tree label := by rw [← hroot, hp.root_eq hr]
  have hagrees := h.agrees
  rw [htree] at hagrees
  rw [Formula.evaluate, Expr.evaluate_eq_fold, htree]
  exact p.fold_tree hagrees

/-- The names and the rendered text of a formula are told by its text alone. -/
theorem Holds.fixed (h : f.Holds store text env) :
    ∃ r written, Rooted.ofText 0 text = .ok r ∧ r.root.render = .ok written ∧
      f.names = r.root.names ∧ f.text = .ok written := by
  obtain ⟨label, r, hr, hroot⟩ := h.read
  obtain ⟨r', hr'⟩ := (grammatical_iff 0).mp ((grammatical_iff label).mpr ⟨r, hr⟩)
  have hshape : f.root.unlabelled = r'.root.unlabelled := by
    rw [← hroot, Rooted.unlabelled_of_ofText hr hr']
  obtain ⟨written, hwritten, -⟩ := (Rooted.canonical_of_ofText hr').exists_reread
  refine ⟨r', written, hr', hwritten, ?_, ?_⟩
  · rw [h.names_eq, ← f.root.names_unlabelled, hshape, Expr.names_unlabelled]
  · rw [Formula.text, Expr.render_congr hshape, hwritten]

end Formula

namespace Calculator

def env (c : Calculator) (name : String) : Float := c.bindings.getD name 0.0

variable {c : Calculator} {heap : Heap} {text : String}

theorem compile_of_ok {r : Rooted} (hr : Rooted.ofText heap.free text = .ok r) (c : Calculator) :
    c.compile heap text = .ok (⟨text, r.root, r.root.names⟩,
      ⟨(r.root.bindAll c.bindings heap.store).2, r.free⟩,
      let missing := r.root.names.filter fun name => !c.bindings.contains name
      .compiled text r.root.names :: if missing.isEmpty then [] else [.unbound text missing]) := by
  simp only [compile, Formula.ofText, hr]
  rfl

theorem compile_of_error {error : ParseError} (h : Rooted.ofText heap.free text = .error error)
    (c : Calculator) : c.compile heap text = .error error := by
  simp only [compile, Formula.ofText, h]
  rfl

theorem compile_cases (c : Calculator) (hheap : heap.Fresh) (text : String) :
    (Grammatical text ∧ ∃ f after notes, c.compile heap text = .ok (f, after, notes) ∧
      f.Holds after.store text c.env ∧ heap.Makes f.root after) ∨
    (¬Grammatical text ∧ ∃ error, c.compile heap text = .error error) := by
  cases hread : Rooted.ofText heap.free text with
  | ok r =>
    have hholds := (Formula.Holds.of_read hheap hread).bindAll c.bindings
    exact .inl ⟨(grammatical_iff heap.free).mpr ⟨r, hread⟩, _, _, _, compile_of_ok hread c, hholds,
      hheap.makes hread c.bindings⟩
  | error error =>
    exact .inr ⟨by simp [grammatical_iff heap.free, hread], error, compile_of_error hread c⟩

theorem calculate_of_reads (c : Calculator) (hheap : heap.Fresh) {p : Phrase .sum}
    (hp : p.ReadsText text) : ∃ notes, c.calculate heap text = .ok (p.value c.env, notes) := by
  rcases c.compile_cases hheap text with ⟨-, f, after, notes, hcompile, hf, -⟩ | ⟨hnone, -⟩
  · refine ⟨notes ++ [.calculated text (p.value c.env)], ?_⟩
    simp [calculate, hcompile, hf.evaluate hp, Except.mapError, bind, Except.bind, pure,
      Except.pure]
  · exact absurd ⟨p, hp⟩ hnone

theorem calculate_of_not_grammatical (c : Calculator) (hheap : heap.Fresh) (h : ¬Grammatical text) :
    ∃ error, c.calculate heap text = .error (.parse error) := by
  rcases c.compile_cases hheap text with ⟨hsome, -⟩ | ⟨-, error, herror⟩
  · exact absurd hsome h
  · exact ⟨error, by simp [calculate, herror, Except.mapError, bind, Except.bind]⟩

end Calculator

end Reckoner
