import Reckoner.Proofs.Rendering.Reread
import Reckoner.Proofs.Shape

/-!
The trees that texts have. Reading opens a chain in two ways only, by a leading minus
or by the operator after the first term, and a chain is never the first term of a chain
of its family, because it is gone on in place. These are the canonical trees, and
writing one and reading it again gives it back.
-/

namespace Reckoner

namespace Expr

def IsChain (family : Family) : Expr → Prop
  | chain _ f _ _ _ => f = family
  | _ => False

/-- How a chain may have been opened: a sum by a leading minus, any chain by the operator
between its first two terms. -/
def Opened (family : Family) (opener : Sign) : Sign × Expr → List (Sign × Expr) → Prop
  | (.minus, _), _ => family = .sum ∧ opener = .minus
  | (.plus, e), (sign, _) :: _ => ¬e.IsChain family ∧ opener = sign
  | (.plus, _), [] => False

def Readable (store : Store) : Expr → Prop
  | const _ v => v.isNaN = false ∧ Arithmetic.signOf v = .plus
  | var l n => Lexer.IsName n ∧ Builtin.ofName? n = none ∧ store.get l = 0.0
  | chain _ family opener first rest => Opened family opener first rest
  | power _ _ _ => True
  | call _ callee _ => ∃ function, callee = .builtin function

/-- A tree of nodes that reading can make. -/
def Canonical (store : Store) (e : Expr) : Prop := e.Every (Readable store)

variable {store : Store}

theorem Opened.append {family : Family} {opener : Sign} {first : Sign × Expr}
    {rest : List (Sign × Expr)} (h : Opened family opener first rest) (t : Sign × Expr) :
    Opened family opener first (rest ++ [t]) := by
  obtain ⟨sign, e⟩ := first
  cases sign with
  | minus => exact h
  | plus =>
    cases rest with
    | nil => exact absurd h id
    | cons next rest => exact h

/-- Going on a chain in place keeps how it was opened, and a chain that is opened is
opened by the operator. -/
theorem readable_extend {soFar : Expr} (h : soFar.Readable store) (family : Family) (l : Label)
    (sign : Sign) (term : Expr) : (soFar.extend family l sign term).Readable store := by
  cases soFar with
  | chain k f o first rest =>
    by_cases hf : f = family
    · simp only [extend, if_pos hf]
      exact h.append (sign, term)
    · simp only [extend, if_neg hf]
      exact ⟨hf, rfl⟩
  | const | var | power | call => exact ⟨id, rfl⟩

theorem Canonical.extend {soFar term : Expr} (h : soFar.Canonical store)
    (hterm : term.Canonical store) (family : Family) (l : Label) (sign : Sign) :
    (soFar.extend family l sign term).Canonical store :=
  Every.extend h hterm (readable_extend h.root family l sign term)

end Expr

namespace Phrase

open Reckoner.Expr

variable {store : Store}

theorem canonical_signedTree {label : Nat} {build : Label → Expr} (sign : Option Sign)
    (h : (build (label + (signWord sign).length)).Canonical store) :
    (signedTree label sign build).Canonical store := by
  cases sign with
  | none => exact h
  | some sign =>
    cases sign with
    | plus => exact h
    | minus => exact Every.chain_iff.mpr ⟨⟨rfl, rfl⟩, h, by simp⟩

/-- The tree of a phrase of a text is canonical. -/
theorem canonical_tree {level : Level} (p : Phrase level) (hstore : ∀ l, store.get l = 0.0)
    (h : ∀ symbol ∈ p.word, symbol.Written) (label : Nat) : (p.tree label).Canonical store := by
  induction p generalizing label with
  | signed sign t ih =>
    exact canonical_signedTree sign (ih (fun s hs => h s (List.mem_append_right _ hs)) _)
  | sum p sign t ihp iht =>
    have hp := ihp (fun s hs => h s (List.mem_append_left _ hs)) label
    have ht := iht (fun s hs => h s (by simp [word, hs])) (label + p.word.length + 1)
    exact hp.extend ht .sum _ sign
  | factor f ih => exact ih h label
  | product p sign factorSign f ihp ihf =>
    have hp := ihp (fun s hs => h s (List.mem_append_left _ hs)) label
    have hf := ihf (fun s hs => h s (by simp [word, hs]))
    exact hp.extend (canonical_signedTree factorSign (hf _)) .product _ sign
  | argument a ih => exact ih h label
  | power b exponentSign e ihb ihe =>
    have hb := ihb (fun s hs => h s (List.mem_append_left _ hs)) label
    have he := ihe (fun s hs => h s (by simp [word, hs]))
    exact Every.power_iff.mpr ⟨trivial, hb, canonical_signedTree exponentSign (he _)⟩
  | call function a ih =>
    have ha := ih (fun s hs => h s (List.mem_cons_of_mem _ hs)) (label + 1)
    exact Every.call_iff.mpr ⟨⟨function, rfl⟩, ha⟩
  | bracketed e ih => exact ih (fun s hs => h s (by simp [word, hs])) (label + 1)
  | number v => exact Every.const_iff.mpr (h (.number v) (by simp [word]))
  | name n =>
    obtain ⟨hname, hfunction⟩ := h (.name n) (by simp [word])
    exact Every.var_iff.mpr ⟨hname, hfunction, hstore label⟩

end Phrase

/-- What the parser makes of tokens of a text is canonical. -/
theorem Parser.canonical_of_parse {label : Nat} {tokens : List Token} {tree : Expr}
    (hread : ∀ t ∈ tokens, Lexer.Read t) (h : parse label tokens = .ok tree) :
    tree.Canonical Store.empty := by
  obtain ⟨p, word, ends, rfl, hword, -, rfl⟩ := exists_phrase_of_parse h
  have hwritten := Lexer.written_of_spells (fun t ht => hread t (List.mem_append_left _ ht)) hword
  exact p.canonical_tree Store.get_empty hwritten label

/-- What is read from a text is canonical. -/
theorem Rooted.canonical_of_ofText {label : Nat} {text : String} {r : Rooted}
    (h : Rooted.ofText label text = .ok r) : r.root.Canonical r.store := by
  obtain ⟨tokens, htokenize, htokens⟩ := Rooted.ofText_eq_ok.mp h
  obtain ⟨tree, hparse, rfl⟩ := Rooted.ofTokens_eq_ok.mp htokens
  exact Parser.canonical_of_parse (Lexer.read_tokenize htokenize) hparse

namespace Expr

def WrittenAs (e : Expr) (p : Piece) : Prop :=
  ∀ label, (p.phrase.tree label).unlabelled = e.unlabelled

variable {e : Expr} {p : Piece}

/-- Brackets leave no trace in a tree. -/
theorem WrittenAs.within (h : e.WrittenAs p) (level : Level) (label : Label) :
    ((p.within level).tree label).unlabelled = e.unlabelled := by
  obtain ⟨tight, phrase⟩ := p
  cases tight <;> cases level <;> exact h _

def extendAll (family : Family) (soFar : Expr) (rest : List (Sign × Expr)) : Expr :=
  rest.foldl (fun soFar t => soFar.extend family 0 t.1 t.2) soFar

theorem extendAll_chain (family : Family) (o : Sign) (first : Sign × Expr)
    (before rest : List (Sign × Expr)) :
    extendAll family (chain 0 family o first before) rest =
      chain 0 family o first (before ++ rest) := by
  induction rest generalizing before with
  | nil => rw [List.append_nil]; rfl
  | cons t rest ih =>
    have hnext : (chain 0 family o first before).extend family 0 t.1 t.2 =
        chain 0 family o first (before ++ [t]) := by
      simp [Expr.extend]
    rw [extendAll, List.foldl_cons, hnext]
    exact (ih (before ++ [t])).trans (by simp)

theorem extend_of_not_isChain {soFar : Expr} {family : Family} (h : ¬soFar.IsChain family)
    (l : Label) (sign : Sign) (term : Expr) :
    soFar.extend family l sign term = chain l family sign (.plus, soFar) [(sign, term)] := by
  cases soFar with
  | chain k f o first rest => exact if_neg h
  | const | var | power | call => rfl

theorem isChain_unlabelled (family : Family) : e.unlabelled.IsChain family ↔ e.IsChain family := by
  cases e <;> rfl

theorem unlabelled_addTerm {family : Family} (soFar : Phrase family.level) (h : e.WrittenAs p)
    (sign : Sign) (label : Label) :
    ((Piece.addTerm family soFar (sign, p)).tree label).unlabelled =
      (soFar.tree label).unlabelled.extend family 0 sign e.unlabelled := by
  cases family with
  | sum =>
    change (((soFar.tree label).extend .sum _ sign _).unlabelled) = _
    rw [unlabelled_extend, h.within .product]
  | product =>
    change (((soFar.tree label).extend .product _ sign _).unlabelled) = _
    rw [unlabelled_extend]
    exact congrArg _ (h.within .power _)

theorem unlabelled_terms {family : Family} {rest : List (Sign × Expr)}
    {pieces : List (Sign × Piece)} (hrest : Algebra.RelatedTerms WrittenAs rest pieces)
    (soFar : Phrase family.level) (label : Label) :
    ((pieces.foldl (Piece.addTerm family) soFar).tree label).unlabelled =
      extendAll family (soFar.tree label).unlabelled (unlabelledTerms rest) := by
  induction hrest generalizing soFar with
  | nil => rfl
  | @cons term piece rest pieces hterm hrest ih =>
    obtain ⟨sign, e⟩ := term
    obtain ⟨sign', p⟩ := piece
    obtain ⟨rfl, hwritten⟩ := hterm
    rw [List.foldl_cons, ih, unlabelled_addTerm soFar hwritten]
    rfl

/-- A chain that reading can have opened is opened again as it was. -/
theorem writtenAs_ofChain {family : Family} {o sign : Sign} {rest : List (Sign × Expr)}
    {pieces : List (Sign × Piece)} (hopened : Opened family o (sign, e) rest) (h : e.WrittenAs p)
    (hrest : Algebra.RelatedTerms WrittenAs rest pieces) (l : Label) :
    (chain l family o (sign, e) rest).WrittenAs (Piece.ofChain family (sign, p) pieces) := by
  intro label
  change ((pieces.foldl (Piece.addTerm family) _).tree label).unlabelled = _
  rw [unlabelled_terms hrest]
  cases sign with
  | minus =>
    -- The leading minus opens the chain and all the other terms go on it.
    obtain ⟨rfl, rfl⟩ := hopened
    have hfirst : ((Piece.firstTerm .sum (.minus, p)).tree label).unlabelled =
        chain 0 .sum .minus (.minus, e.unlabelled) [] := by
      rw [← h.within .product (label + 1)]
      rfl
    rw [hfirst, extendAll_chain]
    rfl
  | plus =>
    have hfirst : ((Piece.firstTerm family (.plus, p)).tree label).unlabelled = e.unlabelled := by
      cases family with
      | sum => exact h.within .sum label
      | product => exact h.within .product label
    cases rest with
    | nil => exact absurd hopened id
    | cons next rest =>
      -- The first term is no chain of the family, so the next operator opens one.
      obtain ⟨sign, second⟩ := next
      obtain ⟨hchain, rfl⟩ := hopened
      have hopen := extend_of_not_isChain (mt (isChain_unlabelled family).mp hchain) 0 o
        second.unlabelled
      rw [hfirst, unlabelledTerms, extendAll, List.foldl_cons, hopen]
      exact extendAll_chain family o _ _ _

theorem foldTerms_writtenAs {rest : List (Sign × Expr)}
    (h : ∀ t ∈ rest, ∃ p, phrasing.fold t.2 = .ok p ∧ t.2.WrittenAs p) :
    ∃ pieces, phrasing.foldTerms rest = .ok pieces ∧
      Algebra.RelatedTerms WrittenAs rest pieces := by
  induction rest with
  | nil => exact ⟨[], rfl, List.Forall₂.nil⟩
  | cons t rest ih =>
    obtain ⟨sign, e⟩ := t
    obtain ⟨p, hp, hwritten⟩ := h (sign, e) (by simp)
    obtain ⟨pieces, hpieces, hrest⟩ := ih fun t ht => h t (List.mem_cons_of_mem _ ht)
    exact ⟨_, Algebra.foldTerms_cons hp hpieces sign, List.Forall₂.cons ⟨rfl, hwritten⟩ hrest⟩

/-- A canonical tree is the tree of its phrase. -/
theorem Canonical.writtenAs (h : e.Canonical store) :
    ∃ p, phrasing.fold e = .ok p ∧ e.WrittenAs p := by
  induction e using induct with
  | const l v =>
    obtain ⟨hnan, hsign⟩ := Every.const_iff.mp h
    refine ⟨⟨.atom, .number v⟩, ?_, fun _ => rfl⟩
    rw [Algebra.fold, phrasing_const hnan, Piece.ofConst, hsign]
  | var l n => exact ⟨⟨.atom, .name n⟩, rfl, fun _ => rfl⟩
  | chain l family o s e rest ihe ihrest =>
    obtain ⟨hopened, he, hrest⟩ := Every.chain_iff.mp h
    obtain ⟨p, hp, hfirst⟩ := ihe he
    obtain ⟨pieces, hpieces, hterms⟩ := foldTerms_writtenAs fun t ht => ihrest t ht (hrest t ht)
    exact ⟨_, Algebra.fold_chain hp hpieces l family o s,
      writtenAs_ofChain hopened hfirst hterms l⟩
  | power l base exponent ihbase ihexponent =>
    obtain ⟨-, hbase, hexponent⟩ := Every.power_iff.mp h
    obtain ⟨p, hp, hfirst⟩ := ihbase hbase
    obtain ⟨q, hq, hlast⟩ := ihexponent hexponent
    refine ⟨_, Algebra.fold_power hp hq l, fun label => ?_⟩
    exact congrArg₂ (power 0) (hfirst.within .atom _) (hlast.within .power _)
  | call l callee argument ih =>
    obtain ⟨⟨function, rfl⟩, hargument⟩ := Every.call_iff.mp h
    obtain ⟨p, hp, hwritten⟩ := ih hargument
    refine ⟨_, Algebra.fold_call hp l _, fun label => ?_⟩
    exact congrArg (call 0 (.builtin function)) (hwritten.within .sum _)

theorem Canonical.writable (h : e.Canonical store) : e.Every Writable := by
  refine Every.mono h fun node hnode => ?_
  cases node with
  | const l v =>
    refine ⟨hnode.1, ?_⟩
    intro hzero
    subst hzero
    exact absurd hnode.2 (by decide +kernel)
  | var l n => exact ⟨hnode.1, hnode.2.1⟩
  | call l callee argument => exact hnode
  | chain | power => trivial

theorem Canonical.settled (h : e.Canonical store) : e.Every (Settled store) := by
  refine Every.mono h fun node hnode => ?_
  cases node with
  | const l v => exact Binary64.beq_self hnode.1
  | var l n => exact hnode.2.2
  | chain | power | call => trivial

theorem unlabelledTerms_of_sameTerms {s t : Store} {a b : List (Sign × Expr)}
    (h : ∀ x ∈ a, ∀ y ∈ b, same s t x.2 y.2 = true → x.2.unlabelled = y.2.unlabelled)
    (hab : sameTerms s t a b = true) : unlabelledTerms a = unlabelledTerms b := by
  induction a generalizing b with
  | nil =>
    cases b with
    | nil => rfl
    | cons y b => simp [sameTerms] at hab
  | cons x a ih =>
    cases b with
    | nil => simp [sameTerms] at hab
    | cons y b =>
      obtain ⟨p, e⟩ := x
      obtain ⟨q, f⟩ := y
      simp only [sameTerms, Bool.and_eq_true, beq_iff_eq] at hab
      obtain ⟨⟨rfl, hhead⟩, htail⟩ := hab
      have hef := h (p, e) (by simp) (p, f) (by simp) hhead
      have hrest := ih (fun x hx y hy => h x (by simp [hx]) y (by simp [hy])) htail
      rw [unlabelledTerms, unlabelledTerms, hef, hrest]

/-- Structurally equal trees that reading can make have one shape. -/
theorem Canonical.unlabelled_eq {s t : Store} {a b : Expr} (ha : a.Canonical s)
    (hb : b.Canonical t) (h : same s t a b = true) : a.unlabelled = b.unlabelled := by
  induction a using induct generalizing b with
  | const l v =>
    cases b with
    | const k w =>
      obtain ⟨hv, hvsign⟩ := Every.const_iff.mp ha
      obtain ⟨hw, hwsign⟩ := Every.const_iff.mp hb
      rw [unlabelled, unlabelled, Binary64.eq_of_beq hv hvsign hw hwsign h]
    | chain | var | power | call => simp [same] at h
  | var l n =>
    cases b with
    | var k m =>
      simp only [same, Bool.and_eq_true, beq_iff_eq] at h
      rw [unlabelled, unlabelled, h.1]
    | chain | const | power | call => simp [same] at h
  | chain l family o p e rest ihe ihrest =>
    cases b with
    | chain k f q first rest' =>
      obtain ⟨r, e'⟩ := first
      simp only [same, Bool.and_eq_true, beq_iff_eq] at h
      obtain ⟨⟨⟨⟨rfl, rfl⟩, rfl⟩, he⟩, hterms⟩ := h
      obtain ⟨-, hae, harest⟩ := Every.chain_iff.mp ha
      obtain ⟨-, hbe, hbrest⟩ := Every.chain_iff.mp hb
      have hrest := unlabelledTerms_of_sameTerms
        (fun x hx y hy hxy => ihrest x hx (harest x hx) (hbrest y hy) hxy) hterms
      rw [unlabelled, unlabelled, ihe hae hbe he, hrest]
    | const | var | power | call => simp [same] at h
  | power l base exponent ihbase ihexponent =>
    cases b with
    | power k base' exponent' =>
      simp only [same, Bool.and_eq_true] at h
      obtain ⟨-, habase, haexponent⟩ := Every.power_iff.mp ha
      obtain ⟨-, hbbase, hbexponent⟩ := Every.power_iff.mp hb
      rw [unlabelled, unlabelled, ihbase habase hbbase h.1, ihexponent haexponent hbexponent h.2]
    | chain | const | var | call => simp [same] at h
  | call l callee argument ih =>
    cases b with
    | call k callee' argument' =>
      simp only [same, Bool.and_eq_true, beq_iff_eq] at h
      obtain ⟨rfl, hargument⟩ := h
      rw [unlabelled, unlabelled, ih (Every.call_iff.mp ha).2 (Every.call_iff.mp hb).2 hargument]
    | chain | const | var | power => simp [same] at h

/-- A canonical tree is written, and what is read again has its shape. -/
theorem Canonical.exists_reread (h : e.Canonical store) :
    ∃ text, e.render = .ok text ∧ ∀ label, ∃ r, Rooted.ofText label text = .ok r ∧
      r.root.unlabelled = e.unlabelled := by
  obtain ⟨text, p, hrender, hp, hlexes⟩ := exists_render h.writable
  obtain ⟨p', hp', hwritten⟩ := h.writtenAs
  obtain rfl : p = p' := Except.ok.inj (hp.symm.trans hp')
  refine ⟨text, hrender, fun label => ?_⟩
  obtain ⟨free, hread⟩ := Rooted.ofText_of_lexes hlexes label
  exact ⟨_, hread, hwritten.within .sum label⟩

theorem render_congr {a b : Expr} (h : a.unlabelled = b.unlabelled) : a.render = b.render := by
  have hvar : ∀ l k n, textAlgebra.var l n = textAlgebra.var k n := fun _ _ _ => rfl
  rw [render_eq_fold, render_eq_fold, ← Algebra.fold_unlabelled hvar a,
    ← Algebra.fold_unlabelled hvar b, h]

end Expr

/-- What is read from a text is canonical, every canonical tree is written as a text from
which a structurally equal tree is read, and so what is written of a tree that was read
is written again of what is read from it. -/
theorem ofText_render :
    (∀ label text r, Rooted.ofText label text = .ok r → r.root.Canonical r.store) ∧
    (∀ (e : Expr) (store : Store), e.Canonical store →
      ∃ text, e.render = .ok text ∧ ∀ label, ∃ r, Rooted.ofText label text = .ok r ∧
        Expr.same r.store store r.root e = true) ∧
    (∀ label text r, Rooted.ofText label text = .ok r →
      ∃ text', r.root.render = .ok text' ∧ ∀ label', ∃ r', Rooted.ofText label' text' = .ok r' ∧
        r'.root.render = .ok text') := by
  refine ⟨fun _ _ _ h => Rooted.canonical_of_ofText h, ?_, ?_⟩
  · intro e store h
    obtain ⟨text, hrender, hread⟩ := h.exists_reread
    refine ⟨text, hrender, fun label => ?_⟩
    obtain ⟨r, hr, hshape⟩ := hread label
    have hcanonical := Rooted.canonical_of_ofText hr
    exact ⟨r, hr, Expr.same_of_unlabelled hcanonical.settled h.settled hshape⟩
  · intro label text r h
    obtain ⟨text', hrender, hread⟩ := (Rooted.canonical_of_ofText h).exists_reread
    refine ⟨text', hrender, fun label' => ?_⟩
    obtain ⟨r', hr', hshape⟩ := hread label'
    exact ⟨r', hr', (Expr.render_congr hshape).trans hrender⟩

/-- The tree of `-2 ^ x + (3 + x)`, whose leading minus opens a subtraction that the plus
goes on, and what is read from its text. -/
theorem ofText_render_opened :
    let e : Expr := .chain 0 .sum .minus (.minus, .power 1 (.const 2 2.0) (.var 3 "x"))
      [(.plus, .chain 4 .sum .plus (.plus, .const 5 3.0) [(.plus, .var 3 "x")])]
    e.Canonical Store.empty ∧ ∃ text, e.render = .ok text ∧ ∃ r, Rooted.ofText 6 text = .ok r ∧
      Expr.same r.store Store.empty r.root e = true ∧ r.root.Canonical r.store ∧
      ∃ text', r.root.render = .ok text' ∧ ∃ r', Rooted.ofText 9 text' = .ok r' ∧
        r'.root.render = .ok text' := by
  intro e
  have hname : Lexer.IsName "x" := ⟨'x', [], rfl, by decide, by simp⟩
  have hnumbers : ((2.0 : Float).isNaN = false ∧ Arithmetic.signOf 2.0 = .plus) ∧
      (3.0 : Float).isNaN = false ∧ Arithmetic.signOf 3.0 = .plus := by decide +kernel
  have hcanonical : e.Canonical Store.empty := by
    simp [e, Expr.Canonical, Expr.Every, Expr.preorder, Expr.preorderTerms, Expr.Readable,
      Expr.Opened, Expr.IsChain, hname, hnumbers, Store.get_empty]
    decide
  obtain ⟨text, hrender, hread⟩ := ofText_render.2.1 e Store.empty hcanonical
  obtain ⟨r, hr, hsame⟩ := hread 6
  obtain ⟨text', hrender', hread'⟩ := ofText_render.2.2 6 text r hr
  obtain ⟨r', hr', hagain⟩ := hread' 9
  exact ⟨hcanonical, text, hrender, r, hr, hsame, ofText_render.1 6 text r hr, text', hrender',
    r', hr', hagain⟩

end Reckoner
