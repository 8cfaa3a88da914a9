import Reckoner.Proofs.Grammar.Value
import Reckoner.Proofs.Rendering.Phrasing
import Reckoner.Proofs.Rendering.Unwritable

/-!
A tree is written as a text that is worth the same. The operations of the phrase are
those of the tree in the same order; what the phrase has besides, brackets and the one
that a leading division divides, changes no value.
-/

namespace Reckoner

namespace Piece

variable {p p' : Piece} {v w : Float} {env : String → Float}

theorem value_ofConst (env : String → Float) (hnan : v.isNaN = false) :
    (ofConst v).phrase.value env = v := by
  obtain ⟨sign, magnitude, hle, rfl⟩ := Binary64.exists_toFloat hnan
  have hsign := Binary64.signOf_toFloat sign hle
  cases sign with
  | plus =>
    rw [ofConst, hsign]
    rfl
  | minus =>
    rw [ofConst, hsign]
    change - -Binary64.toFloat .minus magnitude = _
    rw [Binary64.neg_toFloat .minus hle]
    exact Binary64.neg_toFloat .plus hle

theorem value_firstTerm (family : Family) (sign : Sign) (h : p.phrase.value env = v) :
    (firstTerm family (sign, p)).value env = opening family (sign, v) := by
  subst h
  cases family with
  | sum =>
    cases sign with
    | plus => exact p.value_within env .sum
    | minus => exact congrArg (- ·) (p.value_within env .product)
  | product =>
    cases sign with
    | plus => exact p.value_within env .product
    | minus => exact congrArg (Arithmetic.divide 1.0 ·) (p.value_within env .power)

theorem value_addTerm (family : Family) (soFar : Phrase family.level) (sign : Sign)
    (h : p.phrase.value env = v) :
    (addTerm family soFar (sign, p)).value env =
      accumulate family (soFar.value env) (sign, v) := by
  subst h
  cases family with
  | sum =>
    have hterm := p.value_within env .product
    cases sign with
    | plus => exact congrArg (soFar.value env + ·) hterm
    | minus => exact congrArg (soFar.value env - ·) hterm
  | product =>
    have hterm := p.value_within env .power
    cases sign with
    | plus => exact congrArg (soFar.value env * ·) hterm
    | minus => exact congrArg (Arithmetic.divide (soFar.value env) ·) hterm

/-- A chain is worked out in the order of its terms. -/
theorem value_terms {family : Family} {pieces : List (Sign × Piece)} {rest : List (Sign × Float)}
    (hrest : Algebra.RelatedTerms (fun p v => p.phrase.value env = v) pieces rest)
    (soFar : Phrase family.level) :
    (pieces.foldl (addTerm family) soFar).value env =
      rest.foldl (accumulate family) (soFar.value env) := by
  induction hrest generalizing soFar with
  | nil => rfl
  | @cons piece term pieces rest hterm hrest ih =>
    obtain ⟨sign, p⟩ := piece
    obtain ⟨sign', v⟩ := term
    obtain ⟨rfl, hvalue⟩ := hterm
    rw [List.foldl_cons, List.foldl_cons, ih, value_addTerm family soFar sign hvalue]

end Piece

/-- The phrase of a tree is worth what the tree is worth. -/
theorem related_phrasing_values (store : Store) (env : String → Float) :
    Algebra.Related (fun node => node.Writable ∧ Expr.Worth store env node)
      (fun p v => p.phrase.value env = v) phrasing (valueAlgebra store) where
  const := by
    intro l v hnode
    have hnan := hnode.1.1
    exact ⟨Piece.ofConst v, v, phrasing_const hnan, rfl, Piece.value_ofConst env hnan⟩
  var := by
    intro l n hnode
    exact hnode.2.symm
  chain := by
    intro family sign p v pieces rest hfirst hrest
    change (pieces.foldl (Piece.addTerm family) _).value env = _
    rw [Piece.value_terms hrest, Piece.value_firstTerm family sign hfirst]
    rfl
  power := by
    intro p v p' v' hp hp'
    subst hp hp'
    change Arithmetic.power ((p.within .atom).value env) ((p'.within .power).value env) = _
    rw [Piece.value_within, Piece.value_within]
    rfl
  call := by
    intro l callee e p v hnode hp
    obtain ⟨⟨function, rfl⟩, -⟩ := hnode
    subst hp
    refine ⟨_, _, rfl, rfl, ?_⟩
    change Arithmetic.apply function ((p.within .sum).value env) = _
    rw [Piece.value_within]

/-- A text that is read as a phrase gives the tree of the phrase. -/
theorem Rooted.ofText_of_lexes {text : String} {p : Phrase .sum}
    (h : Lexer.Lexes text.toList p.word) (label : Nat) :
    ∃ free, Rooted.ofText label text = .ok ⟨p.tree label, Store.empty, free⟩ := by
  obtain ⟨tokens, hword, htokenize⟩ := h.tokenize
  let ends : List Token := [⟨.finish, "", text.toList.length⟩]
  have hends : Parser.Ended ends := by simp [ends, Parser.Ended]
  have hparse : Parser.parse label (tokens ++ ends) = .ok (p.tree label) :=
    Parser.parse_phrase p hword hends
  refine ⟨label + (tokens ++ ends).length, Rooted.ofText_eq_ok.mpr ⟨_, htokenize, ?_⟩⟩
  exact Rooted.ofTokens_eq_ok.mpr ⟨_, hparse, rfl⟩

namespace Expr

variable {root : Expr}

/-- What is written of a tree is read as the phrase of the tree. -/
theorem exists_render (h : root.Every Writable) :
    ∃ (text : String) (p : Piece), root.render = .ok text ∧ phrasing.fold root = .ok p ∧
      Lexer.Lexes text.toList (p.within .sum).word := by
  obtain ⟨r, p, hr, hp, hwrites⟩ := related_texts_phrasing.fold h
  refine ⟨r.text, p, ?_, hp, ?_⟩
  · rw [render_eq_fold, hr]
    rfl
  · have hsum := hwrites.within .sum
    rwa [Rendered.within_sum] at hsum

/-- Bound alike, the tree and what is read from its text are worth the same. -/
theorem exists_reread (h : root.Every Writable) (hconsistent : root.Consistent) (store : Store) :
    ∃ text, root.render = .ok text ∧ ∀ label, ∃ r, Rooted.ofText label text = .ok r ∧
      ∀ bindings : Bindings, (∀ l n, var l n ∈ root.preorder → bindings[n]?.isSome) →
        ∃ v, root.evaluate (root.bindAll bindings store).2 = .ok v ∧
          r.root.evaluate (r.root.bindAll bindings r.store).2 = .ok v := by
  obtain ⟨text, p, hrender, hp, hlexes⟩ := exists_render h
  refine ⟨text, hrender, fun label => ?_⟩
  obtain ⟨free, hread⟩ := Rooted.ofText_of_lexes hlexes label
  refine ⟨_, hread, fun bindings hbound => ?_⟩
  let env : String → Float := fun n => bindings.getD n 0.0
  have hagrees : Agrees (root.bindAll bindings store).2 env root := by
    refine agrees_bindAll hconsistent bindings fun l n hmem hnone => ?_
    have hsome := hbound l n hmem
    rw [hnone] at hsome
    exact absurd hsome (by simp)
  have hworth : root.Every fun node => node.Writable ∧
      Worth (root.bindAll bindings store).2 env node :=
    fun node hnode => ⟨h node hnode, hagrees node hnode⟩
  obtain ⟨p', v, hp', hv, hvalue⟩ := (related_phrasing_values _ env).fold hworth
  obtain rfl : p = p' := Except.ok.inj (hp.symm.trans hp')
  refine ⟨v, ?_, ?_⟩
  · rw [evaluate_eq_fold, hv]
  · have hreread : Agrees (((p.within .sum).tree label).bindAll bindings Store.empty).2 env
        ((p.within .sum).tree label) :=
      agrees_bindAll (Consistent.of_nodup ((p.within .sum).distinct_tree label)) bindings
        fun l _ _ _ => Store.get_empty l
    rw [evaluate_eq_fold, Phrase.fold_tree _ hreread, Piece.value_within, hvalue]

theorem mem_names {l : Label} {n : String} (h : var l n ∈ root.preorder) : n ∈ root.names := by
  rw [names, List.mem_eraseDups]
  exact List.mem_filterMap.mpr ⟨_, h, rfl⟩

end Expr

/-- A tree put together from parts, if it can be written at all, is written as a text
whose tree is worth the same under the same values for its names; a constant that is
not a number stops the writing. -/
theorem render_ofParts {label : Nat} {parts : List Part} {r : Rooted}
    (h : Rooted.ofParts label parts = .ok r) :
    (r.root.Every Expr.Writable →
      ∃ text, r.root.render = .ok text ∧
        ∀ label', ∃ r', Rooted.ofText label' text = .ok r' ∧
          ∀ bindings : Bindings, (∀ n ∈ r.root.names, n ∈ bindings) →
            ∃ v, r.root.evaluate (r.root.bindAll bindings r.store).2 = .ok v ∧
              r'.root.evaluate (r'.root.bindAll bindings r'.store).2 = .ok v) ∧
    (r.root.Every Expr.Known → (∃ l v, .const l v ∈ r.root.preorder ∧ v.isNaN = true) →
      r.root.render = .error .unwritable) := by
  constructor
  · intro hwritable
    have hconsistent := Rooted.consistent_of_ofParts h
    obtain ⟨text, hrender, hread⟩ := Expr.exists_reread hwritable hconsistent r.store
    refine ⟨text, hrender, fun label' => ?_⟩
    obtain ⟨r', hr', hvalue⟩ := hread label'
    refine ⟨r', hr', fun bindings hbound => hvalue bindings fun l n hmem => ?_⟩
    rw [← Std.TreeMap.mem_iff_isSome_getElem?]
    exact hbound n (Expr.mem_names hmem)
  · intro hknown hconst
    obtain ⟨l, v, hmem, hnan⟩ := hconst
    exact Expr.render_unwritable hknown hmem hnan

/-- The tree `1 / x - -2 + x`, an addition by its kind, with one node for both `x`; and a
chain of what is not a number, which is not written. -/
theorem render_shared_quotient_and_nan :
    (∃ r, Rooted.ofParts 0 [.var "x" 0.0, .chain .product .minus [(0, .minus)], .const (-2.0),
        .chain .sum .plus [(1, .plus), (2, .minus), (0, .plus)]] = .ok r ∧
      ∃ text, r.root.render = .ok text ∧ ∃ r', Rooted.ofText 4 text = .ok r' ∧
        ∃ v, r.root.evaluate (r.root.bindAll (Bindings.ofPairs [("x", 0.5)]) r.store).2 = .ok v ∧
          r'.root.evaluate (r'.root.bindAll (Bindings.ofPairs [("x", 0.5)]) r'.store).2 =
            .ok v) ∧
    ∃ r, Rooted.ofParts 0 [.const (0.0 / 0.0), .chain .sum .plus [(0, .plus)]] = .ok r ∧
      r.root.render = .error .unwritable := by
  constructor
  · have hparts : Rooted.ofParts 0 [.var "x" 0.0, .chain .product .minus [(0, .minus)],
        .const (-2.0), .chain .sum .plus [(1, .plus), (2, .minus), (0, .plus)]] = .ok _ := rfl
    have hname : Lexer.IsName "x" := ⟨'x', [], rfl, by decide, by simp⟩
    have htwo : (-2.0 : Float).isNaN = false ∧ (-2.0 : Float) ≠ -0.0 := by decide +kernel
    have hwritable : Expr.Every Expr.Writable (.chain 3 .sum .plus
        (.plus, .chain 1 .product .minus (.minus, .var 0 "x") [])
        [(.minus, .const 2 (-2.0)), (.plus, .var 0 "x")]) := by
      simp [Expr.Every, Expr.preorder, Expr.preorderTerms, Expr.Writable, hname, htwo]
      decide
    obtain ⟨text, hrender, hread⟩ := (render_ofParts hparts).1 hwritable
    obtain ⟨r', hr', hvalue⟩ := hread 4
    exact ⟨_, hparts, text, hrender, r', hr', hvalue _ (by decide)⟩
  · have hparts : Rooted.ofParts 0 [.const (0.0 / 0.0), .chain .sum .plus [(0, .plus)]] = .ok _ :=
      rfl
    have hnan : (0.0 / 0.0 : Float).isNaN = true := by decide +kernel
    let root : Expr := .chain 1 .sum .plus (.plus, .const 0 (0.0 / 0.0)) []
    have hknown : root.Every Expr.Known := by
      simp [root, Expr.Every, Expr.preorder, Expr.preorderTerms, Expr.Known]
    have hmem : Expr.const 0 (0.0 / 0.0) ∈ root.preorder := by simp [root, Expr.preorder]
    exact ⟨_, hparts, (render_ofParts hparts).2 hknown ⟨0, _, hmem, hnan⟩⟩

end Reckoner
