import Reckoner.Proofs.Grammar.Phrase
import Reckoner.Proofs.Lexing
import Reckoner.Proofs.Machines
import Reckoner.Proofs.Simulation

/-!
The phrase a tree is written as. Where the text of a tree puts brackets, the phrase is
bracketed, and a chain is put together term by term; so the text is read as the word of
the phrase.
-/

namespace Reckoner

structure Piece where
  level : Level
  phrase : Phrase level

namespace Piece

def asAtom : Piece → Phrase .atom
  | ⟨.atom, a⟩ => a
  | ⟨.power, f⟩ => .bracketed (.signed none (.factor f))
  | ⟨.product, t⟩ => .bracketed (.signed none t)
  | ⟨.sum, e⟩ => .bracketed e

def asPower : Piece → Phrase .power
  | ⟨.power, f⟩ => f
  | p => .argument p.asAtom

def asProduct : Piece → Phrase .product
  | ⟨.product, t⟩ => t
  | p => .factor p.asPower

def asSum : Piece → Phrase .sum
  | ⟨.sum, e⟩ => e
  | p => .signed none p.asProduct

def within (p : Piece) : (level : Level) → Phrase level
  | .sum => p.asSum
  | .product => p.asProduct
  | .power => p.asPower
  | .atom => p.asAtom

/-- A constant with the sign bit set is written as the negation of its magnitude. -/
def ofConst (v : Float) : Piece :=
  match Arithmetic.signOf v with
  | .plus => ⟨.atom, .number v⟩
  | .minus => ⟨.sum, .signed (some .minus) (.factor (.argument (.number (-v))))⟩

def firstTerm : (family : Family) → Sign × Piece → Phrase family.level
  | .sum, (.plus, p) => p.within .sum
  | .sum, (.minus, p) => .signed (some .minus) (p.within .product)
  | .product, (.plus, p) => p.within .product
  | .product, (.minus, p) =>
      .product (.factor (.argument (.number 1.0))) .minus none (p.within .power)

def addTerm : (family : Family) → Phrase family.level → Sign × Piece → Phrase family.level
  | .sum, soFar, (s, p) => .sum soFar s (p.within .product)
  | .product, soFar, (s, p) => .product soFar s none (p.within .power)

def ofChain (family : Family) (first : Sign × Piece) (rest : List (Sign × Piece)) : Piece :=
  ⟨family.level, rest.foldl (addTerm family) (firstTerm family first)⟩

def ofPower (base exponent : Piece) : Piece :=
  ⟨.power, .power (base.within .atom) none (exponent.within .power)⟩

def ofCall : Callee → Piece → Except Fault Piece
  | .builtin function, p => .ok ⟨.atom, .call function (.bracketed (p.within .sum))⟩
  | .unknown name, _ => .error (.unknownFunction name)

variable (p : Piece)

theorem word_within (level : Level) : (p.within level).word =
    if level.rank ≤ p.level.rank then p.phrase.word
    else .openBracket :: (p.phrase.word ++ [.closeBracket]) := by
  obtain ⟨tight, phrase⟩ := p
  cases tight <;> cases level <;> rfl

theorem word_addTerm (family : Family) (soFar : Phrase family.level) (sign : Sign) :
    (addTerm family soFar (sign, p)).word =
      soFar.word ++ .operator family sign :: (p.within (Rendered.termLevel family)).word := by
  cases family <;> rfl

theorem value_within (env : String → Float) (level : Level) :
    (p.within level).value env = p.phrase.value env := by
  obtain ⟨tight, phrase⟩ := p
  cases tight <;> cases level <;> rfl

end Piece

def phrasing : Algebra Piece where
  const v := if v.isNaN then .error .unwritable else .ok (Piece.ofConst v)
  var _ n := ⟨.atom, .name n⟩
  chain := Piece.ofChain
  power := Piece.ofPower
  call := Piece.ofCall
  tooFew := .tooFewTexts
  notOne := .notOneText

theorem phrasing_const {v : Float} (h : v.isNaN = false) :
    phrasing.const v = .ok (Piece.ofConst v) :=
  if_neg (Bool.eq_false_iff.mp h)

namespace Lexer

variable {text text' : List Char} {word word' : List Symbol}

theorem lexes_nil : Lexes [] [] := by
  intro rest position _
  refine ⟨[], Spells.nil_iff.mpr rfl, ?_⟩
  change scan position 0 rest = (scan position 0 rest).map ([] ++ ·)
  cases scan position 0 rest <;> rfl

theorem lexes_operator (family : Family) (sign : Sign) (h : Lexes text word) :
    Lexes (family.symbol sign :: text) (.operator family sign :: word) := by
  cases family <;> cases sign <;> exact lexes_symbol rfl (fun _ => rfl) h

theorem lexes_one : Lexes ['1'] [.number 1.0] := by
  let w : Written := ⟨['1'], none, none⟩
  have hplain : w.Plain := ⟨by simp [w, Figures], by simp [w], by simp [w], by simp [w]⟩
  have hvalue : w.decimal.toFloat .plus = 1.0 := by decide +kernel
  rw [← hvalue]
  exact lexes_number hplain

/-- The text between brackets. -/
theorem Lexes.bracket (h : Lexes text word) :
    Lexes ('(' :: (text ++ [')'])) (.openBracket :: (word ++ [.closeBracket])) := by
  have hclose : Lexes [')'] [.closeBracket] := lexes_symbol rfl (fun _ => rfl) lexes_nil
  have hstops : Stops [')'] := stops_cons (by decide) []
  exact lexes_symbol rfl (fun _ => rfl) (h.append hclose (by simp) hstops)

/-- An operator with spaces around it, between two texts. -/
theorem Lexes.operator (h : Lexes text word) (h' : Lexes text' word') (family : Family)
    (sign : Sign) : Lexes (text ++ ' ' :: family.symbol sign :: ' ' :: text')
      (word ++ .operator family sign :: word') := by
  have hoperator : Lexes (' ' :: family.symbol sign :: ' ' :: text')
      (.operator family sign :: word') :=
    lexes_layout rfl (lexes_operator family sign (lexes_layout rfl h'))
  have hstops : Stops (' ' :: family.symbol sign :: ' ' :: text') := stops_cons (by decide) _
  exact h.append hoperator (by simp) hstops

theorem Lexes.caret (h : Lexes text word) (h' : Lexes text' word') :
    Lexes (text ++ '^' :: text') (word ++ .caret :: word') := by
  have hstops : Stops ('^' :: text') := stops_cons (by decide) text'
  exact h.append (lexes_symbol rfl (fun _ => rfl) h') (by simp) hstops

end Lexer

structure Rendered.Writes (r : Rendered) (p : Piece) : Prop where
  level : r.level = p.level
  lexes : Lexer.Lexes r.text.toList p.phrase.word

namespace Rendered

open Lexer

variable {r r' : Rendered} {p p' : Piece}

theorem Writes.within (h : r.Writes p) (level : Level) :
    Lexes (r.within level).toList (p.within level).word := by
  rw [Rendered.within, Piece.word_within, h.level]
  split
  · exact h.lexes
  · simpa using h.lexes.bracket

theorem within_sum (r : Rendered) : r.within .sum = r.text :=
  if_pos (by cases r.level <;> decide)

theorem lexes_firstTerm (h : r.Writes p) (family : Family) (sign : Sign) :
    Lexes (firstTerm family (sign, r)).toList (Piece.firstTerm family (sign, p)).word := by
  cases family with
  | sum =>
    cases sign with
    | plus =>
      have hsum := h.within .sum
      rwa [within_sum] at hsum
    | minus =>
      have htext : (firstTerm .sum (.minus, r)).toList = '-' :: (r.within .product).toList := by
        simp [firstTerm]
      rw [htext]
      exact lexes_operator .sum .minus (h.within .product)
  | product =>
    cases sign with
    | plus => exact h.within .product
    | minus =>
      have htext : (firstTerm .product (.minus, r)).toList =
          ['1'] ++ ' ' :: '/' :: ' ' :: (r.within .power).toList := by
        simp [firstTerm]
      rw [htext]
      exact lexes_one.operator (h.within .power) .product .minus

theorem lexes_laterTerm {soFar : String} {family : Family} {q : Phrase family.level}
    (hsoFar : Lexes soFar.toList q.word) (h : r.Writes p) (sign : Sign) :
    Lexes (soFar ++ laterTerm family (sign, r)).toList
      (Piece.addTerm family q (sign, p)).word := by
  have hoperator := hsoFar.operator (h.within (termLevel family)) family sign
  rw [Piece.word_addTerm]
  simpa [laterTerm] using hoperator

theorem lexes_terms {family : Family} {rest : List (Sign × Rendered)}
    {pieces : List (Sign × Piece)} (hrest : Algebra.RelatedTerms Writes rest pieces)
    {soFar : String} {q : Phrase family.level} (hsoFar : Lexes soFar.toList q.word) :
    Lexes (rest.foldl (fun text term => text ++ laterTerm family term) soFar).toList
      (pieces.foldl (Piece.addTerm family) q).word := by
  induction hrest generalizing soFar q with
  | nil => exact hsoFar
  | @cons term piece rest pieces hterm hrest ih =>
    obtain ⟨sign, r⟩ := term
    obtain ⟨sign', p⟩ := piece
    obtain ⟨rfl, hwrites⟩ := hterm
    exact ih (lexes_laterTerm hsoFar hwrites sign)

theorem writes_ofChain (h : r.Writes p) {rest : List (Sign × Rendered)}
    {pieces : List (Sign × Piece)} (hrest : Algebra.RelatedTerms Writes rest pieces)
    (family : Family) (sign : Sign) :
    (ofChain family (sign, r) rest).Writes (Piece.ofChain family (sign, p) pieces) :=
  ⟨rfl, lexes_terms hrest (lexes_firstTerm h family sign)⟩

theorem writes_ofPower (h : r.Writes p) (h' : r'.Writes p') :
    (ofPower r r').Writes (Piece.ofPower p p') := by
  have htext : (ofPower r r').text.toList =
      (r.within .atom).toList ++ '^' :: (r'.within .power).toList := by
    simp [ofPower]
  refine ⟨rfl, ?_⟩
  rw [htext]
  exact (h.within .atom).caret (h'.within .power)

theorem writes_call (h : r.Writes p) (function : Builtin) :
    Writes ⟨function.name ++ "(" ++ r.text ++ ")", .atom⟩
      ⟨.atom, .call function (.bracketed (p.within .sum))⟩ := by
  have hargument := (h.within .sum).bracket
  rw [within_sum] at hargument
  have hstops : Stops ('(' :: (r.text.toList ++ [')'])) := stops_cons (by decide) _
  have htext : (function.name ++ "(" ++ r.text ++ ")").toList =
      function.name.toList ++ '(' :: (r.text.toList ++ [')']) := by
    simp
  refine ⟨rfl, ?_⟩
  rw [htext]
  exact (lexes_function function).append hargument (by simp) hstops

/-- A constant other than the negative zero and what is not a number. -/
theorem exists_writes_ofConst {v : Float} (hnan : v.isNaN = false) (hzero : v ≠ -0.0) :
    ∃ r, ofConst v = .ok r ∧ r.Writes (Piece.ofConst v) := by
  obtain ⟨sign, magnitude, hle, rfl⟩ := Binary64.exists_toFloat hnan
  have hmagnitude : sign = .plus ∨ magnitude ≠ 0 := by
    cases sign with
    | plus => exact .inl rfl
    | minus =>
      refine .inr fun h => hzero ?_
      subst h
      decide +kernel
  obtain ⟨w, hplain, hliteral, hbits⟩ := Numeral.exists_written_literal? sign hle hmagnitude
  obtain ⟨c, cs, hcons, hfigure⟩ := Written.text_eq_cons hplain
  have hnumber := lexes_number hplain
  have hvalue : w.decimal.toFloat .plus = Binary64.toFloat .plus magnitude := by
    rw [Decimal.toFloat, hbits]
  rw [hvalue] at hnumber
  have hsign := Binary64.signOf_toFloat sign hle
  cases sign with
  | plus =>
    have hc : c ≠ '-' := by
      intro heq
      subst heq
      exact absurd hfigure (by decide)
    refine ⟨⟨String.ofList w.text, .atom⟩, ?_, ?_⟩
    · simp [ofConst, hliteral, Numeral.signed, hcons, hc]
    · rw [Piece.ofConst, hsign]
      refine ⟨rfl, ?_⟩
      rw [String.toList_ofList]
      exact hnumber
  | minus =>
    refine ⟨⟨String.ofList ('-' :: w.text), .sum⟩, ?_, ?_⟩
    · simp [ofConst, hliteral, Numeral.signed]
    · rw [Piece.ofConst, hsign, Binary64.neg_toFloat .minus hle]
      refine ⟨rfl, ?_⟩
      rw [String.toList_ofList]
      exact lexes_operator .sum .minus hnumber

end Rendered

/-- A number is written unless it is the negative zero or not a number, a name unless
it is a function's, and a function if it is known. -/
def Expr.Writable : Expr → Prop
  | .const _ v => v.isNaN = false ∧ v ≠ -0.0
  | .var _ n => Lexer.IsName n ∧ Builtin.ofName? n = none
  | .call _ callee _ => ∃ function, callee = .builtin function
  | _ => True

theorem related_texts_phrasing :
    Algebra.Related Expr.Writable Rendered.Writes textAlgebra phrasing where
  const := by
    intro l v hnode
    obtain ⟨hnan, hzero⟩ := hnode
    obtain ⟨r, hr, hwrites⟩ := Rendered.exists_writes_ofConst hnan hzero
    exact ⟨r, Piece.ofConst v, hr, phrasing_const hnan, hwrites⟩
  var := by
    intro l n hnode
    obtain ⟨hname, hfunction⟩ := hnode
    exact ⟨rfl, Lexer.lexes_name hname hfunction⟩
  chain h hrest := Rendered.writes_ofChain h hrest _ _
  power h h' := Rendered.writes_ofPower h h'
  call := by
    intro l callee e r p hnode h
    obtain ⟨function, rfl⟩ := hnode
    exact ⟨_, _, rfl, rfl, Rendered.writes_call h function⟩

end Reckoner
