import Reckoner.Evaluation
import Reckoner.Parser

/-!
Phrases of the grammar and how they are read. A phrase is a derivation: it shows
which construct every token of a word belongs to. Chains grow to the left, one
operand at a time, which is the order in which they are worked out; the levels are
those of the pieces of text a tree is written in. A phrase has a word, a value once
its variables have values, and a tree whose nodes are labelled by places in the word.
-/

namespace Reckoner

/-- What a token is to the grammar: its kind and what its text stands for. -/
inductive Symbol
  | operator (family : Family) (sign : Sign)
  | caret
  | openBracket
  | closeBracket
  | function (function : Builtin)
  | number (value : Float)
  | name (name : String)

namespace Token

def symbol? (t : Token) : Option Symbol :=
  match t.kind with
  | .finish => none
  | .plus => some (.operator .sum .plus)
  | .minus => some (.operator .sum .minus)
  | .star => some (.operator .product .plus)
  | .slash => some (.operator .product .minus)
  | .caret => some .caret
  | .openBracket => some .openBracket
  | .closeBracket => some .closeBracket
  | .function => (Builtin.ofName? t.lexeme).map .function
  | .number => (Reading.number? t.lexeme).map .number
  | .name => some (.name t.lexeme)

end Token

def Spells (tokens : List Token) (word : List Symbol) : Prop :=
  tokens.map Token.symbol? = word.map some

namespace Spells

variable {tokens : List Token} {word first last : List Symbol} {symbol : Symbol}

theorem nil_iff : Spells tokens [] ↔ tokens = [] := by
  simp [Spells]

theorem cons_iff : Spells tokens (symbol :: word) ↔
    ∃ t rest, tokens = t :: rest ∧ t.symbol? = some symbol ∧ Spells rest word := by
  simp only [Spells, List.map_cons, List.map_eq_cons_iff]

theorem append_iff : Spells tokens (first ++ last) ↔
    ∃ before after, tokens = before ++ after ∧ Spells before first ∧ Spells after last := by
  simp only [Spells, List.map_append, List.map_eq_append_iff]

theorem append {before after : List Token} (h : Spells before first) (h' : Spells after last) :
    Spells (before ++ after) (first ++ last) :=
  append_iff.mpr ⟨before, after, rfl, h, h'⟩

theorem length_eq (h : Spells tokens word) : tokens.length = word.length := by
  simpa using congrArg List.length h

end Spells

inductive Phrase : Level → Type
  | signed (sign : Option Sign) (term : Phrase .product) : Phrase .sum
  | sum (soFar : Phrase .sum) (sign : Sign) (term : Phrase .product) : Phrase .sum
  | factor (factor : Phrase .power) : Phrase .product
  | product (soFar : Phrase .product) (sign : Sign) (factorSign : Option Sign)
      (factor : Phrase .power) : Phrase .product
  | argument (argument : Phrase .atom) : Phrase .power
  | power (base : Phrase .atom) (exponentSign : Option Sign) (exponent : Phrase .power) :
      Phrase .power
  | call (function : Builtin) (argument : Phrase .atom) : Phrase .atom
  | bracketed (inner : Phrase .sum) : Phrase .atom
  | number (value : Float) : Phrase .atom
  | name (name : String) : Phrase .atom

namespace Phrase

def signWord : Option Sign → List Symbol
  | none => []
  | some sign => [.operator .sum sign]

def word : {level : Level} → Phrase level → List Symbol
  | _, signed sign t => signWord sign ++ t.word
  | _, sum p sign t => p.word ++ .operator .sum sign :: t.word
  | _, factor f => f.word
  | _, product p sign factorSign f =>
      p.word ++ .operator .product sign :: (signWord factorSign ++ f.word)
  | _, argument a => a.word
  | _, power b exponentSign e => b.word ++ .caret :: (signWord exponentSign ++ e.word)
  | _, call function a => .function function :: a.word
  | _, bracketed e => .openBracket :: (e.word ++ [.closeBracket])
  | _, number v => [.number v]
  | _, name n => [.name n]

def signedValue : Option Sign → Float → Float
  | some .minus, v => -v
  | _, v => v

/-- The value when every variable has the value the environment gives it: one
operation at a time, chains from left to right. -/
def value (env : String → Float) : {level : Level} → Phrase level → Float
  | _, signed sign t => signedValue sign (t.value env)
  | _, sum p .plus t => p.value env + t.value env
  | _, sum p .minus t => p.value env - t.value env
  | _, factor f => f.value env
  | _, product p .plus factorSign f =>
      p.value env * signedValue factorSign (f.value env)
  | _, product p .minus factorSign f =>
      Arithmetic.divide (p.value env) (signedValue factorSign (f.value env))
  | _, argument a => a.value env
  | _, power b exponentSign e =>
      Arithmetic.power (b.value env) (signedValue exponentSign (e.value env))
  | _, call function a => Arithmetic.apply function (a.value env)
  | _, bracketed e => e.value env
  | _, number v => v
  | _, name n => env n

/-- What is built after a sign, and the node the sign makes if it is a minus. -/
def signedTree (label : Label) : Option Sign → (Label → Expr) → Expr
  | none, build => build label
  | some .plus, build => build (label + 1)
  | some .minus, build => (build (label + 1)).negate label

/-- The tree the parser makes of the word when its first token has the given label. -/
def tree : {level : Level} → Phrase level → Label → Expr
  | _, signed sign t, label => signedTree label sign t.tree
  | _, sum p sign t, label =>
      (p.tree label).extend .sum (label + p.word.length) sign
        (t.tree (label + p.word.length + 1))
  | _, factor f, label => f.tree label
  | _, product p sign factorSign f, label =>
      (p.tree label).extend .product (label + p.word.length) sign
        (signedTree (label + p.word.length + 1) factorSign f.tree)
  | _, argument a, label => a.tree label
  | _, power b exponentSign e, label =>
      .power (label + b.word.length) (b.tree label)
        (signedTree (label + b.word.length + 1) exponentSign e.tree)
  | _, call function a, label => .call label (.builtin function) (a.tree (label + 1))
  | _, bracketed e, label => e.tree (label + 1)
  | _, number v, label => .const label v
  | _, name n, label => .var label n

end Phrase

end Reckoner
