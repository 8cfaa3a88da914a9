import Reckoner.Expr.Description
import Reckoner.Lexer
import Reckoner.Parser

/-!
Where trees come from: a text, a list of tokens, or a list of parts that refer to
earlier parts by index. A part referred to twice is one node at two positions, so
only parts can make shared nodes. Trees made one after the other take their labels
from disjoint ranges: every source tells the first label it leaves free.
-/

namespace Reckoner

inductive Part
  | const (value : Float)
  | var (name : String) (value : Float)
  | chain (family : Family) (opener : Sign) (terms : List (Nat × Sign))
  | power (base exponent : Nat)
  | call (callee : Callee) (argument : Nat)

inductive PartError
  | emptyChain (family : Family) (opener : Sign)
  | missingPart (index : Nat)
  deriving DecidableEq, Repr

namespace PartError

def message : PartError → String
  | emptyChain family opener => chainName family opener ++ " needs at least one term"
  | missingPart index => "no part " ++ toString index

end PartError

structure Assembly where
  nodes : Array Expr
  store : Store

namespace Assembly

def empty : Assembly := ⟨#[], Store.empty⟩

def node (a : Assembly) (index : Nat) : Except PartError Expr :=
  match a.nodes[index]? with
  | some e => .ok e
  | none => .error (.missingPart index)

def terms (a : Assembly) : List (Nat × Sign) → Except PartError (List (Sign × Expr))
  | [] => .ok []
  | (index, sign) :: rest => do
      let e ← a.node index
      let others ← a.terms rest
      return (sign, e) :: others

def make (a : Assembly) (label : Label) : Part → Except PartError Expr
  | .const v => .ok (.const label v)
  | .var name _ => .ok (.var label name)
  | .chain family opener parts => do
      match ← a.terms parts with
      | [] => throw (.emptyChain family opener)
      | first :: rest => return .chain label family opener first rest
  | .power base exponent => do
      let b ← a.node base
      let e ← a.node exponent
      return .power label b e
  | .call callee argument => do
      let e ← a.node argument
      return .call label callee e

def add (a : Assembly) (label : Label) (part : Part) : Except PartError Assembly := do
  let e ← a.make label part
  let store :=
    match part with
    | .var _ v => a.store.set label v
    | _ => a.store
  return ⟨a.nodes.push e, store⟩

def extend (a : Assembly) (label : Label) : List Part → Except PartError Assembly
  | [] => .ok a
  | part :: rest => do
      let next ← a.add label part
      next.extend (label + 1) rest

end Assembly

inductive SourceError
  | parse (error : ParseError)
  | part (error : PartError)
  deriving DecidableEq, Repr

/-- A tree with the values of its variables and the first label not in it. -/
structure Rooted where
  root : Expr
  store : Store
  free : Label

namespace Rooted

def ofTokens (label : Label) (tokens : List Token) : Except ParseError Rooted := do
  let root ← Parser.parse label tokens
  return ⟨root, Store.empty, label + tokens.length⟩

def ofText (label : Label) (text : String) : Except ParseError Rooted := do
  let tokens ← Lexer.tokenize text
  ofTokens label tokens

def ofParts (label : Label) (parts : List Part) : Except PartError Rooted := do
  let assembly ← Assembly.empty.extend label parts
  let root ← assembly.node (parts.length - 1)
  return ⟨root, assembly.store, label + parts.length⟩

end Rooted

inductive Source
  | text (text : String)
  | tokens (tokens : List Token)
  | parts (parts : List Part)

namespace Source

def build (label : Label) : Source → Except SourceError Rooted
  | text t => (Rooted.ofText label t).mapError .parse
  | tokens ts => (Rooted.ofTokens label ts).mapError .parse
  | parts ps => (Rooted.ofParts label ps).mapError .part

end Source

end Reckoner
