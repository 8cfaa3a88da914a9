import Reckoner.Expr.Basic
import Reckoner.Number.Reading
import Reckoner.ParseError

/-!
From tokens to a tree, one token at a time. The grammar, loosest first:

    expression    =  [sign] term  { (plus | minus) term }
    term          =  factor  { (star | slash) signed factor }
    signed factor =  [sign] factor
    factor        =  argument  [ caret signed factor ]
    argument      =  function argument  |  open expression close  |  number  |  name

Between tokens the parser holds the unfinished constructs around the place it has
reached, innermost first, and either waits for a value or holds one. An operator
finishes every construct that holds tighter than its own operands may, so powers
group to the right and the chains to the left. A node is labelled by the place in
the list of the token that makes it.
-/

namespace Reckoner

namespace TokenKind

def operator? : TokenKind → Option (Family × Sign)
  | plus => some (.sum, .plus)
  | minus => some (.sum, .minus)
  | star => some (.product, .plus)
  | slash => some (.product, .minus)
  | _ => none

def sign? : TokenKind → Option Sign
  | plus => some .plus
  | minus => some .minus
  | _ => none

end TokenKind

namespace Parser

/-- A construct that lacks its last operand. A sign stands before a term, at the level of sums,
or before a factor, at the level of powers. -/
inductive Frame
  | bracket (opening : Token)
  | sign (level : Level) (sign : Sign) (label : Label)
  | chain (family : Family) (soFar : Expr) (sign : Sign) (label : Label)
  | raise (base : Expr) (label : Label)
  | call (function : Builtin) (label : Label)

namespace Frame

def level? : Frame → Option Level
  | bracket _ => none
  | sign level _ _ => some level
  | chain family _ _ _ => some family.level
  | raise _ _ => some .power
  | call _ _ => some .atom

def fill : Frame → Expr → Expr
  | bracket _, e => e
  | sign _ .plus _, e => e
  | sign _ .minus label, e => e.negate label
  | chain family soFar s label, e => soFar.extend family label s e
  | raise base label, e => .power label base e
  | call function label, e => .call label (.builtin function) e

end Frame

/-- Finishes the innermost constructs down to the first that is looser than the level. -/
def settle (loosest : Level) : List Frame → Expr → List Frame × Expr
  | [], e => ([], e)
  | frame :: frames, e =>
      if frame.level?.any fun level => loosest.rank ≤ level.rank then
        settle loosest frames (frame.fill e)
      else (frame :: frames, e)

def close? : List Frame → Expr → Option (List Frame × Expr)
  | [], _ => none
  | .bracket _ :: frames, e => some (frames, e)
  | frame :: frames, e => close? frames (frame.fill e)

def complete : List Frame → Expr → Except Token Expr
  | [], e => .ok e
  | .bracket opening :: _, _ => .error opening
  | frame :: frames, e => complete frames (frame.fill e)

def enclosing? : List Frame → Option Token
  | [] => none
  | .bracket opening :: _ => some opening
  | _ :: frames => enclosing? frames

/-- The level of the sign that may come next: that of sums at the head of an
expression, that of powers after an operator whose operand may be signed. -/
def signLevel? : List Frame → Option Level
  | [] => some .sum
  | .bracket _ :: _ => some .sum
  | .chain .product _ _ _ :: _ => some .power
  | .raise _ _ :: _ => some .power
  | _ => none

inductive State
  | awaiting (frames : List Frame)
  | holding (frames : List Frame) (value : Expr)
  | finished (tree : Expr)

namespace State

def start : State := awaiting []

def finish (t : Token) : State → Except ParseError Expr
  | awaiting _ => .error (.missingValue t)
  | holding frames e =>
      match complete frames e with
      | .ok tree => .ok tree
      | .error opening => .error (.unclosedBracket opening t)
  | finished tree => .ok tree

def await (label : Label) (t : Token) (frames : List Frame) : Except ParseError State :=
  match t.kind with
  | .number =>
      match Reading.number? t.lexeme with
      | some v => .ok (holding frames (.const label v))
      | none => .error (.malformedNumber t)
  | .name => .ok (holding frames (.var label t.lexeme))
  | .function =>
      match Builtin.ofName? t.lexeme with
      | some function => .ok (awaiting (.call function label :: frames))
      | none => .error (.unknownFunction t)
  | .openBracket => .ok (awaiting (.bracket t :: frames))
  | kind =>
      match kind.sign?, signLevel? frames with
      | some sign, some level => .ok (awaiting (.sign level sign label :: frames))
      | _, _ => .error (.notAValue t)

def proceed (label : Label) (t : Token) (frames : List Frame) (e : Expr) :
    Except ParseError State :=
  match t.kind with
  | .caret =>
      let (outer, base) := settle .atom frames e
      .ok (awaiting (.raise base label :: outer))
  | .closeBracket =>
      match close? frames e with
      | some (outer, value) => .ok (holding outer value)
      | none => .error (.trailingToken t)
  | kind =>
      match kind.operator? with
      | some (family, sign) =>
          let (outer, soFar) := settle family.level frames e
          .ok (awaiting (.chain family soFar sign label :: outer))
      | none =>
          match enclosing? frames with
          | some opening => .error (.unclosedBracket opening t)
          | none => .error (.trailingToken t)

def step (label : Label) (t : Token) (s : State) : Except ParseError State :=
  if t.kind = .finish then (s.finish t).map finished
  else
    match s with
    | awaiting frames => await label t frames
    | holding frames e => proceed label t frames e
    | finished _ => .error (.tokenAfterEnd t)

def run (label : Label) (s : State) : List Token → Except ParseError State
  | [] => .ok s
  | t :: rest =>
      match s.step label t with
      | .ok next => next.run (label + 1) rest
      | .error e => .error e

end State

/-- The tree of a token list, its labels from `label` on. The list may lack its end. -/
def parse (label : Label) (tokens : List Token) : Except ParseError Expr :=
  match State.start.run label tokens with
  | .ok s => s.finish Token.absent
  | .error e => .error e

end Parser

end Reckoner
