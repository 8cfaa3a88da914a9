import Reckoner.Number.Decimal
import Reckoner.Text.Blank
import Reckoner.Text.Digit

/-!
Reading a number from a whole text. Blanks around it are dropped and a sign may
stand in front. Then comes a decimal, whose digits may be of any script and may
be grouped by single underscores, or one of the words for infinity and for not a
number, in any mixture of cases. The text must end there.
-/

namespace Reckoner.Reading

open Text

/-- The digits that go on a run already begun, and what follows them. An
underscore between two digits is passed over. -/
def moreDigits : List Char → List Nat × List Char
  | '_' :: c :: rest =>
      match digit? c with
      | some d => let (ds, left) := moreDigits rest; (d :: ds, left)
      | none => ([], '_' :: c :: rest)
  | c :: rest =>
      match digit? c with
      | some d => let (ds, left) := moreDigits rest; (d :: ds, left)
      | none => ([], c :: rest)
  | [] => ([], [])

def digits : List Char → List Nat × List Char
  | c :: rest =>
      match digit? c with
      | some d => let (ds, left) := moreDigits rest; (d :: ds, left)
      | none => ([], c :: rest)
  | [] => ([], [])

def value (ds : List Nat) : Nat := ds.foldl (fun n d => 10 * n + d) 0

def sign : List Char → Sign × List Char
  | '+' :: rest => (.plus, rest)
  | '-' :: rest => (.minus, rest)
  | text => (.plus, text)

def exponent? : List Char → Option Int
  | [] => some 0
  | c :: rest =>
      if c == 'e' || c == 'E' then
        match sign rest with
        | (s, body) =>
            match digits body with
            | (d :: ds, []) =>
                match s with
                | .plus => some (value (d :: ds))
                | .minus => some (-value (d :: ds))
            | _ => none
      else none

def fraction : List Char → List Nat × List Char
  | '.' :: rest => digits rest
  | text => ([], text)

/-- An unsigned decimal: digits with at most one point among them, at least one
digit in all, then the exponent. -/
def decimal? (text : List Char) : Option Decimal :=
  let (whole, afterWhole) := digits text
  let (part, afterPart) := fraction afterWhole
  if whole.isEmpty && part.isEmpty then none
  else (exponent? afterPart).map fun e => ⟨value (whole ++ part), e - part.length⟩

def word? (text : List Char) : Option Nat :=
  let letters := text.map Char.toLower
  if letters = "inf".toList || letters = "infinity".toList then some Binary64.infinityBits
  else if letters = "nan".toList then some Binary64.nanBits
  else none

def number? (text : String) : Option Float :=
  let (s, body) := sign (trim isSpacing text.toList)
  match word? body with
  | some bits => some (Binary64.toFloat s bits)
  | none => (decimal? body).map (Decimal.toFloat s)

end Reckoner.Reading
