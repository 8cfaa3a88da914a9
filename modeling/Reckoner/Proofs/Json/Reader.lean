import Reckoner.Number.Reading
import Reckoner.Text.Json

/-!
A strict reader of JSON, for what is written in one line. It knows the values that are
written: objects, texts, numbers and null, with layout anywhere between them. A number has
no leading zeros, digits on both sides of its point, and no word stands for one; a text has
no bare control character and no half of a surrogate pair. What is no number or text by
these rules is not read at all.
-/

namespace Reckoner.Text

namespace JsonReading

def isLayout (c : Char) : Bool := c == ' ' || c == '\t' || c == '\n' || c == '\r'

def skip (text : List Char) : List Char := text.dropWhile isLayout

def afterDigits? (text : List Char) : Option (List Char) :=
  if (text.takeWhile Char.isDigit).isEmpty then none else some (text.dropWhile Char.isDigit)

def afterMinus : List Char → List Char
  | '-' :: rest => rest
  | text => text

/-- What follows the digits before the point. A leading zero stands alone. -/
def afterWhole? : List Char → Option (List Char)
  | '0' :: rest => some rest
  | text => afterDigits? text

def afterPart? : List Char → Option (List Char)
  | '.' :: rest => afterDigits? rest
  | text => some text

def afterSign : List Char → List Char
  | '+' :: rest => rest
  | '-' :: rest => rest
  | text => text

def afterExponent? : List Char → Option (List Char)
  | [] => some []
  | c :: rest => if c == 'e' || c == 'E' then afterDigits? (afterSign rest) else some (c :: rest)

def afterNumber? (text : List Char) : Option (List Char) :=
  ((afterWhole? (afterMinus text)).bind afterPart?).bind afterExponent?

def integerValue : List Char → Int
  | '-' :: digits => -(Nat.ofDigitChars 10 digits 0 : Int)
  | digits => (Nat.ofDigitChars 10 digits 0 : Int)

/-- A number with neither point nor exponent is an integer. -/
def ofToken? (token : List Char) : Option Json :=
  if token.all fun c => c == '-' || c.isDigit then some (.integer (integerValue token))
  else (Reading.number? (String.ofList token)).map .number

def number? (text : List Char) : Option (Json × List Char) :=
  match afterNumber? text with
  | some rest => (ofToken? (text.take (text.length - rest.length))).map (·, rest)
  | none => none

inductive Mode
  | plain
  | escape
  | unit (more value : Nat)

def hexValue? (c : Char) : Option Nat :=
  if '0' ≤ c && c ≤ '9' then some (c.toNat - '0'.toNat)
  else if 'a' ≤ c && c ≤ 'f' then some (c.toNat - 'a'.toNat + 10)
  else if 'A' ≤ c && c ≤ 'F' then some (c.toNat - 'A'.toNat + 10)
  else none

def escapeValue? : Char → Option Nat
  | '\x22' => some 0x22
  | '\\' => some 0x5c
  | '/' => some 0x2f
  | 'b' => some 0x08
  | 'f' => some 0x0c
  | 'n' => some 0x0a
  | 'r' => some 0x0d
  | 't' => some 0x09
  | _ => none

/-- The units and code points of a text up to its closing mark, and what follows that. -/
def units : Mode → List Char → Option (List Nat × List Char)
  | _, [] => none
  | .plain, c :: rest =>
      if c == '\x22' then some ([], rest)
      else if c == '\\' then units .escape rest
      else if c.toNat < 0x20 then none
      else (units .plain rest).map (Prod.map (c.toNat :: ·) id)
  | .escape, c :: rest =>
      if c == 'u' then units (.unit 3 0) rest
      else
        match escapeValue? c with
        | some u => (units .plain rest).map (Prod.map (u :: ·) id)
        | none => none
  | .unit more value, c :: rest =>
      match hexValue? c, more with
      | some d, 0 => (units .plain rest).map (Prod.map ((16 * value + d) :: ·) id)
      | some d, more + 1 => units (.unit more (16 * value + d)) rest
      | none, _ => none

def isHighSurrogate (u : Nat) : Bool := 0xd800 ≤ u && u < 0xdc00

def isLowSurrogate (u : Nat) : Bool := 0xdc00 ≤ u && u < 0xe000

def characters? : List Nat → Option (List Char)
  | [] => some []
  | [u] => if u.isValidChar then some [Char.ofNat u] else none
  | u :: l :: rest =>
      if isHighSurrogate u then
        if isLowSurrogate l then
          (characters? rest).map (Char.ofNat (0x10000 + (u - 0xd800) * 0x400 + (l - 0xdc00)) :: ·)
        else none
      else if u.isValidChar then (characters? (l :: rest)).map (Char.ofNat u :: ·)
      else none

def text? (text : List Char) : Option (String × List Char) :=
  match units .plain text with
  | some (us, rest) => (characters? us).map fun cs => (String.ofList cs, rest)
  | none => none

mutual

/-- A value nested no deeper than the given depth, and what follows it. -/
def value? : (depth : Nat) → List Char → Option (Json × List Char)
  | 0, _ => none
  | depth + 1, text =>
      match skip text with
      | '\x22' :: rest => (text? rest).map (Prod.map .text id)
      | '\x7b' :: rest =>
          match skip rest with
          | '\x7d' :: after => some (.object [], after)
          | _ => (members? depth rest).map (Prod.map .object id)
      | 'n' :: 'u' :: 'l' :: 'l' :: rest => some (.null, rest)
      | other => number? other

def members? : (depth : Nat) → List Char → Option (List (String × Json) × List Char)
  | 0, _ => none
  | depth + 1, text =>
      match skip text with
      | '\x22' :: rest =>
          match text? rest with
          | none => none
          | some (key, afterKey) =>
              match skip afterKey with
              | ':' :: rest =>
                  match value? depth rest with
                  | none => none
                  | some (value, afterValue) =>
                      match skip afterValue with
                      | '\x7d' :: after => some ([(key, value)], after)
                      | ',' :: rest =>
                          (members? depth rest).map (Prod.map ((key, value) :: ·) id)
                      | _ => none
              | _ => none
      | _ => none

end

end JsonReading

/-- The value that a whole text is, if it is one. -/
def Json.read? (text : String) : Option Json :=
  match JsonReading.value? text.length text.toList with
  | some (value, rest) => if (JsonReading.skip rest).isEmpty then some value else none
  | none => none

end Reckoner.Text
