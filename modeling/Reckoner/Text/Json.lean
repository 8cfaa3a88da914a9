import Reckoner.Number.Numeral
import Reckoner.Text.Hexadecimal

/-!
JSON values in one line: members in the order given, a space after each comma and
colon, every character outside printable ASCII escaped by its 16-bit units. A
number must be finite; the caller writes the others as text.
-/

namespace Reckoner.Text

inductive Json
  | null
  | integer (value : Int)
  | number (value : Float)
  | text (value : String)
  | object (members : List (String × Json))

namespace Json

def unitEscape (n : Nat) : List Char := '\\' :: 'u' :: hexDigits 4 n

def charEscape (c : Char) : List Char :=
  if c.toNat < 0x10000 then unitEscape c.toNat
  else
    let offset := c.toNat - 0x10000
    unitEscape (0xd800 + offset / 0x400) ++ unitEscape (0xdc00 + offset % 0x400)

def escaped (c : Char) : List Char :=
  if c == '\x22' || c == '\\' then ['\\', c]
  else if c == '\n' then ['\\', 'n']
  else if c == '\r' then ['\\', 'r']
  else if c == '\t' then ['\\', 't']
  else if c == '\x08' then ['\\', 'b']
  else if c == '\x0c' then ['\\', 'f']
  else if 0x20 ≤ c.toNat && c.toNat < 0x7f then [c]
  else charEscape c

def quoted (value : String) : String :=
  String.ofList ('\x22' :: value.toList.flatMap escaped ++ ['\x22'])

mutual

def line : Json → String
  | null => "null"
  | integer value => toString value
  | number value => Numeral.text value
  | text value => quoted value
  | object members => "\x7b" ++ ", ".intercalate (lines members) ++ "\x7d"

def lines : List (String × Json) → List String
  | [] => []
  | (key, value) :: rest => (quoted key ++ ": " ++ line value) :: lines rest

end

end Json

end Reckoner.Text
