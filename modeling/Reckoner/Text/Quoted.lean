import Reckoner.Text.Hexadecimal
import Reckoner.Text.Printable

/-!
Text in quotes, for messages. Apostrophes quote it, unless it holds an
apostrophe and no quotation mark: then quotation marks do. The mark in use and
the backslash stand behind a backslash, line breaks and tabs have their letters,
and what else cannot be shown its code point in two, four or eight hexadecimal
digits, as few as suffice.
-/

namespace Reckoner.Text

private def apostrophe : Char := '\x27'

private def quotationMark : Char := '\x22'

def quoteMark (text : List Char) : Char :=
  if text.contains apostrophe && !text.contains quotationMark then quotationMark else apostrophe

def codeEscape (c : Char) : List Char :=
  if c.toNat < 0x100 then '\\' :: 'x' :: hexDigits 2 c.toNat
  else if c.toNat < 0x10000 then '\\' :: 'u' :: hexDigits 4 c.toNat
  else '\\' :: 'U' :: hexDigits 8 c.toNat

def escaped (mark c : Char) : List Char :=
  if c == mark || c == '\\' then ['\\', c]
  else if c == '\n' then ['\\', 'n']
  else if c == '\r' then ['\\', 'r']
  else if c == '\t' then ['\\', 't']
  else if isPrintable c then [c]
  else codeEscape c

def quoted (text : String) : String :=
  let mark := quoteMark text.toList
  String.ofList (mark :: text.toList.flatMap (escaped mark) ++ [mark])

def bracketed (items : List String) : String :=
  "[" ++ ", ".intercalate items ++ "]"

end Reckoner.Text
