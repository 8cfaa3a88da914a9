import Reckoner.Builtin
import Reckoner.ParseError
import Reckoner.Text.Blank
import Reckoner.Text.Digit

/-!
From text to tokens. Layout between tokens is dropped; at every other place the
longest numeral, the longest name or one symbol is read, and since no two of them
begin with the same character there is never a choice. A name is a function if it
is the name of a builtin. Positions count characters, and the last token ends the
input at the text's length.
-/

namespace Reckoner.Lexer

open Text

def exponentPart : List Char → List Char
  | [] => []
  | c :: rest =>
      if c == 'e' || c == 'E' then
        let sign := rest.take 1 |>.filter fun s => s == '+' || s == '-'
        let digits := (rest.drop sign.length).takeWhile isDigit
        if digits.isEmpty then [] else c :: (sign ++ digits)
      else []

def pointPart : List Char → List Char
  | '.' :: rest => '.' :: rest.takeWhile isDigit
  | _ => []

/-- The longest numeral a text begins with; empty if there is none. A point alone
is no numeral, a point on one side of digits is part of one. -/
def numeral (text : List Char) : List Char :=
  let whole := text.takeWhile isDigit
  let part := pointPart (text.drop whole.length)
  let body := whole ++ part
  if whole.isEmpty && part.length ≤ 1 then []
  else body ++ exponentPart (text.drop body.length)

def isNameStart (c : Char) : Bool := c.isAlpha || c == '_'

def isNamePart (c : Char) : Bool := c.isAlphanum || c == '_'

def name : List Char → List Char
  | [] => []
  | c :: rest => if isNameStart c then c :: rest.takeWhile isNamePart else []

def nameKind (lexeme : List Char) : TokenKind :=
  if (Builtin.ofName? (String.ofList lexeme)).isSome then .function else .name

def symbol? : Char → Option TokenKind
  | '+' => some .plus
  | '-' => some .minus
  | '*' => some .star
  | '/' => some .slash
  | '^' => some .caret
  | '(' => some .openBracket
  | ')' => some .closeBracket
  | _ => none

def lexeme? (text : List Char) : Option (TokenKind × List Char) :=
  match text.head?.bind symbol? with
  | some kind => some (kind, text.take 1)
  | none =>
      if name text ≠ [] then some (nameKind (name text), name text)
      else if numeral text ≠ [] then some (.number, numeral text)
      else none

/-- Reads on from a position, after passing over the rest of a token just read. -/
def scan : (position passing : Nat) → List Char → Except ParseError (List Token)
  | position, _, [] => .ok [⟨.finish, "", position⟩]
  | position, passing + 1, _ :: rest => scan (position + 1) passing rest
  | position, 0, c :: rest =>
      if isLayout c then scan (position + 1) 0 rest
      else
        match lexeme? (c :: rest) with
        | none => .error (.unexpectedCharacter c position)
        | some (kind, lexeme) =>
            match scan (position + 1) (lexeme.length - 1) rest with
            | .ok tokens => .ok (⟨kind, String.ofList lexeme, position⟩ :: tokens)
            | .error e => .error e

def tokenize (text : String) : Except ParseError (List Token) := scan 0 0 text.toList

end Reckoner.Lexer
