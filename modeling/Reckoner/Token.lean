/-!
Tokens: a kind, the text it was read from, and where that text begins. A token
list may be made by hand, so any text and any position can stand in a token; the
position is an integer because the token that stands for missing input has one
before the beginning.
-/

namespace Reckoner

inductive TokenKind
  | finish
  | plus
  | minus
  | star
  | slash
  | caret
  | function
  | openBracket
  | closeBracket
  | number
  | name
  deriving DecidableEq, Repr

structure Token where
  kind : TokenKind
  lexeme : String
  position : Int
  deriving DecidableEq, Repr

namespace Token

/-- Stands for the next token where a list has none left. -/
def absent : Token := ⟨.finish, "", -1⟩

def description (t : Token) : String :=
  match t.kind with
  | .finish => "end of input"
  | _ => "'" ++ t.lexeme ++ "'"

end Token

end Reckoner
