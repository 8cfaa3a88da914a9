import Reckoner.Text.Json
import Reckoner.Token

/-!
What is reported when a text or a token list is rejected: the kind of failure with
its stable code, a message, the offending token and a position, and for a bracket
that was never closed the bracket. A negative position is not shown to people.
-/

namespace Reckoner

inductive DiagnosticKind
  | general
  | unexpectedToken
  | unexpectedEnd
  | unbalancedBrackets
  | trailingInput
  | unexpectedCharacter
  deriving DecidableEq, Repr

namespace DiagnosticKind

def code : DiagnosticKind → String
  | general => "E-PARSE"
  | unexpectedToken => "E-PARSE-UNEXPECTED-TOKEN"
  | unexpectedEnd => "E-PARSE-UNEXPECTED-END"
  | unbalancedBrackets => "E-PARSE-UNBALANCED-BRACKETS"
  | trailingInput => "E-PARSE-TRAILING-INPUT"
  | unexpectedCharacter => "E-LEX-UNEXPECTED-CHAR"

end DiagnosticKind

structure Diagnostic where
  kind : DiagnosticKind
  message : String
  token : Token
  position : Int
  opening : Option Token
  deriving DecidableEq, Repr

namespace Diagnostic

/-- A diagnostic without a token of its own is about missing input, and one
without a position of its own stands where its token does. -/
def of (kind : DiagnosticKind) (message : String) (token : Option Token)
    (position : Option Int) (opening : Option Token) : Diagnostic :=
  let token := token.getD Token.absent
  ⟨kind, message, token, position.getD token.position, opening⟩

def line (d : Diagnostic) : String :=
  let head := "[" ++ d.kind.code ++ "] " ++ d.message
  if d.position < 0 then head
  else head ++ " (at offset " ++ toString d.position ++ ")"

def json (d : Diagnostic) : Text.Json :=
  let opening : Text.Json :=
    match d.opening with
    | some token => .integer token.position
    | none => .null
  let members : List (String × Text.Json) :=
    [("code", .text d.kind.code), ("message", .text d.message),
     ("lexeme", .text d.token.lexeme), ("position", .integer d.position)]
  if d.kind = .unbalancedBrackets then .object (members ++ [("opening_position", opening)])
  else .object members

end Diagnostic

end Reckoner
