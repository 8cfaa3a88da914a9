import Reckoner.Diagnostic

/-!
Why a text has no tokens or a token list no tree. Each cause keeps the tokens it
blames; its diagnostic words it.
-/

namespace Reckoner

inductive ParseError
  | unexpectedCharacter (character : Char) (position : Nat)
  | unknownFunction (token : Token)
  | malformedNumber (token : Token)
  | missingValue (token : Token)
  | notAValue (token : Token)
  | unclosedBracket (opening token : Token)
  | trailingToken (token : Token)
  | tokenAfterEnd (token : Token)
  deriving DecidableEq, Repr

namespace ParseError

private def about (kind : DiagnosticKind) (message : String) (token : Token) : Diagnostic :=
  Diagnostic.of kind message (some token) none none

def diagnostic : ParseError → Diagnostic
  | unexpectedCharacter c position =>
      Diagnostic.of .unexpectedCharacter ("unexpected character '" ++ c.toString ++ "'") none
        (some position) none
  | unknownFunction t => about .unexpectedToken ("unknown function " ++ t.description) t
  | malformedNumber t => about .unexpectedToken ("malformed number " ++ t.description) t
  | missingValue t => about .unexpectedEnd "unexpected end of input, expected a value" t
  | notAValue t =>
      about .unexpectedToken ("unexpected " ++ t.description ++ ", expected a value") t
  | unclosedBracket opening t =>
      Diagnostic.of .unbalancedBrackets
        ("expected ')' to close the bracket at offset " ++ toString opening.position ++
          ", found " ++ t.description)
        (some t) none (some opening)
  | trailingToken t =>
      about .trailingInput ("unexpected " ++ t.description ++ " after a complete expression") t
  | tokenAfterEnd t =>
      about .trailingInput ("unexpected " ++ t.description ++ " after end of input") t

end ParseError

end Reckoner
