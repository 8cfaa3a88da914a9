import Reckoner.Operator
import Reckoner.Text.Digit
import Reckoner.Text.Quoted

/-!
The switches of the command line, and what an argument before the double dash is
taken for. A long name may be cut short as long as it stays the only one that fits;
a value may be attached to a long name by an equals sign and to a short one
directly. An argument that looks like a negative number or holds a space is an
operand even though it starts with a dash.
-/

namespace Reckoner.CommandLine

inductive Switch
  | help
  | var
  | noConstants
  | render
  | json
  | verbose
  deriving DecidableEq, Repr

namespace Switch

def long : Switch → String
  | help => "--help"
  | var => "--var"
  | noConstants => "--no-constants"
  | render => "--render"
  | json => "--json"
  | verbose => "--verbose"

def short? : Switch → Option Char
  | help => some 'h'
  | verbose => some 'v'
  | _ => none

def all : List Switch := [help, var, noConstants, render, json, verbose]

def title (s : Switch) : String :=
  match s.short? with
  | some c => "-" ++ c.toString ++ "/" ++ s.long
  | none => s.long

def ofShort? (c : Char) : Option Switch := all.find? (·.short? == some c)

def ofLong? (name : List Char) : Option Switch := all.find? (·.long.toList == name)

def beginning (text : List Char) : List Switch := all.filter fun s => text.isPrefixOf s.long.toList

end Switch

inductive UsageError
  | ambiguous (argument : String) (candidates : List Switch)
  | unwantedValue (switch : Switch) (value : String)
  | valueMissing (switch : Switch)
  | notABinding (text : String)
  | notANumber (name text : String)
  | expressionMissing
  | unrecognized (arguments : List String)
  deriving DecidableEq, Repr

namespace UsageError

private def about (s : Switch) (message : String) : String :=
  "argument " ++ s.title ++ ": " ++ message

def message : UsageError → String
  | ambiguous argument candidates =>
      "ambiguous option: " ++ argument ++ " could match " ++
        ", ".intercalate (candidates.map Switch.long)
  | unwantedValue s value => about s ("ignored explicit argument " ++ Text.quoted value)
  | valueMissing s => about s "expected one argument"
  | notABinding text => about .var ("expected NAME=VALUE, got '" ++ text ++ "'")
  | notANumber name text =>
      about .var ("value for '" ++ name ++ "' is not a number: '" ++ text ++ "'")
  | expressionMissing => "the following arguments are required: expression"
  | unrecognized arguments => "unrecognized arguments: " ++ " ".intercalate arguments

end UsageError

inductive Shape
  | operand
  | long (switch : Switch) (value : Option (List Char))
  | short (switch : Switch) (attached : Option (List Char))
  | stranger
  deriving DecidableEq, Repr

def head (text : List Char) : List Char := text.takeWhile (· != '=')

def value? (text : List Char) : Option (List Char) := (text.dropWhile (· != '=')).tail?

/-- Digits, or a point with digits after it and perhaps before; a line break may follow. -/
def isUnsignedNumber (text : List Char) : Bool :=
  let body := if text.getLast? = some '\n' then text.dropLast else text
  let whole := body.takeWhile Text.isDigit
  match body.drop whole.length with
  | [] => !whole.isEmpty
  | '.' :: part => !part.isEmpty && part.all Text.isDigit
  | _ => false

def leftover (text : List Char) : Shape :=
  match text with
  | '-' :: body => if isUnsignedNumber body || text.contains ' ' then .operand else .stranger
  | _ => .operand

def Shape.ofLong (text : List Char) : Except UsageError Shape :=
  match Switch.ofLong? (head text) with
  | some s => .ok (.long s (value? text))
  | none =>
      match Switch.beginning (head text) with
      | [] => .ok (leftover text)
      | [s] => .ok (.long s (value? text))
      | candidates => .error (.ambiguous (String.ofList text) candidates)

def Shape.ofShort (c : Char) (rest : List Char) : Shape :=
  match Switch.ofShort? c with
  | some s =>
      match rest with
      | [] => .short s none
      | '=' :: value => .short s (some value)
      | _ => .short s (some rest)
  | none => leftover ('-' :: c :: rest)

def Shape.of (argument : String) : Except UsageError Shape :=
  match argument.toList with
  | '-' :: '-' :: name => ofLong ('-' :: '-' :: name)
  | '-' :: c :: rest => .ok (ofShort c rest)
  | _ => .ok .operand

end Reckoner.CommandLine
