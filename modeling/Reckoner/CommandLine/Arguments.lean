import Reckoner.CommandLine.Switch
import Reckoner.Number.Reading
import Reckoner.Text.Blank

/-!
From the arguments of a command line to a request. All arguments before the double
dash are given their shapes first; then they are taken from left to right, and the
first thing that is wrong, or the wish for help, ends the reading. The double dash
itself disappears next to the expression, otherwise it counts as an argument that
nothing asked for. Attached to a switch as its value it leaves the value blank, which
is found out only when all else is understood; till then the settings keep the number of
bindings before the first blank one.
-/

namespace Reckoner.CommandLine

structure Settings where
  bindings : List (String × Float)
  blank : Option Nat
  constants : Bool
  render : Bool
  json : Bool
  verbose : Bool

namespace Settings

def default : Settings := ⟨[], none, true, false, false, false⟩

end Settings

inductive Stop
  | help
  | usage (error : UsageError)
  | blankBinding (index : Nat)
  deriving DecidableEq, Repr

/-- A name, an equals sign and a number. Blanks around the name are dropped. -/
def binding (text : List Char) : Except UsageError (String × Float) :=
  let name := String.ofList (Text.trim Text.isBlank (head text))
  match value? text with
  | none => .error (.notABinding (String.ofList text))
  | some raw =>
      if name = "" then .error (.notABinding (String.ofList text))
      else
        match Reading.number? (String.ofList raw) with
        | some v => .ok (name, v)
        | none => .error (.notANumber name (String.ofList raw))

def Settings.flag (s : Settings) : Switch → Except Stop Settings
  | .help => .error .help
  | .var => .ok s
  | .noConstants => .ok { s with constants := false }
  | .render => .ok { s with render := true }
  | .json => .ok { s with json := true }
  | .verbose => .ok { s with verbose := true }

def Settings.bind (s : Settings) (text : List Char) : Except Stop Settings :=
  if text = ['-', '-'] then .ok { s with blank := s.blank.or (some s.bindings.length) }
  else
    match binding text with
    | .ok pair => .ok { s with bindings := s.bindings ++ [pair] }
    | .error e => .error (.usage e)

def cluster (s : Switch) : List Char → Except UsageError (List Switch)
  | [] => .ok [s]
  | c :: rest =>
      match Switch.ofShort? c with
      | some next =>
          match cluster next rest with
          | .ok switches => .ok (s :: switches)
          | .error e => .error e
      | none => .error (.unwantedValue s (String.ofList (c :: rest)))

/-- Short switches are flags; those of a cluster count only if all of it is understood. -/
def Settings.short (s : Settings) (switch : Switch) (attached : Option (List Char)) :
    Except Stop Settings :=
  match attached with
  | some [] => .error (.usage (.unwantedValue switch ""))
  | some text =>
      match cluster switch text with
      | .ok switches => switches.foldlM Settings.flag s
      | .error e => .error (.usage e)
  | none => s.flag switch

/-- What has been read so far; it is fresh while the expression is the argument just read. -/
structure Progress where
  expression : Option String
  fresh : Bool
  extras : List String
  settings : Settings

namespace Progress

def start : Progress := ⟨none, false, [], Settings.default⟩

def operand (p : Progress) (argument : String) : Progress :=
  match p.expression with
  | none => { p with expression := some argument, fresh := true }
  | some _ => { p with extras := p.extras ++ [argument], fresh := false }

def configure (p : Progress) (settings : Settings) : Progress :=
  { p with settings := settings, fresh := false }

def take (p : Progress) : List (String × Shape) → Except Stop Progress
  | [] => .ok p
  | (argument, .operand) :: rest => (p.operand argument).take rest
  | (argument, .stranger) :: rest =>
      take { p with extras := p.extras ++ [argument], fresh := false } rest
  | (_, .short switch attached) :: rest =>
      match p.settings.short switch attached with
      | .ok settings => (p.configure settings).take rest
      | .error stop => .error stop
  | (_, .long .var (some text)) :: rest =>
      match p.settings.bind text with
      | .ok settings => (p.configure settings).take rest
      | .error stop => .error stop
  | (_, .long .var none) :: (argument, .operand) :: rest =>
      match p.settings.bind argument.toList with
      | .ok settings => (p.configure settings).take rest
      | .error stop => .error stop
  | (_, .long .var none) :: _ => .error (.usage (.valueMissing .var))
  | (_, .long switch (some text)) :: _ =>
      .error (.usage (.unwantedValue switch (String.ofList text)))
  | (_, .long switch none) :: rest =>
      match p.settings.flag switch with
      | .ok settings => (p.configure settings).take rest
      | .error stop => .error stop

def takeRest (p : Progress) : Option (List String) → Progress
  | none => p
  | some operands =>
      match p.expression, operands with
      | none, argument :: rest =>
          { p with expression := some argument, extras := p.extras ++ rest }
      | none, [] => p
      | some _, _ =>
          if p.fresh then { p with extras := p.extras ++ operands }
          else { p with extras := p.extras ++ "--" :: operands }

def finish (p : Progress) : Except Stop (String × Settings) :=
  match p.expression with
  | none => .error (.usage .expressionMissing)
  | some expression =>
      if p.extras.isEmpty then
        match p.settings.blank with
        | some index => .error (.blankBinding index)
        | none => .ok (expression, p.settings)
      else .error (.usage (.unrecognized p.extras))

end Progress

def shapes : List String → Except UsageError (List (String × Shape) × Option (List String))
  | [] => .ok ([], none)
  | argument :: rest =>
      if argument = "--" then .ok ([], some rest)
      else
        match Shape.of argument with
        | .error e => .error e
        | .ok shape =>
            match shapes rest with
            | .error e => .error e
            | .ok (shaped, after) => .ok ((argument, shape) :: shaped, after)

def request (arguments : List String) : Except Stop (String × Settings) :=
  match shapes arguments with
  | .error e => .error (.usage e)
  | .ok (shaped, after) =>
      match Progress.start.take shaped with
      | .error stop => .error stop
      | .ok p => (p.takeRest after).finish

end Reckoner.CommandLine
