import Reckoner.Calculator
import Reckoner.CommandLine.Arguments

/-!
What the command line prints and returns: the value of an expression, preceded by
its text or wrapped in one line of JSON if asked, or what is wrong with it. Status 2
stands for an expression or a request that was not understood. A request that is
understood but cannot be carried out breaks down and prints nothing.
-/

namespace Reckoner.CommandLine

structure Output where
  status : UInt32
  stdout : String
  stderr : String
  deriving DecidableEq, Repr

inductive Breakdown
  | blankBinding (index : Nat)
  | fault (fault : Fault)
  deriving DecidableEq, Repr

namespace Breakdown

def message : Breakdown → String
  | blankBinding index =>
      "dictionary update sequence element #" ++ toString index ++ " has length 0; 2 is required"
  | fault f => f.message

end Breakdown

private def usage : String :=
  "usage: calctree [-h] [--var NAME=VALUE] [--no-constants] [--render] [--json]\n" ++
  "                [-v]\n" ++
  "                expression\n"

private def help : String :=
  usage ++
  "\n" ++
  "Evaluate an arithmetic expression with named variables\n" ++
  "\n" ++
  "positional arguments:\n" ++
  "  expression        Expression text, e.g. '6*(3+sin(pi/2))^5'\n" ++
  "\n" ++
  "options:\n" ++
  "  -h, --help        show this help message and exit\n" ++
  "  --var NAME=VALUE  Bind a variable (repeatable); unbound variables read as 0\n" ++
  "  --no-constants    Do not pre-bind pi and e\n" ++
  "  --render          Print the parsed expression before its value\n" ++
  "  --json            Emit machine-readable JSON\n" ++
  "  -v, --verbose     Debug logging to stderr\n"

/-- Strict JSON has no infinity and no NaN; those are written as text. -/
def jsonNumber (v : Float) : Text.Json :=
  if v.isFinite then .number v else .text (Numeral.text v)

def line (text : String) : String := text ++ "\n"

def noteLines (notes : List Note) : String :=
  String.join (notes.map fun n => line ("calctree.calculator: " ++ n.text))

def calculator (s : Settings) : Calculator :=
  Calculator.withVariables ⟨if s.constants then constants else Bindings.empty⟩ s.bindings

def payload (c : Calculator) (f : Formula) (text : String) (value : Float) : Text.Json :=
  .object
    [("expression", .text text), ("value", jsonNumber value),
     ("variables", .object (f.names.map fun n => (n, jsonNumber (c.bindings.getD n 0.0))))]

def printed (s : Settings) (f : Formula) (text : String) (value : Float) : String :=
  if s.json then line (payload (calculator s) f text value).line
  else if s.render then line text ++ line (Numeral.text value)
  else line (Numeral.text value)

def answer (f : Formula) (store : Store) : Except Fault (String × Float) := do
  let value ← f.evaluate store
  let text ← f.text
  return (text, value)

def rejected (s : Settings) (d : Diagnostic) : Output :=
  if s.json then ⟨2, line (Text.Json.object [("error", d.json)]).line, ""⟩
  else ⟨2, "", line d.line⟩

def evaluate (expression : String) (s : Settings) : Except Breakdown Output :=
  match (calculator s).compile Heap.empty expression with
  | .error e => .ok (rejected s e.diagnostic)
  | .ok (f, heap, notes) =>
      match answer f heap.store with
      | .ok (text, value) =>
          .ok ⟨0, printed s f text value, if s.verbose then noteLines notes else ""⟩
      | .error fault => .error (.fault fault)

def run (arguments : List String) : Except Breakdown Output :=
  match request arguments with
  | .ok (expression, settings) => evaluate expression settings
  | .error .help => .ok ⟨0, help, ""⟩
  | .error (.usage e) => .ok ⟨2, "", usage ++ line ("calctree: error: " ++ e.message)⟩
  | .error (.blankBinding index) => .error (.blankBinding index)

end Reckoner.CommandLine
