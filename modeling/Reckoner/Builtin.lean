/-!
The functions an expression may call, each under its one name, and what a call
node calls: one of them, or a name that none of them has.
-/

namespace Reckoner

inductive Builtin
  | sin
  | cos
  | tan
  | asin
  | acos
  | atan
  | sqrt
  | exp
  | ln
  | log
  | log2
  deriving DecidableEq, Repr

namespace Builtin

def name : Builtin → String
  | sin => "sin"
  | cos => "cos"
  | tan => "tan"
  | asin => "asin"
  | acos => "acos"
  | atan => "atan"
  | sqrt => "sqrt"
  | exp => "exp"
  | ln => "ln"
  | log => "log"
  | log2 => "log2"

def all : List Builtin := [sin, cos, tan, asin, acos, atan, sqrt, exp, ln, log, log2]

def ofName? (name : String) : Option Builtin := all.find? (·.name == name)

theorem ofName?_name (b : Builtin) : ofName? b.name = some b := by cases b <;> decide

end Builtin

inductive Callee
  | builtin (function : Builtin)
  | unknown (name : String)
  deriving DecidableEq, Repr

end Reckoner
