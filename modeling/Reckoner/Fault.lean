import Reckoner.Text.Quoted

/-!
What can be wrong with a tree or with the order in which its nodes are fed to a
stack machine. None of it can happen to a tree read from a text.
-/

namespace Reckoner

/-- Machines of values and of texts have faults of their own. A function that is not one of
the known ones has no value, and it has no name to write either. -/
inductive Fault
  | tooFewValues
  | tooFewTexts
  | notOneValue (count : Nat)
  | notOneText (count : Nat)
  | unknownFunction (name : String)
  | namelessFunction
  | unwritable
  | shared (description : String)
  deriving DecidableEq, Repr

namespace Fault

def message : Fault → String
  | tooFewValues => "value stack underflow; nodes were not fed in reversed pre-order"
  | tooFewTexts => "render stack underflow"
  | notOneValue count => "expected one value after evaluation, found " ++ toString count
  | notOneText count => "expected one rendered expression, found " ++ toString count
  | unknownFunction name => "no implementation for function kind " ++ Text.quoted name
  | namelessFunction => "'str' object has no attribute 'value'"
  | unwritable => "a NaN constant has no literal form"
  | shared description => "node " ++ description ++ " is reachable through more than one parent"

end Fault

end Reckoner
