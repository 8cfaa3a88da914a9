import Reckoner.Number.Numeral
import Reckoner.Store
import Reckoner.Text.Quoted

/-!
Trees spelled out in full, for messages: every node with its kind and everything it
holds, children within parents.
-/

namespace Reckoner

def chainName : Family → Sign → String
  | .sum, .plus => "AdditionNode"
  | .sum, .minus => "SubtractionNode"
  | .product, .plus => "MultiplicationNode"
  | .product, .minus => "DivisionNode"

namespace Callee

def description : Callee → String
  | builtin function =>
      "<FunctionKind." ++ function.name.toUpper ++ ": " ++ Text.quoted function.name ++ ">"
  | unknown name => Text.quoted name

end Callee

namespace Expr

mutual

def description (store : Store) : Expr → String
  | const _ v => "ConstantNode(value=" ++ Numeral.text v ++ ")"
  | var l n =>
      "VariableNode(name=" ++ Text.quoted n ++ ", value=" ++ Numeral.text (store.get l) ++ ")"
  | chain _ f o (s, e) rest =>
      chainName f o ++ "([" ++
        ", ".intercalate ((s.symbol.toString ++ description store e) :: descriptions store rest) ++
        "])"
  | power _ base exponent =>
      "ExponentiationNode(base=" ++ description store base ++ ", exponent=" ++
        description store exponent ++ ")"
  | call _ c argument =>
      "FunctionNode(function=" ++ c.description ++ ", argument=" ++ description store argument ++
        ")"

def descriptions (store : Store) : List (Sign × Expr) → List String
  | [] => []
  | (s, e) :: rest => (s.symbol.toString ++ description store e) :: descriptions store rest

end

end Expr

end Reckoner
