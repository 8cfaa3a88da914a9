/-!
Numbers in lower-case hexadecimal digits of a fixed count, for escapes. Higher
digits that do not fit the count are lost.
-/

namespace Reckoner.Text

def hexDigits : (count : Nat) → Nat → List Char
  | 0, _ => []
  | count + 1, n => hexDigits count (n / 16) ++ [Nat.digitChar (n % 16)]

end Reckoner.Text
