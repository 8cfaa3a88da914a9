import Reckoner.Store

/-!
The entry of a node in a listing: what the node is and holds, without its children.
Since an entry shows how many children the node has, the pre-order list of entries
determines the tree up to labels.
-/

namespace Reckoner

inductive Entry
  | const (value : Float)
  | var (name : String) (value : Float)
  | chain (family : Family) (opener : Sign) (signs : List Sign)
  | power
  | call (callee : Callee)

namespace Entry

def same : Entry → Entry → Bool
  | const v, const w => v == w
  | var m v, var n w => m == n && v == w
  | chain f o ss, chain g p ts => f == g && o == p && ss == ts
  | power, power => true
  | call c, call d => c == d
  | _, _ => false

end Entry

namespace Expr

def entry (store : Store) : Expr → Entry
  | const _ v => .const v
  | var l n => .var n (store.get l)
  | chain _ f o first rest => .chain f o ((first :: rest).map Prod.fst)
  | power _ _ _ => .power
  | call _ c _ => .call c

def listing (store : Store) (e : Expr) : List Entry := e.preorder.map (entry store)

end Expr

end Reckoner
