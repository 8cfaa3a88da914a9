import Reckoner.Session

/-!
Calculators hold bindings and compile texts into formulas; a formula keeps its tree,
and can be bound and evaluated again and again. A formula takes the calculator's
bindings once, when it is compiled. What its variables are worth stands in the heap
that it was compiled in, next to the variables of other formulas. What happens is told
in notes.
-/

namespace Reckoner

def constants : Bindings :=
  Bindings.ofPairs [("pi", 3.141592653589793), ("e", 2.718281828459045)]

inductive Note
  | compiled (source : String) (names : List String)
  | unbound (source : String) (names : List String)
  | calculated (source : String) (value : Float)
  | unmatched (name : String) (value : Float) (source : String)

namespace Note

def text : Note → String
  | compiled source names =>
      "compiled " ++ Text.quoted source ++ "; variables=" ++
        Text.bracketed (names.map Text.quoted)
  | unbound source names =>
      "unbound variables in " ++ Text.quoted source ++ " read as 0: " ++ ", ".intercalate names
  | calculated source value => Text.quoted source ++ " = " ++ Numeral.text value
  | unmatched name value source =>
      "binding " ++ name ++ "=" ++ Numeral.text value ++ " matched no variable in " ++
        Text.quoted source

end Note

structure Formula where
  source : String
  root : Expr
  names : List String

namespace Formula

/-- The tree of a text in labels that were free, none of which has a value. -/
def ofText (heap : Heap) (source : String) : Except ParseError (Formula × Heap) := do
  let r ← Rooted.ofText heap.free source
  return (⟨source, r.root, r.root.names⟩, ⟨heap.store, r.free⟩)

def bindAll (f : Formula) (bindings : Bindings) (store : Store) : Store :=
  (f.root.bindAll bindings store).2

def bind (f : Formula) (name : String) (value : Float) (store : Store) : Store × List Note :=
  let (count, after) := f.root.bindAll (Bindings.ofPairs [(name, value)]) store
  (after, if count = 0 then [.unmatched name value f.source] else [])

def evaluate (f : Formula) (store : Store) : Except Fault Float := f.root.evaluate store

def text (f : Formula) : Except Fault String := f.root.render

def description (f : Formula) : String := "Formula(" ++ Text.quoted f.source ++ ")"

def listing (f : Formula) (store : Store) : List Entry := f.root.listing store

end Formula

structure Calculator where
  bindings : Bindings

namespace Calculator

def withVariables (c : Calculator) (pairs : List (String × Float)) : Calculator :=
  ⟨c.bindings.update pairs⟩

def compile (c : Calculator) (heap : Heap) (source : String) :
    Except ParseError (Formula × Heap × List Note) := do
  let (formula, after) ← Formula.ofText heap source
  let missing := formula.names.filter fun name => !c.bindings.contains name
  let notes := Note.compiled source formula.names ::
    (if missing.isEmpty then [] else [Note.unbound source missing])
  return (formula, ⟨formula.bindAll c.bindings after.store, after.free⟩, notes)

/-- The formula is compiled for its value only, so nothing of it stays in the heap. -/
def calculate (c : Calculator) (heap : Heap) (source : String) :
    Except Failure (Float × List Note) := do
  let (formula, after, notes) ← (c.compile heap source).mapError .parse
  let value ← (formula.evaluate after.store).mapError .fault
  return (value, notes ++ [.calculated source value])

end Calculator

end Reckoner
