import Reckoner.Calculator

/-!
A calculator at work together with the formulas it has compiled, each kept under a
key and all of them in one heap. Compiling anew under a key in use replaces the formula,
unless it fails.
-/

namespace Reckoner

structure Desk where
  calculator : Calculator
  formulas : Std.TreeMap String Formula
  heap : Heap

namespace Desk

inductive Command
  | withVariable (name : String) (value : Float)
  | withVariables (pairs : List (String × Float))
  | bindings
  | calculate (text : String)
  | compile (key text : String)
  | bind (key name : String) (value : Float)
  | bindAll (key : String) (pairs : List (String × Float))
  | evaluate (key : String)
  | text (key : String)
  | describe (key : String)
  | source (key : String)
  | names (key : String)
  | list (key : String)

inductive Answer
  | done
  | value (v : Float)
  | text (t : String)
  | names (ns : List String)
  | bindings (pairs : List (String × Float))
  | entries (es : List Entry)

inductive Refusal
  | failure (failure : Failure)
  | noFormula (key : String)

abbrev Outcome := Desk × List Note × Except Refusal Answer

def start (bindings : Bindings) : Desk := ⟨⟨bindings⟩, {}, Heap.empty⟩

def answered (d : Desk) (a : Answer) : Outcome := (d, [], .ok a)

def refused (d : Desk) (r : Refusal) : Outcome := (d, [], .error r)

def onFormula (d : Desk) (key : String) (act : Formula → Outcome) : Outcome :=
  match d.formulas[key]? with
  | some f => act f
  | none => d.refused (.noFormula key)

def put (d : Desk) (key : String) (f : Formula) (heap : Heap) : Desk :=
  { d with formulas := d.formulas.insert key f, heap := heap }

def withStore (d : Desk) (store : Store) : Desk := { d with heap := ⟨store, d.heap.free⟩ }

def asked (d : Desk) (outcome : Except Fault Answer) : Outcome :=
  match outcome with
  | .ok a => d.answered a
  | .error fault => d.refused (.failure (.fault fault))

def run (d : Desk) : Command → Outcome
  | .withVariable name value =>
      ({ d with calculator := d.calculator.withVariables [(name, value)] }, [], .ok .done)
  | .withVariables pairs =>
      ({ d with calculator := d.calculator.withVariables pairs }, [], .ok .done)
  | .bindings => d.answered (.bindings d.calculator.bindings.toList)
  | .calculate text =>
      match d.calculator.calculate d.heap text with
      | .ok (value, notes) => (d, notes, .ok (.value value))
      | .error failure => d.refused (.failure failure)
  | .compile key text =>
      match d.calculator.compile d.heap text with
      | .ok (f, heap, notes) => (d.put key f heap, notes, .ok (.names f.names))
      | .error e => d.refused (.failure (.parse e))
  | .bind key name value => d.onFormula key fun f =>
      let (store, notes) := f.bind name value d.heap.store
      (d.withStore store, notes, .ok .done)
  | .bindAll key pairs => d.onFormula key fun f =>
      (d.withStore (f.bindAll (Bindings.ofPairs pairs) d.heap.store), [], .ok .done)
  | .evaluate key => d.onFormula key fun f => d.asked ((f.evaluate d.heap.store).map .value)
  | .text key => d.onFormula key fun f => d.asked (f.text.map .text)
  | .describe key => d.onFormula key fun f => d.answered (.text f.description)
  | .source key => d.onFormula key fun f => d.answered (.text f.source)
  | .names key => d.onFormula key fun f => d.answered (.names f.names)
  | .list key => d.onFormula key fun f => d.answered (.entries (f.listing d.heap.store))

def runAll (d : Desk) : List Command → List (List Note × Except Refusal Answer)
  | [] => []
  | c :: rest =>
      let (next, notes, answer) := d.run c
      (notes, answer) :: next.runAll rest

end Desk

end Reckoner
