import Reckoner.Binding
import Reckoner.Evaluation
import Reckoner.Expr.Entry
import Reckoner.Expr.Equality
import Reckoner.Expr.Sharing
import Reckoner.Expr.Walk
import Reckoner.Rendering
import Reckoner.Source

/-!
Work on one tree over time: binding its variables, asking about it, replacing it by
the reading of its own text, and walking it. Walks go on in the tree they were
started in, whatever becomes of the session's root.
-/

namespace Reckoner

inductive Failure
  | parse (error : ParseError)
  | fault (fault : Fault)
  deriving DecidableEq, Repr

structure Session where
  root : Expr
  store : Store
  free : Label
  walks : Std.TreeMap String Walk

namespace Session

inductive Command
  | bind (name : String) (value : Float)
  | bindAll (pairs : List (String × Float))
  | evaluate
  | render
  | names
  | check
  | list
  | describe
  | equals (text : String)
  | reparse
  | startWalk (walk : String)
  | nextNode (walk : String)
  | restOfWalk (walk : String)

inductive Answer
  | nothing
  | count (n : Nat)
  | value (v : Float)
  | text (t : String)
  | flag (b : Bool)
  | names (ns : List String)
  | entry (e : Entry)
  | entries (es : List Entry)

def start (r : Rooted) : Session := ⟨r.root, r.store, r.free, {}⟩

def bound (s : Session) (outcome : Nat × Store) : Session × Except Failure Answer :=
  ({ s with store := outcome.2 }, .ok (.count outcome.1))

def asked (s : Session) (outcome : Except Fault Answer) : Session × Except Failure Answer :=
  (s, outcome.mapError .fault)

def reread (s : Session) : Except Failure Rooted := do
  let text ← s.root.render.mapError .fault
  (Rooted.ofText s.free text).mapError .parse

def run (s : Session) : Command → Session × Except Failure Answer
  | .bind name value => s.bound (s.root.bind name value s.store)
  | .bindAll pairs => s.bound (s.root.bindAll (Bindings.ofPairs pairs) s.store)
  | .evaluate => s.asked ((s.root.evaluate s.store).map .value)
  | .render => s.asked (s.root.render.map .text)
  | .names => (s, .ok (.names s.root.names))
  | .check => s.asked ((s.root.check s.store).map .count)
  | .list => (s, .ok (.entries (s.root.listing s.store)))
  | .describe => (s, .ok (.text (s.root.description s.store)))
  | .equals text =>
      (s, match Rooted.ofText s.free text with
        | .ok other => .ok (.flag (s.root.same s.store other.store other.root))
        | .error e => .error (.parse e))
  | .reparse =>
      match s.reread with
      | .ok r =>
          ({ s with root := r.root, free := r.free }, .ok (.entries (r.root.listing s.store)))
      | .error e => (s, .error e)
  | .startWalk walk => ({ s with walks := s.walks.insert walk (Walk.start s.root) }, .ok .nothing)
  | .nextNode walk =>
      match s.walks[walk]?.bind Walk.next? with
      | some (e, after) =>
          ({ s with walks := s.walks.insert walk after }, .ok (.entry (e.entry s.store)))
      | none => (s, .ok .nothing)
  | .restOfWalk walk =>
      match s.walks[walk]? with
      | some w =>
          ({ s with walks := s.walks.insert walk ⟨[]⟩ },
            .ok (.entries (w.remaining.map (Expr.entry s.store))))
      | none => (s, .ok (.entries []))

def runAll (s : Session) : List Command → List (Except Failure Answer)
  | [] => []
  | c :: rest =>
      let (next, answer) := s.run c
      answer :: next.runAll rest

end Session

end Reckoner
