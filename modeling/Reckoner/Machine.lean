import Reckoner.Expr.Basic
import Reckoner.Fault

/-!
Stack machines over trees. A machine visits one node at a time: it pops the operands of
the node, the first one uppermost, and pushes what it makes of them. Fed with the nodes
of a tree in reversed pre-order it finds on top of its stack what every node needs. It
may also be fed by hand with nodes in any order. A visit that finds nothing to pop ends
there, and what it has popped until then is gone.
-/

namespace Reckoner

/-- Work on a stack, which stays as it is where the work fails. -/
abbrev Work (α : Type) := EStateM Fault (List α)

namespace Work

variable {α : Type}

def pop (underflow : Fault) : Work α α := do
  match ← get with
  | a :: left => do
      set left
      return a
  | [] => throw underflow

def push (a : α) : Work α Unit := modify (a :: ·)

end Work

structure Stepped (α : Type) where
  stack : List α
  fault : Option Fault

structure Machine (α : Type) where
  step : List α → Expr → Stepped α
  notOne : Nat → Fault

namespace Machine

variable {α : Type}

def ofVisit (visit : Expr → Work α Unit) (notOne : Nat → Fault) : Machine α where
  step stack e :=
    match (visit e).run stack with
    | .ok _ left => ⟨left, none⟩
    | .error fault left => ⟨left, some fault⟩
  notOne := notOne

def run (m : Machine α) (stack : List α) : List Expr → Except Fault (List α)
  | [] => .ok stack
  | e :: rest =>
      match m.step stack e with
      | ⟨next, none⟩ => m.run next rest
      | ⟨_, some fault⟩ => .error fault

/-- Nodes in turn, going on after faults: what every step left. -/
def trace (m : Machine α) (stack : List α) : List Expr → List (Stepped α)
  | [] => []
  | e :: rest =>
      let stepped := m.step stack e
      stepped :: m.trace stepped.stack rest

def settled (stack : List α) (steps : List (Stepped α)) : List α :=
  match steps.getLast? with
  | some stepped => stepped.stack
  | none => stack

def result (m : Machine α) : List α → Except Fault α
  | [a] => .ok a
  | stack => .error (m.notOne stack.length)

def reduce (m : Machine α) (root : Expr) : Except Fault α :=
  match m.run [] root.preorder.reverse with
  | .ok stack => m.result stack
  | .error fault => .error fault

end Machine

end Reckoner
