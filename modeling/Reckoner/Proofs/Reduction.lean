import Reckoner.Machine

/-!
What a stack machine computes. An algebra says what to make of each kind of node once its
operands are made, and its machine takes the operands of a node all at once. Worked out by
recursion, a node is what the algebra makes of its operands, the last operand being worked
out first. The machine, fed with the reversed pre-order of a tree, leaves exactly this on
top of whatever stack it found, and fails with exactly the same fault.
-/

namespace Reckoner

/-- A sequence succeeds if its first step does and the rest does with what that gave. -/
theorem bind_eq_ok {ε α β : Type} {first : Except ε α} {next : α → Except ε β} {b : β} :
    first >>= next = .ok b ↔ ∃ a, first = .ok a ∧ next a = .ok b := by
  cases first <;> simp [bind, Except.bind]

theorem bind_eq_error {ε α β : Type} {first : Except ε α} {next : α → Except ε β} {e : ε} :
    first >>= next = .error e ↔
      first = .error e ∨ ∃ a, first = .ok a ∧ next a = .error e := by
  cases first <;> simp [bind, Except.bind]

structure Algebra (α : Type) where
  const : Float → Except Fault α
  var : Label → String → α
  chain : Family → Sign × α → List (Sign × α) → α
  power : α → α → α
  call : Callee → α → Except Fault α
  tooFew : Fault
  notOne : Nat → Fault

namespace Algebra

variable {α : Type}

def take? : List (Sign × Expr) → List α → Option (List (Sign × α) × List α)
  | [], stack => some ([], stack)
  | _ :: _, [] => none
  | (s, _) :: terms, a :: stack =>
      match take? terms stack with
      | some (operands, left) => some ((s, a) :: operands, left)
      | none => none

def push (outcome : Except Fault α) (stack : List α) : Stepped α :=
  match outcome with
  | .ok a => ⟨a :: stack, none⟩
  | .error fault => ⟨stack, some fault⟩

def step (g : Algebra α) (stack : List α) : Expr → Stepped α
  | .const _ v => push (g.const v) stack
  | .var l n => push (.ok (g.var l n)) stack
  | .chain _ family _ first rest =>
      match take? (first :: rest) stack with
      | some (a :: operands, left) => push (.ok (g.chain family a operands)) left
      | _ => ⟨[], some g.tooFew⟩
  | .power _ _ _ =>
      match stack with
      | base :: exponent :: left => push (.ok (g.power base exponent)) left
      | _ => ⟨[], some g.tooFew⟩
  | .call _ c _ =>
      match stack with
      | argument :: left => push (g.call c argument) left
      | [] => ⟨[], some g.tooFew⟩

def machine (g : Algebra α) : Machine α := ⟨g.step, g.notOne⟩

@[simp] theorem step_machine (g : Algebra α) (stack : List α) (e : Expr) :
    g.machine.step stack e = g.step stack e := rfl

mutual

/-- The recursive counterpart of the machine. -/
def fold (g : Algebra α) : Expr → Except Fault α
  | .const _ v => g.const v
  | .var l n => .ok (g.var l n)
  | .chain _ family _ (sign, e) rest => do
      let operands ← g.foldTerms rest
      let a ← g.fold e
      return g.chain family (sign, a) operands
  | .power _ base exponent => do
      let b ← g.fold exponent
      let a ← g.fold base
      return g.power a b
  | .call _ callee argument => do
      let a ← g.fold argument
      g.call callee a

def foldTerms (g : Algebra α) : List (Sign × Expr) → Except Fault (List (Sign × α))
  | [] => .ok []
  | (sign, e) :: rest => do
      let operands ← g.foldTerms rest
      let a ← g.fold e
      return (sign, a) :: operands

end

theorem fold_chain {g : Algebra α} {e : Expr} {rest : List (Sign × Expr)} {a : α}
    {operands : List (Sign × α)} (he : g.fold e = .ok a) (hrest : g.foldTerms rest = .ok operands)
    (l : Label) (family : Family) (o sign : Sign) :
    g.fold (.chain l family o (sign, e) rest) = .ok (g.chain family (sign, a) operands) := by
  simp [fold, he, hrest, bind, Except.bind, pure, Except.pure]

theorem fold_power {g : Algebra α} {base exponent : Expr} {a b : α} (hbase : g.fold base = .ok a)
    (hexponent : g.fold exponent = .ok b) (l : Label) :
    g.fold (.power l base exponent) = .ok (g.power a b) := by
  simp [fold, hbase, hexponent, bind, Except.bind, pure, Except.pure]

theorem fold_call {g : Algebra α} {argument : Expr} {a : α} (h : g.fold argument = .ok a)
    (l : Label) (callee : Callee) : g.fold (.call l callee argument) = g.call callee a := by
  simp [fold, h, bind, Except.bind]

theorem foldTerms_cons {g : Algebra α} {e : Expr} {rest : List (Sign × Expr)} {a : α}
    {operands : List (Sign × α)} (he : g.fold e = .ok a) (hrest : g.foldTerms rest = .ok operands)
    (sign : Sign) : g.foldTerms ((sign, e) :: rest) = .ok ((sign, a) :: operands) := by
  simp [foldTerms, he, hrest, bind, Except.bind, pure, Except.pure]

theorem foldTerms_cons_iff {g : Algebra α} {sign : Sign} {e : Expr} {rest : List (Sign × Expr)}
    {operands : List (Sign × α)} : g.foldTerms ((sign, e) :: rest) = .ok operands ↔
      ∃ a others, g.fold e = .ok a ∧ g.foldTerms rest = .ok others ∧
        operands = (sign, a) :: others := by
  constructor
  · intro h
    obtain ⟨others, hrest, h⟩ := bind_eq_ok.mp h
    obtain ⟨a, he, h⟩ := bind_eq_ok.mp h
    exact ⟨a, others, he, hrest, (Except.ok.inj h).symm⟩
  · intro h
    obtain ⟨a, others, he, hrest, rfl⟩ := h
    exact foldTerms_cons he hrest sign

theorem fold_chain_iff {g : Algebra α} {l : Label} {family : Family} {o sign : Sign} {e : Expr}
    {rest : List (Sign × Expr)} {result : α} :
    g.fold (.chain l family o (sign, e) rest) = .ok result ↔
      ∃ a operands, g.fold e = .ok a ∧ g.foldTerms rest = .ok operands ∧
        result = g.chain family (sign, a) operands := by
  constructor
  · intro h
    obtain ⟨operands, hrest, h⟩ := bind_eq_ok.mp h
    obtain ⟨a, he, h⟩ := bind_eq_ok.mp h
    exact ⟨a, operands, he, hrest, (Except.ok.inj h).symm⟩
  · intro h
    obtain ⟨a, operands, he, hrest, rfl⟩ := h
    exact fold_chain he hrest l family o sign

theorem foldTerms_append {g : Algebra α} {first last : List (Sign × Expr)}
    {operands operands' : List (Sign × α)} (hfirst : g.foldTerms first = .ok operands)
    (hlast : g.foldTerms last = .ok operands') :
    g.foldTerms (first ++ last) = .ok (operands ++ operands') := by
  induction first generalizing operands with
  | nil =>
    obtain rfl : [] = operands := by simpa [foldTerms] using hfirst
    exact hlast
  | cons t rest ih =>
    obtain ⟨sign, e⟩ := t
    obtain ⟨a, others, he, hrest, rfl⟩ := foldTerms_cons_iff.mp hfirst
    exact foldTerms_cons he (ih hrest) sign

theorem foldTerms_signs {g : Algebra α} {terms : List (Sign × Expr)} {operands : List (Sign × α)}
    (h : g.foldTerms terms = .ok operands) : operands.map Prod.fst = terms.map Prod.fst := by
  induction terms generalizing operands with
  | nil =>
    obtain rfl : [] = operands := by simpa [foldTerms] using h
    rfl
  | cons t rest ih =>
    obtain ⟨sign, e⟩ := t
    obtain ⟨a, others, he, hrest, rfl⟩ := foldTerms_cons_iff.mp h
    simp [ih hrest]

/-- A node with a term for each operand takes just these from the stack. -/
theorem take?_operands {terms : List (Sign × Expr)} {operands : List (Sign × α)}
    (h : operands.map Prod.fst = terms.map Prod.fst) (stack : List α) :
    take? terms (operands.map Prod.snd ++ stack) = some (operands, stack) := by
  induction terms generalizing operands with
  | nil =>
    obtain rfl := List.map_eq_nil_iff.mp h
    rfl
  | cons t rest ih =>
    obtain ⟨sign, e⟩ := t
    obtain ⟨operand, others, rfl, hsign, hothers⟩ := List.map_eq_cons_iff.mp h
    obtain rfl : operand.1 = sign := hsign
    simp only [List.map_cons, List.cons_append, take?, ih hothers]

def runAfter (g : Algebra α) (outcome : Except Fault (List α)) (stack : List α)
    (later : List Expr) : Except Fault (List α) :=
  match outcome with
  | .ok results => g.machine.run (results ++ stack) later
  | .error fault => .error fault

theorem run_push {g : Algebra α} {e : Expr} {outcome : Except Fault α} {before stack : List α}
    (h : g.step before e = push outcome stack) (later : List Expr) :
    g.machine.run before (e :: later) = g.runAfter (outcome.map ([·])) stack later := by
  cases outcome with
  | ok a => simp [Machine.run, h, push, runAfter, Except.map]
  | error fault => simp [Machine.run, h, push, runAfter, Except.map]

mutual

theorem run_preorder (g : Algebra α) (stack : List α) (later : List Expr) :
    (e : Expr) → g.machine.run stack (e.preorder.reverse ++ later) =
      g.runAfter ((g.fold e).map ([·])) stack later
  | .const l v => run_push rfl later
  | .var l n => by
      have hstep : g.step stack (.var l n) = push (.ok (g.var l n)) stack := rfl
      exact run_push hstep later
  | .chain l family o (sign, e) rest => by
      have hnodes : (Expr.chain l family o (sign, e) rest).preorder.reverse ++ later =
          (Expr.preorderTerms rest).reverse ++
            (e.preorder.reverse ++ Expr.chain l family o (sign, e) rest :: later) := by
        simp [Expr.preorder]
      rw [hnodes, run_preorderTerms g stack _ rest]
      cases hrest : g.foldTerms rest with
      | error fault => simp [fold, hrest, runAfter, Except.map, bind, Except.bind]
      | ok operands =>
        change g.machine.run (operands.map Prod.snd ++ stack) _ = _
        rw [run_preorder g _ _ e]
        cases he : g.fold e with
        | error fault => simp [fold, hrest, he, runAfter, Except.map, bind, Except.bind]
        | ok a =>
          -- The first operand was pushed last, so the stack has them in their order.
          have hsigns :
              ((sign, a) :: operands).map Prod.fst = ((sign, e) :: rest).map Prod.fst := by
            simp [foldTerms_signs hrest]
          have htake := take?_operands hsigns stack
          have hstep : g.step (a :: (operands.map Prod.snd ++ stack))
              (.chain l family o (sign, e) rest) =
                push (.ok (g.chain family (sign, a) operands)) stack := by
            simp only [List.map_cons, List.cons_append] at htake
            simp only [step, htake]
          rw [fold_chain he hrest]
          exact run_push hstep later
  | .power l base exponent => by
      have hnodes : (Expr.power l base exponent).preorder.reverse ++ later =
          exponent.preorder.reverse ++
            (base.preorder.reverse ++ Expr.power l base exponent :: later) := by
        simp [Expr.preorder]
      rw [hnodes, run_preorder g stack _ exponent]
      cases hexponent : g.fold exponent with
      | error fault => simp [fold, hexponent, runAfter, Except.map, bind, Except.bind]
      | ok b =>
        change g.machine.run (b :: stack) _ = _
        rw [run_preorder g _ _ base]
        cases hbase : g.fold base with
        | error fault => simp [fold, hexponent, hbase, runAfter, Except.map, bind, Except.bind]
        | ok a =>
          have hstep : g.step (a :: b :: stack) (.power l base exponent) =
              push (.ok (g.power a b)) stack := rfl
          rw [fold_power hbase hexponent]
          exact run_push hstep later
  | .call l callee argument => by
      have hnodes : (Expr.call l callee argument).preorder.reverse ++ later =
          argument.preorder.reverse ++ Expr.call l callee argument :: later := by
        simp [Expr.preorder]
      rw [hnodes, run_preorder g stack _ argument]
      cases hargument : g.fold argument with
      | error fault => simp [fold, hargument, runAfter, Except.map, bind, Except.bind]
      | ok a =>
        have hstep : g.step (a :: stack) (.call l callee argument) = push (g.call callee a) stack :=
          rfl
        rw [fold_call hargument]
        exact run_push hstep later

theorem run_preorderTerms (g : Algebra α) (stack : List α) (later : List Expr) :
    (terms : List (Sign × Expr)) →
      g.machine.run stack ((Expr.preorderTerms terms).reverse ++ later) =
        g.runAfter ((g.foldTerms terms).map (·.map Prod.snd)) stack later
  | [] => by simp [Expr.preorderTerms, foldTerms, runAfter, Except.map]
  | (sign, e) :: rest => by
      have hnodes : (Expr.preorderTerms ((sign, e) :: rest)).reverse ++ later =
          (Expr.preorderTerms rest).reverse ++ (e.preorder.reverse ++ later) := by
        simp [Expr.preorderTerms]
      rw [hnodes, run_preorderTerms g stack _ rest]
      cases hrest : g.foldTerms rest with
      | error fault => simp [foldTerms, hrest, runAfter, Except.map, bind, Except.bind]
      | ok operands =>
        change g.machine.run (operands.map Prod.snd ++ stack) _ = _
        rw [run_preorder g _ _ e]
        cases he : g.fold e with
        | error fault => simp [foldTerms, hrest, he, runAfter, Except.map, bind, Except.bind]
        | ok a =>
          rw [foldTerms_cons he hrest]
          rfl

end

/-- A whole tree leaves its recursive result on top of the stack. -/
theorem run_reverse_preorder (g : Algebra α) (stack : List α) (root : Expr) :
    g.machine.run stack root.preorder.reverse = (g.fold root).map (· :: stack) := by
  have hrun := run_preorder g stack [] root
  rw [List.append_nil] at hrun
  rw [hrun]
  cases g.fold root with
  | ok a => rfl
  | error fault => rfl

/-- A whole tree reduces to its recursive result. -/
theorem reduce_eq_fold (g : Algebra α) (root : Expr) :
    g.machine.reduce root = g.fold root := by
  rw [Machine.reduce, run_reverse_preorder]
  cases g.fold root with
  | ok a => rfl
  | error fault => rfl

end Algebra

end Reckoner
