import Reckoner.Expr.Walk
import Reckoner.Proofs.Machines
import Reckoner.Proofs.Nodes

/-!
What a tree is worth by plain recursion, and when it is worth nothing. A tree has a value
exactly if every call in it calls a builtin; then the machine ends with this one value on
top of what it found. It takes the nodes from the last in pre-order to the first, so of
several calls that call no builtin it blames the last. The nodes themselves are those a
walk gives when it is asked for the next one until there is none.
-/

namespace Reckoner

namespace Walk

/-- Asked for the next node until there is none, the walk gives these. -/
inductive Gives : Walk → List Expr → Prop
  | done {w} (h : w.next? = none) : Gives w []
  | more {w after e nodes} (h : w.next? = some (e, after)) (rest : Gives after nodes) :
      Gives w (e :: nodes)

theorem Gives.eq_remaining {w : Walk} {nodes : List Expr} (h : w.Gives nodes) :
    nodes = w.remaining := by
  induction h with
  | done h => exact ((next?_eq_none_iff _).mp h).symm
  | more h rest ih => rw [remaining_next? h, ih]

theorem gives_remaining (w : Walk) : w.Gives w.remaining := by
  generalize hnodes : w.remaining = nodes
  induction nodes generalizing w with
  | nil => exact .done ((next?_eq_none_iff w).mpr hnodes)
  | cons e nodes ih =>
    cases hnext : w.next? with
    | none =>
      rw [(next?_eq_none_iff w).mp hnext] at hnodes
      cases hnodes
    | some given =>
      obtain ⟨e', after⟩ := given
      have hafter := remaining_next? hnext
      rw [hnodes] at hafter
      obtain ⟨rfl, hrest⟩ := List.cons.inj hafter
      exact .more hnext (ih after hrest.symm)

theorem gives_start_iff (root : Expr) (nodes : List Expr) :
    (start root).Gives nodes ↔ nodes = root.preorder := by
  constructor
  · intro h
    rw [h.eq_remaining, remaining_start]
  · intro h
    rw [h, ← remaining_start]
    exact gives_remaining (start root)

end Walk

namespace Expr

mutual

/-- The value by recursion. There is none where a call calls no builtin. -/
def value? (store : Store) : Expr → Option Float
  | const _ v => some v
  | var l _ => some (store.get l)
  | chain _ family _ (sign, e) rest => do
      let v ← value? store e
      let first :=
        match family, sign with
        | _, .plus => v
        | .sum, .minus => -v
        | .product, .minus => Arithmetic.divide 1.0 v
      valueFrom? store family first rest
  | power _ base exponent => do
      let b ← value? store base
      let e ← value? store exponent
      return Arithmetic.power b e
  | call _ (.builtin function) argument => do
      let v ← value? store argument
      return Arithmetic.apply function v
  | call _ (.unknown _) _ => none

def valueFrom? (store : Store) (family : Family) (soFar : Float) :
    List (Sign × Expr) → Option Float
  | [] => some soFar
  | (sign, e) :: rest => do
      let v ← value? store e
      let next :=
        match family, sign with
        | .sum, .plus => soFar + v
        | .sum, .minus => soFar - v
        | .product, .plus => soFar * v
        | .product, .minus => Arithmetic.divide soFar v
      valueFrom? store family next rest

end

def unknownName? : Expr → Option String
  | call _ (.unknown name) _ => some name
  | _ => none

def unknownNames (e : Expr) : List String := e.preorder.filterMap unknownName?

theorem unknownNames_chain (l : Label) (family : Family) (o sign : Sign) (e : Expr)
    (rest : List (Sign × Expr)) :
    (chain l family o (sign, e) rest).unknownNames =
      e.unknownNames ++ rest.flatMap fun t => t.2.unknownNames := by
  simp [unknownNames, preorder, preorderTerms_eq, List.filterMap_cons, unknownName?,
    List.filterMap_flatMap]

theorem unknownNames_power (l : Label) (base exponent : Expr) :
    (power l base exponent).unknownNames = base.unknownNames ++ exponent.unknownNames := by
  simp [unknownNames, preorder, List.filterMap_cons, unknownName?]

theorem unknownNames_builtin (l : Label) (function : Builtin) (argument : Expr) :
    (call l (.builtin function) argument).unknownNames = argument.unknownNames := by
  simp [unknownNames, preorder, List.filterMap_cons, unknownName?]

theorem unknownNames_unknown (l : Label) (name : String) (argument : Expr) :
    (call l (.unknown name) argument).unknownNames = name :: argument.unknownNames := by
  simp [unknownNames, preorder, unknownName?]

theorem mem_unknownNames {e : Expr} {name : String} :
    name ∈ e.unknownNames ↔ ∃ l argument, call l (.unknown name) argument ∈ e.preorder := by
  simp only [unknownNames, List.mem_filterMap]
  constructor
  · rintro ⟨node, hnode, hname⟩
    cases node with
    | call l callee argument =>
      cases callee with
      | builtin function => simp [unknownName?] at hname
      | unknown name' =>
        obtain rfl := Option.some.inj hname
        exact ⟨l, argument, hnode⟩
    | const | var | chain | power => simp [unknownName?] at hname
  · rintro ⟨l, argument, hmem⟩
    exact ⟨_, hmem, rfl⟩

end Expr

namespace Algebra

open Reckoner.Expr

section Resolved

variable {α β γ : Type} {value : Option α} {names : List String} {outcome : Except Fault α}

/-- How something with these unknown names is worked out: recursion and algebra agree on a
value, or there is none and the algebra blames the last of the names. -/
def Resolved (value : Option α) (names : List String) (outcome : Except Fault α) : Prop :=
  (∃ v, value = some v ∧ names = [] ∧ outcome = .ok v) ∨
  ∃ name, value = none ∧ names.getLast? = some name ∧ outcome = .error (.unknownFunction name)

theorem Resolved.map (h : Resolved value names outcome) (f : α → β) :
    Resolved (value.map f) names (outcome.map f) := by
  rcases h with ⟨v, rfl, hnames, rfl⟩ | ⟨name, rfl, hlast, rfl⟩
  · exact .inl ⟨f v, rfl, hnames, rfl⟩
  · exact .inr ⟨name, rfl, hlast, rfl⟩

/-- Recursion works out the left part first, the algebra the right one. -/
theorem Resolved.bind [Inhabited α] {next : α → Option γ} {later : List String}
    {right : Except Fault β} {combine : α → β → γ} (h : Resolved value names outcome)
    (hnext : ∀ v, Resolved (next v) later (right.map (combine v))) :
    Resolved (value.bind next) (names ++ later)
      (right.bind fun w => outcome.map fun v => combine v w) := by
  cases right with
  | ok w =>
    rcases h with ⟨v, rfl, rfl, rfl⟩ | ⟨name, rfl, hlast, rfl⟩
    · exact hnext v
    · have hnone : later = [] := by
        rcases hnext default with ⟨_, -, hlater, -⟩ | ⟨_, -, -, herror⟩
        · exact hlater
        · cases herror
      exact .inr ⟨name, rfl, by rw [hnone, List.append_nil, hlast], rfl⟩
  | error fault =>
    -- The fault on the right is the one that shows, whatever is on the left.
    have hfails : ∀ v, next v = none ∧ ∃ name, later.getLast? = some name ∧
        fault = .unknownFunction name := by
      intro v
      rcases hnext v with ⟨_, -, -, hok⟩ | ⟨name, hv, hlast, herror⟩
      · cases hok
      · exact ⟨hv, name, hlast, Except.error.inj herror⟩
    obtain ⟨-, name, hlast, rfl⟩ := hfails default
    refine .inr ⟨name, ?_, by simp [List.getLast?_append, hlast], rfl⟩
    cases value with
    | none => rfl
    | some v => exact (hfails v).1

end Resolved

variable {store : Store}

/-- The terms after the first, from any value so far. -/
theorem resolved_terms {rest : List (Sign × Expr)}
    (h : ∀ t ∈ rest, Resolved (t.2.value? store) t.2.unknownNames ((valueAlgebra store).fold t.2))
    (family : Family) (soFar : Float) :
    Resolved (valueFrom? store family soFar rest) (rest.flatMap fun t => t.2.unknownNames)
      (((valueAlgebra store).foldTerms rest).map (·.foldl (accumulate family) soFar)) := by
  induction rest generalizing soFar with
  | nil => exact .inl ⟨soFar, rfl, rfl, rfl⟩
  | cons t rest ih =>
    obtain ⟨sign, e⟩ := t
    have hvalue : valueFrom? store family soFar ((sign, e) :: rest) =
        (e.value? store).bind fun v =>
          valueFrom? store family (accumulate family soFar (sign, v)) rest := by
      cases family <;> cases sign <;> rfl
    have hfold : ((valueAlgebra store).foldTerms ((sign, e) :: rest)).map
          (·.foldl (accumulate family) soFar) =
        ((valueAlgebra store).foldTerms rest).bind fun operands => ((valueAlgebra store).fold e).map
          fun v => operands.foldl (accumulate family) (accumulate family soFar (sign, v)) := by
      rw [foldTerms]
      cases (valueAlgebra store).foldTerms rest <;> cases (valueAlgebra store).fold e <;> rfl
    rw [hvalue, hfold, List.flatMap_cons]
    exact (h (sign, e) (List.mem_cons_self ..)).bind
      fun v => ih (fun t ht => h t (List.mem_cons_of_mem _ ht)) _

theorem resolved (store : Store) (e : Expr) :
    Resolved (e.value? store) e.unknownNames ((valueAlgebra store).fold e) := by
  induction e using Expr.induct with
  | const l v => exact .inl ⟨v, rfl, rfl, rfl⟩
  | var l n => exact .inl ⟨store.get l, rfl, rfl, rfl⟩
  | chain l family o sign e rest ihe ihrest =>
    have hvalue : (Expr.chain l family o (sign, e) rest).value? store =
        (e.value? store).bind fun v =>
          valueFrom? store family (opening family (sign, v)) rest := by
      cases family <;> cases sign <;> rfl
    have hfold : (valueAlgebra store).fold (Expr.chain l family o (sign, e) rest) =
        ((valueAlgebra store).foldTerms rest).bind fun operands => ((valueAlgebra store).fold e).map
          fun v => operands.foldl (accumulate family) (opening family (sign, v)) := by
      rw [fold]
      cases (valueAlgebra store).foldTerms rest <;> cases (valueAlgebra store).fold e <;> rfl
    rw [hvalue, hfold, unknownNames_chain]
    exact ihe.bind fun v => resolved_terms ihrest family _
  | power l base exponent ihbase ihexponent =>
    have hvalue : (Expr.power l base exponent).value? store =
        (base.value? store).bind fun b => (exponent.value? store).map (Arithmetic.power b) := by
      rw [value?]
      cases base.value? store <;> cases exponent.value? store <;> rfl
    have hfold : (valueAlgebra store).fold (Expr.power l base exponent) =
        ((valueAlgebra store).fold exponent).bind fun x => ((valueAlgebra store).fold base).map
          fun b => Arithmetic.power b x := by
      rw [fold]
      cases (valueAlgebra store).fold exponent <;> cases (valueAlgebra store).fold base <;> rfl
    rw [hvalue, hfold, unknownNames_power]
    exact ihbase.bind fun b => ihexponent.map _
  | call l callee argument ih =>
    cases callee with
    | builtin function =>
      have hvalue : (Expr.call l (.builtin function) argument).value? store =
          (argument.value? store).map (Arithmetic.apply function) := by
        rw [value?]
        cases argument.value? store <;> rfl
      have hfold : (valueAlgebra store).fold (Expr.call l (.builtin function) argument) =
          ((valueAlgebra store).fold argument).map (Arithmetic.apply function) := by
        rw [fold]
        cases (valueAlgebra store).fold argument <;> rfl
      rw [hvalue, hfold, unknownNames_builtin]
      exact ih.map _
    | unknown name =>
      have hvalue : (Expr.call l (.unknown name) argument).value? store = none := by rw [value?]
      rcases ih with ⟨v, hv, hnames, hfold⟩ | ⟨inner, hv, hlast, herror⟩
      · refine .inr ⟨name, hvalue, ?_, ?_⟩
        · rw [unknownNames_unknown, hnames, List.getLast?_singleton]
        · rw [fold_call hfold]
          rfl
      · refine .inr ⟨inner, hvalue, ?_, ?_⟩
        · simp [unknownNames_unknown, List.getLast?_cons, hlast]
        · rw [fold, herror]
          rfl

end Algebra

open Reckoner.Algebra

/-- The machine fed with the reversed pre-order agrees with plain recursion: it leaves one
value on top of the stack it found, unless some call in the tree calls no builtin; then the
fault names the last such call in pre-order. -/
theorem evaluate_eq_value (store : Store) (root : Expr) :
    (∀ nodes, (Walk.start root).Gives nodes ↔ nodes = root.preorder) ∧
    (∀ stack left, (valuation store).run stack root.preorder.reverse = .ok left ↔
      ∃ v, root.value? store = some v ∧ left = v :: stack) ∧
    (∀ stack fault, (valuation store).run stack root.preorder.reverse = .error fault ↔
      ∃ name, root.unknownNames.getLast? = some name ∧ fault = .unknownFunction name) ∧
    (∀ v, root.evaluate store = .ok v ↔ root.value? store = some v) ∧
    (∀ fault, root.evaluate store = .error fault ↔
      ∃ name, root.unknownNames.getLast? = some name ∧ fault = .unknownFunction name) ∧
    ((∃ fault, root.evaluate store = .error fault) ↔
      ∃ l name argument, Expr.call l (.unknown name) argument ∈ root.preorder) := by
  have hcalls : (∃ l name argument, Expr.call l (.unknown name) argument ∈ root.preorder) ↔
      ∃ name, name ∈ root.unknownNames := by
    simp only [Expr.mem_unknownNames]
    exact exists_comm
  have hevaluate : root.evaluate store = (valueAlgebra store).fold root :=
    root.evaluate_eq_fold store
  refine ⟨Walk.gives_start_iff root, ?_⟩
  simp only [hcalls, hevaluate, valuation_eq, run_reverse_preorder]
  rcases resolved store root with ⟨v, hv, hnames, hok⟩ | ⟨name, hv, hlast, herror⟩
  · simp [hok, hv, hnames, Except.map, eq_comm]
  · have hmem : ∃ name, name ∈ root.unknownNames := ⟨name, List.mem_of_getLast? hlast⟩
    simp [herror, hv, hlast, hmem, Except.map, eq_comm]

example : (Expr.power 0 (.call 1 (.unknown "sinh") (.var 2 "x"))
    (.call 3 (.unknown "cosh") (.var 2 "x"))).evaluate Store.empty =
      .error (.unknownFunction "cosh") := rfl

end Reckoner
