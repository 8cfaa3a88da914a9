import Reckoner.Evaluation
import Reckoner.Rendering
import Reckoner.Proofs.Reduction

/-!
The machines of values and of texts. Each pops in its own way: values are all popped before
any is used, a text is written on with every operand that is popped. Where the operands run
out, either machine has popped all there was. Where they do not, it pushes what its algebra
makes of them, as if they had been taken at once.
-/

namespace Reckoner

def valueAlgebra (store : Store) : Algebra Float where
  const v := .ok v
  var l _ := store.get l
  chain := chainValue
  power := Arithmetic.power
  call := callValue
  tooFew := .tooFewValues
  notOne := .notOneValue

namespace Rendered

def ofTerms (family : Family) (text : String) (terms : List (Sign × Rendered)) : String :=
  terms.foldl (fun text term => text ++ laterTerm family term) text

def ofChain (family : Family) (first : Sign × Rendered) (rest : List (Sign × Rendered)) :
    Rendered :=
  ⟨ofTerms family (firstTerm family first) rest, family.level⟩

end Rendered

def textAlgebra : Algebra Rendered where
  const := Rendered.ofConst
  var _ n := ⟨n, .atom⟩
  chain := Rendered.ofChain
  power := Rendered.ofPower
  call := Rendered.ofCall
  tooFew := .tooFewTexts
  notOne := .notOneText

namespace Work

variable {α β γ : Type} {w : Work α β} {stack left : List α}

theorem run_bind_ok {b : β} (h : w.run stack = .ok b left) (next : β → Work α γ) :
    (w >>= next).run stack = (next b).run left := by
  simp only [EStateM.run] at h
  simp only [EStateM.run, bind, EStateM.bind, h]

theorem run_bind_error {fault : Fault} (h : w.run stack = .error fault left)
    (next : β → Work α γ) : (w >>= next).run stack = .error fault left := by
  simp only [EStateM.run] at h
  simp only [EStateM.run, bind, EStateM.bind, h]

theorem run_pop_nil (underflow : Fault) (next : α → Work α γ) :
    (pop underflow >>= next).run [] = .error underflow [] := rfl

theorem run_pop_cons (underflow : Fault) (a : α) (left : List α) (next : α → Work α γ) :
    (pop underflow >>= next).run (a :: left) = (next a).run left := rfl

end Work

open Work

namespace Valuation

/-- Without a value for every term all values that there were are popped. -/
theorem run_popTerms (terms : List (Sign × Expr)) (stack : List Float) :
    (popTerms terms).run stack =
      match Algebra.take? terms stack with
      | some (operands, left) => .ok operands left
      | none => .error .tooFewValues [] := by
  induction terms generalizing stack with
  | nil => rfl
  | cons t rest ih =>
    obtain ⟨sign, e⟩ := t
    cases stack with
    | nil => exact run_pop_nil _ _
    | cons v stack =>
      have hrest := ih stack
      rw [popTerms, pop, Algebra.take?, run_pop_cons]
      cases htake : Algebra.take? rest stack with
      | none =>
        rw [htake] at hrest
        exact run_bind_error hrest _
      | some taken =>
        rw [htake] at hrest
        exact run_bind_ok hrest _

theorem run_chain (store : Store) (l : Label) (family : Family) (o : Sign)
    (term : Sign × Expr) (rest : List (Sign × Expr)) (stack : List Float) :
    (visit store (.chain l family o term rest)).run stack =
      match Algebra.take? (term :: rest) stack with
      | some (first :: operands, left) => .ok () (chainValue family first operands :: left)
      | _ => .error .tooFewValues [] := by
  obtain ⟨sign, e⟩ := term
  cases stack with
  | nil => exact run_pop_nil _ _
  | cons v stack =>
    have hrest := run_popTerms rest stack
    rw [visit, pop, Algebra.take?, run_pop_cons]
    cases htake : Algebra.take? rest stack with
    | none =>
      rw [htake] at hrest
      exact run_bind_error hrest _
    | some taken =>
      rw [htake] at hrest
      exact run_bind_ok hrest _

end Valuation

namespace Rendition

/-- Without a text for every term all texts that there were are popped. -/
theorem run_writeTerms (family : Family) (text : String) (terms : List (Sign × Expr))
    (stack : List Rendered) :
    (writeTerms family text terms).run stack =
      match Algebra.take? terms stack with
      | some (operands, left) => .ok (Rendered.ofTerms family text operands) left
      | none => .error .tooFewTexts [] := by
  induction terms generalizing text stack with
  | nil => rfl
  | cons t rest ih =>
    obtain ⟨sign, e⟩ := t
    cases stack with
    | nil => exact run_pop_nil _ _
    | cons r stack =>
      rw [writeTerms, pop, Algebra.take?, run_pop_cons, ih]
      cases Algebra.take? rest stack with
      | none => rfl
      | some taken => rfl

theorem run_chain (l : Label) (family : Family) (o : Sign) (term : Sign × Expr)
    (rest : List (Sign × Expr)) (stack : List Rendered) :
    (visit (.chain l family o term rest)).run stack =
      match Algebra.take? (term :: rest) stack with
      | some (first :: operands, left) => .ok () (Rendered.ofChain family first operands :: left)
      | _ => .error .tooFewTexts [] := by
  obtain ⟨sign, e⟩ := term
  cases stack with
  | nil => exact run_pop_nil _ _
  | cons r stack =>
    have hrest := run_writeTerms family (Rendered.firstTerm family (sign, r)) rest stack
    rw [visit, pop, Algebra.take?, run_pop_cons]
    cases htake : Algebra.take? rest stack with
    | none =>
      rw [htake] at hrest
      exact run_bind_error hrest _
    | some taken =>
      rw [htake] at hrest
      exact run_bind_ok hrest _

end Rendition

/-- The machine of values steps as if it took the operands of a node at once. -/
theorem step_valuation (store : Store) (stack : List Float) (e : Expr) :
    (valuation store).step stack e = (valueAlgebra store).step stack e := by
  cases e with
  | const | var => rfl
  | chain l family o first rest =>
    simp only [valuation, Machine.ofVisit, Valuation.run_chain, Algebra.step]
    cases Algebra.take? (first :: rest) stack with
    | none => rfl
    | some taken =>
      obtain ⟨operands, left⟩ := taken
      cases operands with
      | nil => rfl
      | cons a operands => rfl
  | power l base exponent =>
    cases stack with
    | nil => rfl
    | cons a rest =>
      cases rest with
      | nil => rfl
      | cons b left => rfl
  | call l callee argument =>
    cases stack with
    | nil => rfl
    | cons a left =>
      cases callee with
      | builtin function => rfl
      | unknown name => rfl

/-- The machine of texts steps as if it took the operands of a node at once. -/
theorem step_rendition (stack : List Rendered) (e : Expr) :
    rendition.step stack e = textAlgebra.step stack e := by
  cases e with
  | const l v =>
    simp only [rendition, Machine.ofVisit, Rendition.visit, Algebra.step, textAlgebra]
    cases Rendered.ofConst v with
    | ok r => rfl
    | error fault => rfl
  | var => rfl
  | chain l family o first rest =>
    simp only [rendition, Machine.ofVisit, Rendition.run_chain, Algebra.step]
    cases Algebra.take? (first :: rest) stack with
    | none => rfl
    | some taken =>
      obtain ⟨operands, left⟩ := taken
      cases operands with
      | nil => rfl
      | cons a operands => rfl
  | power l base exponent =>
    cases stack with
    | nil => rfl
    | cons a rest =>
      cases rest with
      | nil => rfl
      | cons b left => rfl
  | call l callee argument =>
    cases stack with
    | nil => rfl
    | cons a left =>
      cases callee with
      | builtin function => rfl
      | unknown name => rfl

theorem valuation_eq (store : Store) : valuation store = (valueAlgebra store).machine :=
  congrArg (Machine.mk · Fault.notOneValue)
    (funext fun stack => funext (step_valuation store stack))

theorem rendition_eq : rendition = textAlgebra.machine :=
  congrArg (Machine.mk · Fault.notOneText) (funext fun stack => funext (step_rendition stack))

namespace Expr

theorem evaluate_eq_fold (store : Store) (root : Expr) :
    root.evaluate store = (valueAlgebra store).fold root := by
  rw [evaluate, valuation_eq, Algebra.reduce_eq_fold]

theorem render_eq_fold (root : Expr) : root.render = (textAlgebra.fold root).map (·.text) := by
  rw [render, rendition_eq, Algebra.reduce_eq_fold]
  cases textAlgebra.fold root with
  | ok r => rfl
  | error fault => rfl

end Expr

end Reckoner
