import Reckoner.Proofs.Machines
import Reckoner.Proofs.Rendering.Unwritable

/-!
Machines fed by hand. Whatever nodes come in whatever order, the depth of the stack alone
tells whether the next one finds its operands, and the depth after it is told by its number
of children. So two machines that started empty stay equally deep, fail at the same nodes
and go on alike after that, whatever they make of their operands.
-/

namespace Reckoner

namespace Machine

variable {α : Type} {m : Machine α} {tooFew : Fault} {e : Expr} {nodes : List Expr}
variable {stack : List α}

/-- What a node does to a stack: one thing takes the place of its operands and what is below
them stays, or there are too few and they are all gone. -/
structure Fed (tooFew : Fault) (e : Expr) (before : List α) (s : Stepped α) : Prop where
  succeeds_iff : s.fault = none ↔ e.arity ≤ before.length
  depth : e.arity ≤ before.length → s.stack.length = before.length - e.arity + 1
  below : e.arity ≤ before.length → ∃ a, s.stack = a :: before.drop e.arity
  emptied : before.length < e.arity → s.stack = [] ∧ s.fault = some tooFew

def depthAfter (depth : Nat) (e : Expr) : Nat :=
  if e.arity ≤ depth then depth - e.arity + 1 else 0

theorem Fed.length_eq {tooFew : Fault} {s : Stepped α} (h : Fed tooFew e stack s) :
    s.stack.length = depthAfter stack.length e := by
  rw [depthAfter]
  split
  · rename_i hle
    exact h.depth hle
  · rename_i hnot
    rw [(h.emptied (Nat.lt_of_not_le hnot)).1]
    rfl

theorem settled_cons (stack : List α) (first : Stepped α) (rest : List (Stepped α)) :
    settled stack (first :: rest) = settled first.stack rest := by
  cases rest with
  | nil => rfl
  | cons next rest => simp [settled, List.getLast?_cons]

theorem length_trace (m : Machine α) (stack : List α) (nodes : List Expr) :
    (m.trace stack nodes).length = nodes.length := by
  induction nodes generalizing stack with
  | nil => rfl
  | cons e rest ih => simp [trace, ih]

/-- The depth at any moment is told by the nodes fed before. -/
theorem length_settled (hfed : ∀ e ∈ nodes, ∀ stack, Fed tooFew e stack (m.step stack e))
    (stack : List α) (i : Nat) :
    (settled stack ((m.trace stack nodes).take i)).length =
      (nodes.take i).foldl depthAfter stack.length := by
  induction nodes generalizing stack i with
  | nil => simp [trace, settled]
  | cons e rest ih =>
    obtain ⟨he, hrest⟩ := List.forall_mem_cons.mp hfed
    cases i with
    | zero => rfl
    | succ i =>
      rw [trace, List.take_succ_cons, settled_cons, ih hrest, (he stack).length_eq]
      rfl

theorem fed_trace (hfed : ∀ e ∈ nodes, ∀ stack, Fed tooFew e stack (m.step stack e))
    (stack : List α) {i : Nat} (hi : nodes[i]? = some e) :
    ∃ s, (m.trace stack nodes)[i]? = some s ∧
      Fed tooFew e (settled stack ((m.trace stack nodes).take i)) s := by
  induction nodes generalizing stack i with
  | nil => simp at hi
  | cons first rest ih =>
    obtain ⟨hfirst, hrest⟩ := List.forall_mem_cons.mp hfed
    cases i with
    | zero =>
      obtain rfl : first = e := by simpa using hi
      exact ⟨_, rfl, hfirst stack⟩
    | succ i =>
      obtain ⟨s, hs, hnext⟩ := ih hrest (m.step stack first).stack (by simpa using hi)
      rw [trace, List.take_succ_cons, settled_cons]
      exact ⟨s, hs, hnext⟩

/-- What a machine answers at the end. -/
theorem result_cases (m : Machine α) (stack : List α) :
    stack.length = 1 ∧ (∃ a, m.result stack = .ok a) ∨
      stack.length ≠ 1 ∧ m.result stack = .error (m.notOne stack.length) := by
  match stack with
  | [] => exact .inr ⟨nofun, rfl⟩
  | [a] => exact .inl ⟨rfl, a, rfl⟩
  | a :: b :: left => exact .inr ⟨by simp, rfl⟩

end Machine

open Machine

namespace Algebra

variable {α : Type} {g : Algebra α} {e : Expr} {stack : List α}

/-- The algebra makes something of the node whatever its operands are. -/
def Accepts (g : Algebra α) : Expr → Prop
  | .const _ v => ∃ a, g.const v = .ok a
  | .call _ c _ => ∀ argument, ∃ a, g.call c argument = .ok a
  | _ => True

theorem exists_take? {terms : List (Sign × Expr)} (h : terms.length ≤ stack.length) :
    ∃ operands, take? terms stack = some (operands, stack.drop terms.length) ∧
      operands.length = terms.length := by
  induction terms generalizing stack with
  | nil => exact ⟨[], rfl, rfl⟩
  | cons t rest ih =>
    obtain ⟨s, e⟩ := t
    cases stack with
    | nil => exact absurd h (Nat.not_succ_le_zero _)
    | cons a stack =>
      obtain ⟨operands, htake, hlength⟩ := ih (Nat.le_of_succ_le_succ h)
      exact ⟨(s, a) :: operands, by simp [take?, htake], by simp [hlength]⟩

theorem take?_eq_none {terms : List (Sign × Expr)} (h : stack.length < terms.length) :
    take? terms stack = none := by
  induction terms generalizing stack with
  | nil => exact absurd h (Nat.not_lt_zero _)
  | cons t rest ih =>
    obtain ⟨s, e⟩ := t
    cases stack with
    | nil => rfl
    | cons a stack => simp [take?, ih (Nat.lt_of_succ_lt_succ h)]

/-- With an operand for every child one thing takes their place. -/
theorem exists_step (haccepts : g.Accepts e) (h : e.arity ≤ stack.length) :
    ∃ a, g.step stack e = ⟨a :: stack.drop e.arity, none⟩ := by
  cases e with
  | const l v =>
    obtain ⟨a, ha⟩ := haccepts
    exact ⟨a, by rw [step, ha]; rfl⟩
  | var l n => exact ⟨g.var l n, rfl⟩
  | chain l family o first rest =>
    have hlength : (first :: rest).length ≤ stack.length := by
      simpa [Expr.arity, Expr.children] using h
    obtain ⟨operands, htake, hoperands⟩ := exists_take? hlength
    cases operands with
    | nil => simp at hoperands
    | cons a operands =>
      refine ⟨g.chain family a operands, ?_⟩
      simp only [step, htake]
      simp [push, Expr.arity, Expr.children]
  | power l base exponent =>
    cases stack with
    | nil => simp [Expr.arity, Expr.children] at h
    | cons a left =>
      cases left with
      | nil => simp [Expr.arity, Expr.children] at h
      | cons b left => exact ⟨g.power a b, rfl⟩
  | call l c argument =>
    cases stack with
    | nil => simp [Expr.arity, Expr.children] at h
    | cons a left =>
      obtain ⟨b, hb⟩ := haccepts a
      exact ⟨b, by simp only [step, hb]; rfl⟩

/-- Without enough operands there is nothing left. -/
theorem step_of_lt (h : stack.length < e.arity) : g.step stack e = ⟨[], some g.tooFew⟩ := by
  cases e with
  | const | var => exact absurd h (Nat.not_lt_zero _)
  | chain l family o first rest =>
    have hlength : stack.length < (first :: rest).length := by
      simpa [Expr.arity, Expr.children] using h
    simp only [step, take?_eq_none hlength]
  | power l base exponent =>
    cases stack with
    | nil => rfl
    | cons a left =>
      cases left with
      | nil => rfl
      | cons b left => simp [Expr.arity, Expr.children] at h
  | call l c argument =>
    cases stack with
    | nil => rfl
    | cons a left => simp [Expr.arity, Expr.children] at h

theorem fed_step (haccepts : g.Accepts e) (stack : List α) :
    Fed g.tooFew e stack (g.step stack e) := by
  by_cases h : e.arity ≤ stack.length
  · obtain ⟨a, hstep⟩ := exists_step haccepts h
    have hdepth : (a :: stack.drop e.arity).length = stack.length - e.arity + 1 := by simp
    rw [hstep]
    exact ⟨iff_of_true rfl h, fun _ => hdepth, fun _ => ⟨a, rfl⟩,
      fun hlt => absurd h (Nat.not_le_of_lt hlt)⟩
  · rw [step_of_lt (Nat.lt_of_not_le h)]
    exact ⟨iff_of_false nofun h, fun hle => absurd hle h, fun hle => absurd hle h,
      fun _ => ⟨rfl, rfl⟩⟩

end Algebra

theorem accepts_valuation {e : Expr} (hknown : e.Known) (store : Store) :
    (valueAlgebra store).Accepts e := by
  cases e with
  | const l v => exact ⟨v, rfl⟩
  | call l c argument =>
    obtain ⟨function, rfl⟩ := hknown
    exact fun argument => ⟨_, rfl⟩
  | var | chain | power => trivial

theorem accepts_rendition {e : Expr} (hknown : e.Known) (hnumeric : e.Numeric) :
    textAlgebra.Accepts e := by
  cases e with
  | const l v =>
    obtain ⟨text, htext⟩ := Numeral.exists_literal? hnumeric
    exact ⟨⟨text, if text.toList.head? = some '-' then .sum else .atom⟩,
      by simp only [textAlgebra, Rendered.ofConst, htext]⟩
  | call l c argument =>
    obtain ⟨function, rfl⟩ := hknown
    exact fun argument => ⟨_, rfl⟩
  | var | chain | power => trivial

theorem fed_valuation {e : Expr} (hknown : e.Known) (store : Store) (stack : List Float) :
    Fed .tooFewValues e stack ((valuation store).step stack e) := by
  rw [step_valuation]
  exact Algebra.fed_step (accepts_valuation hknown store) stack

theorem fed_rendition {e : Expr} (hknown : e.Known) (hnumeric : e.Numeric)
    (stack : List Rendered) : Fed .tooFewTexts e stack (rendition.step stack e) := by
  rw [step_rendition]
  exact Algebra.fed_step (accepts_rendition hknown hnumeric) stack

/-- The machine of values and the machine of texts, both started empty and fed with the same
nodes in any order. Each node fails in both or in neither, by the depth of the stack alone,
and after it both stacks are equally deep; so both give a result or neither does. -/
theorem machines_in_step (store : Store) {nodes : List Expr}
    (h : ∀ e ∈ nodes, e.Known ∧ e.Numeric) :
    let values := (valuation store).trace [] nodes
    let texts := rendition.trace [] nodes
    values.length = nodes.length ∧ texts.length = nodes.length ∧
    (∀ i e, nodes[i]? = some e → ∃ v t, values[i]? = some v ∧ texts[i]? = some t ∧
      v.stack.length = t.stack.length ∧ (v.fault = none ↔ t.fault = none) ∧
      Fed .tooFewValues e (settled [] (values.take i)) v ∧
      Fed .tooFewTexts e (settled [] (texts.take i)) t) ∧
    ∀ i, ∃ depth,
      (settled [] (values.take i)).length = depth ∧ (settled [] (texts.take i)).length = depth ∧
      (depth = 1 ∧ (∃ v, (valuation store).result (settled [] (values.take i)) = .ok v) ∧
          (∃ t, rendition.result (settled [] (texts.take i)) = .ok t) ∨
        depth ≠ 1 ∧
          (valuation store).result (settled [] (values.take i)) = .error (.notOneValue depth) ∧
          rendition.result (settled [] (texts.take i)) = .error (.notOneText depth)) := by
  intro values texts
  have hvalues : ∀ e ∈ nodes, ∀ stack,
      Fed .tooFewValues e stack ((valuation store).step stack e) := fun e he =>
    fed_valuation (h e he).1 store
  have htexts : ∀ e ∈ nodes, ∀ stack, Fed .tooFewTexts e stack (rendition.step stack e) :=
    fun e he => fed_rendition (h e he).1 (h e he).2
  have hdepth : ∀ i, (settled [] (values.take i)).length = (settled [] (texts.take i)).length := by
    intro i
    rw [length_settled hvalues, length_settled htexts]
    rfl
  refine ⟨length_trace .., length_trace .., fun i e hi => ?_, fun i => ?_⟩
  · obtain ⟨v, hv, hfed⟩ := fed_trace hvalues [] hi
    obtain ⟨t, ht, hfed'⟩ := fed_trace htexts [] hi
    refine ⟨v, t, hv, ht, ?_, ?_, hfed, hfed'⟩
    · rw [hfed.length_eq, hfed'.length_eq]
      exact congrArg (depthAfter · e) (hdepth i)
    · rw [hfed.succeeds_iff, hfed'.succeeds_iff]
      exact iff_of_eq (congrArg (e.arity ≤ ·) (hdepth i))
  · refine ⟨_, rfl, (hdepth i).symm, ?_⟩
    rcases (valuation store).result_cases (settled [] (values.take i)) with
      ⟨hone, hresult⟩ | ⟨hnot, hresult⟩
    · rcases rendition.result_cases (settled [] (texts.take i)) with
        ⟨-, hresult'⟩ | ⟨hnot', -⟩
      · exact .inl ⟨hone, hresult, hresult'⟩
      · exact absurd ((hdepth i).symm.trans hone) hnot'
    · rcases rendition.result_cases (settled [] (texts.take i)) with
        ⟨hone', -⟩ | ⟨-, hresult'⟩
      · exact absurd ((hdepth i).trans hone') hnot
      · rw [← hdepth i] at hresult'
        exact .inr ⟨hnot, hresult, hresult'⟩

/-- A power with one operand on the stack fails in both machines and takes it away. What is fed
after it is a whole expression again. -/
theorem machines_in_step_after_power :
    ∃ v t, ((valuation Store.empty).trace [] [.var 0 "x", .power 1 (.var 0 "x") (.var 0 "x"),
        .const 2 2.0, .call 3 (.builtin .sqrt) (.const 2 2.0)])[1]? = some v ∧
      (rendition.trace [] [.var 0 "x", .power 1 (.var 0 "x") (.var 0 "x"),
        .const 2 2.0, .call 3 (.builtin .sqrt) (.const 2 2.0)])[1]? = some t ∧
      (v.stack = [] ∧ v.fault = some .tooFewValues) ∧
      t.stack = [] ∧ t.fault = some .tooFewTexts := by
  have hnodes : ∀ e ∈ [Expr.var 0 "x", .power 1 (.var 0 "x") (.var 0 "x"), .const 2 2.0,
      .call 3 (.builtin .sqrt) (.const 2 2.0)], e.Known ∧ e.Numeric := by
    have htwo : (2.0 : Float).isNaN = false := by decide +kernel
    intro e he
    simp only [List.mem_cons, List.not_mem_nil, or_false] at he
    rcases he with rfl | rfl | rfl | rfl
    · exact ⟨trivial, trivial⟩
    · exact ⟨trivial, trivial⟩
    · exact ⟨trivial, htwo⟩
    · exact ⟨⟨.sqrt, rfl⟩, trivial⟩
  obtain ⟨-, -, hsteps, -⟩ := machines_in_step Store.empty hnodes
  obtain ⟨v, t, hv, ht, -, -, hfed, hfed'⟩ := hsteps 1 _ rfl
  exact ⟨v, t, hv, ht, hfed.emptied (by decide), hfed'.emptied (by decide)⟩

end Reckoner
