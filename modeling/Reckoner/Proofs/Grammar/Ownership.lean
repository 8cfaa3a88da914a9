import Mathlib.Data.Multiset.OrderedMonoid
import Reckoner.Proofs.Grammar.Prefixes
import Reckoner.Proofs.Sharing
import Reckoner.Proofs.Source

/-!
Who holds a node while tokens are read. A node is held as often as it has a position in
the value at hand or in a construct around it. The parser only moves nodes: filling a
construct, going on a chain in place among it, never makes a second holder of a node, and
each token can add the one node labelled by its place. So at every moment all nodes have
one holder, and so they have in the tree that is read.
-/

namespace Reckoner

namespace Expr

def nodes (e : Expr) : Multiset Label := ↑e.labels

theorem nodes_power (l : Label) (base exponent : Expr) :
    (power l base exponent).nodes = l ::ₘ base.nodes + exponent.nodes := by
  simp [nodes, labels_power]

theorem nodes_call (l : Label) (callee : Callee) (argument : Expr) :
    (call l callee argument).nodes = l ::ₘ argument.nodes := by
  simp [nodes, labels_call]

theorem nodes_negate (l : Label) (e : Expr) : (e.negate l).nodes = l ::ₘ e.nodes := by
  simp [nodes, negate, labels_chain]

/-- Going on a chain drops the label that a new chain would have had. -/
theorem nodes_extend_le (soFar : Expr) (family : Family) (l : Label) (sign : Sign) (term : Expr) :
    (soFar.extend family l sign term).nodes ≤ l ::ₘ soFar.nodes + term.nodes := by
  rcases labels_extend soFar family l sign term with h | h
  · rw [nodes, h, ← Multiset.coe_add, Multiset.cons_add]
    exact Multiset.le_cons_self _ l
  · rw [nodes, h, ← Multiset.cons_coe, ← Multiset.coe_add, Multiset.cons_add]
    rfl

end Expr

namespace Parser

/-- The nodes in a construct, and the label of the one it may become. -/
def Frame.nodes : Frame → Multiset Label
  | bracket _ => 0
  | sign _ _ label => {label}
  | chain _ soFar _ label => label ::ₘ soFar.nodes
  | raise base label => label ::ₘ base.nodes
  | call _ label => {label}

def around (frames : List Frame) : Multiset Label := (frames.map Frame.nodes).sum

def State.nodes : State → Multiset Label
  | awaiting frames => around frames
  | holding frames e => around frames + e.nodes
  | finished tree => tree.nodes

theorem around_cons (frame : Frame) (frames : List Frame) :
    around (frame :: frames) = frame.nodes + around frames :=
  List.sum_cons

/-- The last operand goes into the construct, and nothing is there twice that was not. -/
theorem Frame.nodes_fill_le (frame : Frame) (e : Expr) :
    (frame.fill e).nodes ≤ frame.nodes + e.nodes := by
  cases frame with
  | bracket opening => exact le_add_self
  | sign level sign label =>
    cases sign with
    | plus => exact le_add_self
    | minus => exact (Expr.nodes_negate label e).le
  | chain family soFar sign label => exact Expr.nodes_extend_le soFar family label sign e
  | raise base label => exact (Expr.nodes_power label base e).le
  | call function label => exact (Expr.nodes_call label _ e).le

theorem around_fill_le (frame : Frame) (frames : List Frame) (e : Expr) :
    around frames + (frame.fill e).nodes ≤ around (frame :: frames) + e.nodes := by
  rw [around_cons, add_comm frame.nodes, add_assoc]
  exact add_le_add_right (frame.nodes_fill_le e) (around frames)

theorem nodes_settle_le (loosest : Level) (frames : List Frame) (e : Expr) :
    around (settle loosest frames e).1 + (settle loosest frames e).2.nodes ≤
      around frames + e.nodes := by
  induction frames generalizing e with
  | nil => exact le_rfl
  | cons frame frames ih =>
    unfold settle
    split
    · exact (ih (frame.fill e)).trans (around_fill_le frame frames e)
    · exact le_rfl

theorem nodes_close?_le {frames outer : List Frame} {e value : Expr}
    (h : close? frames e = some (outer, value)) :
    around outer + value.nodes ≤ around frames + e.nodes := by
  induction frames generalizing e with
  | nil => simp [close?] at h
  | cons frame frames ih =>
    refine le_trans ?_ (around_fill_le frame frames e)
    cases frame with
    | bracket opening =>
      obtain ⟨rfl, rfl⟩ := Prod.mk.inj (Option.some.inj h)
      exact le_rfl
    | sign | chain | raise | call => exact ih h

theorem nodes_complete_le {frames : List Frame} {e tree : Expr}
    (h : complete frames e = .ok tree) : tree.nodes ≤ around frames + e.nodes := by
  induction frames generalizing e with
  | nil =>
    obtain rfl := Except.ok.inj h
    exact le_add_self
  | cons frame frames ih =>
    cases frame with
    | bracket opening => simp [complete] at h
    | sign | chain | raise | call => exact (ih h).trans (around_fill_le _ frames e)

theorem nodup_of_le_range' {low length : Nat} {held : Multiset Label}
    (h : held ≤ ↑(List.range' low length)) : held.Nodup :=
  Multiset.nodup_of_le h (Multiset.coe_nodup.mpr List.nodup_range')

namespace State

variable {label : Nat} {t : Token} {tokens : List Token} {frames : List Frame} {e tree : Expr}
  {s s' : State}

theorem nodes_finish_le (h : s.finish t = .ok tree) : tree.nodes ≤ s.nodes := by
  cases s with
  | awaiting frames => simp [finish] at h
  | holding frames e =>
    cases hcomplete : complete frames e with
    | error opening => simp [finish, hcomplete] at h
    | ok value =>
      simp only [finish, hcomplete, Except.ok.injEq] at h
      subst h
      exact nodes_complete_le hcomplete
  | finished tree' => exact (congrArg Expr.nodes (Except.ok.inj h)).ge

theorem nodes_await_le (h : await label t frames = .ok s) :
    s.nodes ≤ label ::ₘ around frames := by
  rw [← Multiset.singleton_add]
  rcases await_cases h with ⟨v, -, rfl⟩ | ⟨n, -, rfl⟩ | ⟨function, -, rfl⟩ | ⟨-, rfl⟩ |
    ⟨sign, level, -, -, rfl⟩
  · exact (add_comm _ _).le
  · exact (add_comm _ _).le
  · exact (around_cons _ _).le
  · rw [nodes, around_cons, Frame.nodes, zero_add]
    exact le_add_self
  · exact (around_cons _ _).le

/-- A construct opened with what is settled adds its own label. -/
theorem nodes_reopened_le {frame : Frame} (loosest : Level)
    (h : frame.nodes = label ::ₘ (settle loosest frames e).2.nodes) :
    (awaiting (frame :: (settle loosest frames e).1)).nodes ≤
      label ::ₘ around frames + e.nodes := by
  rw [nodes, around_cons, h, Multiset.cons_add, Multiset.cons_add, add_comm]
  exact Multiset.cons_le_cons label (nodes_settle_le loosest frames e)

theorem nodes_proceed_le (h : proceed label t frames e = .ok s) :
    s.nodes ≤ label ::ₘ around frames + e.nodes := by
  rcases proceed_cases h with ⟨-, rfl⟩ | ⟨-, outer, value, hclose, rfl⟩ | ⟨family, sign, -, rfl⟩
  · exact nodes_reopened_le _ rfl
  · rw [Multiset.cons_add]
    exact (nodes_close?_le hclose).trans (Multiset.le_cons_self _ label)
  · exact nodes_reopened_le _ rfl

/-- A token adds at most the node that it makes. -/
theorem nodes_step_le (h : s.step label t = .ok s') : s'.nodes ≤ label ::ₘ s.nodes := by
  unfold step at h
  by_cases hfinish : t.kind = .finish
  · rw [if_pos hfinish] at h
    cases hs : s.finish t with
    | error error => simp [hs, Except.map] at h
    | ok tree =>
      rw [hs] at h
      obtain rfl := Except.ok.inj h
      exact (nodes_finish_le hs).trans (Multiset.le_cons_self _ label)
  · rw [if_neg hfinish] at h
    cases s with
    | awaiting frames => exact nodes_await_le h
    | holding frames e =>
      show s'.nodes ≤ label ::ₘ (around frames + e.nodes)
      rw [← Multiset.cons_add]
      exact nodes_proceed_le h
    | finished tree => simp at h

theorem nodes_run_le (h : s.run label tokens = .ok s') :
    s'.nodes ≤ s.nodes + ↑(List.range' label tokens.length) := by
  induction tokens generalizing label s with
  | nil =>
    obtain rfl := Except.ok.inj h
    exact le_self_add
  | cons t tokens ih =>
    unfold run at h
    cases hstep : s.step label t with
    | error error => simp [hstep] at h
    | ok next =>
      rw [hstep] at h
      -- The step adds the first label of the range, the rest of the run the others.
      refine (ih h).trans ?_
      rw [List.length_cons, List.range'_succ, ← Multiset.cons_coe, Multiset.add_cons,
        ← Multiset.cons_add]
      exact add_le_add_left (nodes_step_le hstep) _

/-- All that is held comes from different tokens. -/
theorem nodes_le_of_run (h : start.run label tokens = .ok s) :
    s.nodes ≤ ↑(List.range' label tokens.length) := by
  have hle := nodes_run_le h
  rwa [show start.nodes = 0 from rfl, zero_add] at hle

theorem nodup_of_run (h : start.run label tokens = .ok s) : s.nodes.Nodup :=
  nodup_of_le_range' (nodes_le_of_run h)

end State

/-- Every node of the tree is made by a token of its own. -/
theorem nodes_parse_le {label : Nat} {tokens : List Token} {tree : Expr}
    (h : parse label tokens = .ok tree) : tree.nodes ≤ ↑(List.range' label tokens.length) := by
  unfold parse at h
  cases hrun : State.start.run label tokens with
  | error error => simp [hrun] at h
  | ok s =>
    rw [hrun] at h
    exact (State.nodes_finish_le h).trans (State.nodes_le_of_run hrun)

end Parser

namespace Rooted

variable {label : Nat} {tokens : List Token} {r : Rooted}

theorem nodes_ofTokens_le (h : ofTokens label tokens = .ok r) :
    r.root.nodes ≤ ↑(List.range' label tokens.length) := by
  obtain ⟨tree, hparse, rfl⟩ := ofTokens_eq_ok.mp h
  exact Parser.nodes_parse_le hparse

theorem distinct_of_ofTokens (h : ofTokens label tokens = .ok r) : r.root.Distinct :=
  Multiset.coe_nodup.mp (Parser.nodup_of_le_range' (nodes_ofTokens_le h))

/-- The nodes of a tree have labels from the range that was free for them. -/
theorem label_le_and_lt_free (h : ofTokens label tokens = .ok r) {l : Label}
    (hl : l ∈ r.root.labels) : label ≤ l ∧ l < r.free := by
  have hrange := Multiset.mem_of_le (nodes_ofTokens_le h) (Multiset.mem_coe.mpr hl)
  obtain ⟨tree, -, rfl⟩ := ofTokens_eq_ok.mp h
  exact List.mem_range'_1.mp (Multiset.mem_coe.mp hrange)

/-- Whatever tokens are read, at no moment has a node two holders, so in the tree it has one
position, and the check counts all positions. A tree that is read later, from the first
free label on or any later one, has none of the nodes. -/
theorem ofTokens_shares_nothing (h : ofTokens label tokens = .ok r) :
    (∀ before after, tokens = before ++ after →
      ∃ s, Parser.State.start.run label before = .ok s ∧ s.nodes.Nodup) ∧
    r.root.Distinct ∧
    (∀ store, r.root.check store = .ok r.root.preorder.length) ∧
    ∀ label' tokens' r', r.free ≤ label' → ofTokens label' tokens' = .ok r' →
      r.root.labels.Disjoint r'.root.labels := by
  have hdistinct := distinct_of_ofTokens h
  refine ⟨?_, hdistinct, Expr.check_of_distinct hdistinct, ?_⟩
  · rintro before after rfl
    obtain ⟨tree, hparse, -⟩ := ofTokens_eq_ok.mp h
    -- What can be completed has been read without complaint up to any place.
    have hviable : Parser.Viable label (before ++ after) :=
      ⟨[], tree, by rwa [List.append_nil]⟩
    obtain ⟨s, hrun⟩ := Parser.viable_iff.mp hviable.of_append
    exact ⟨s, hrun, Parser.State.nodup_of_run hrun⟩
  · intro label' tokens' r' hfree h' l hl hl'
    have hlt : l < r.free := (label_le_and_lt_free h hl).2
    have hle : label' ≤ l := (label_le_and_lt_free h' hl').1
    exact Nat.lt_irrefl l (Nat.lt_of_lt_of_le hlt (Nat.le_trans hfree hle))

/-- In `(a - b) - c` the bracket's chain is gone on, and read twice it gives two trees. -/
theorem ofTokens_shares_nothing_extended_chain :
    let tokens : List Token := [⟨.openBracket, "(", 0⟩, ⟨.name, "a", 1⟩, ⟨.minus, "-", 2⟩,
      ⟨.name, "b", 3⟩, ⟨.closeBracket, ")", 4⟩, ⟨.minus, "-", 5⟩, ⟨.name, "c", 6⟩]
    ∃ r r', ofTokens 0 tokens = .ok r ∧ ofTokens r.free tokens = .ok r' ∧
      r.root.check Store.empty = .ok 4 ∧ r.root.labels.Disjoint r'.root.labels := by
  intro tokens
  have hread : ofTokens 0 tokens = .ok ⟨.chain 2 .sum .minus (.plus, .var 1 "a")
      [(.minus, .var 3 "b"), (.minus, .var 6 "c")], Store.empty, 7⟩ := rfl
  have hagain : ofTokens 7 tokens = .ok ⟨.chain 9 .sum .minus (.plus, .var 8 "a")
      [(.minus, .var 10 "b"), (.minus, .var 13 "c")], Store.empty, 14⟩ := rfl
  obtain ⟨-, -, hcheck, hdisjoint⟩ := ofTokens_shares_nothing hread
  exact ⟨_, _, hread, hagain, hcheck Store.empty, hdisjoint 7 tokens _ (Nat.le_refl 7) hagain⟩

end Rooted

end Reckoner
