import Reckoner.Proofs.Grammar.Value
import Reckoner.Session

/-!
Walks in a session. A walk that has shown some nodes has the rest of the pre-order still to
come, whatever else is done in between: the pending nodes stand for exactly that rest. Other
walks, bindings and questions do not touch it, and walks touch neither the tree nor the
values, so what a variable shows is the last value bound before its node is reached.
-/

namespace Reckoner

theorem mapError_eq_ok {ε ε' α : Type} {x : Except ε α} {f : ε → ε'} {a : α} :
    x.mapError f = .ok a ↔ x = .ok a := by
  cases x <;> simp [Except.mapError]

theorem Expr.bind_eq_bindAll (name : String) (value : Float) (root : Expr) (store : Store) :
    root.bind name value store = root.bindAll (Bindings.ofPairs [(name, value)]) store := by
  have hsome : (Bindings.ofPairs [(name, value)]).isEmpty = false := Std.TreeMap.isEmpty_insert
  simp only [bind, bindAll, hsome, Bool.false_eq_true, if_false]

/-- Whatever a tree is made from, positions with one label are one node. -/
theorem Source.consistent_of_build {source : Source} {label : Label} {r : Rooted}
    (h : source.build label = .ok r) : r.root.Consistent := by
  have htokens {tokens : List Token} (hread : Rooted.ofTokens label tokens = .ok r) :
      r.root.Consistent := by
    obtain ⟨tree, htree, rfl⟩ := Rooted.ofTokens_eq_ok.mp hread
    obtain ⟨p, -, -, -, -, -, rfl⟩ := Parser.exists_phrase_of_parse htree
    exact .of_nodup (p.distinct_tree label)
  cases source with
  | text text =>
    obtain ⟨tokens, -, hread⟩ := Rooted.ofText_eq_ok.mp (mapError_eq_ok.mp h)
    exact htokens hread
  | tokens tokens => exact htokens (mapError_eq_ok.mp h)
  | parts parts => exact Rooted.consistent_of_ofParts (mapError_eq_ok.mp h)

namespace Session

namespace Command

def walk? : Command → Option String
  | startWalk walk => some walk
  | nextNode walk => some walk
  | restOfWalk walk => some walk
  | _ => none

def bound : Command → List (String × Float)
  | bind name value => [(name, value)]
  | bindAll pairs => pairs
  | _ => []

theorem bound_of_walk? {c : Command} {w : String} (h : c.walk? = some w) : c.bound = [] := by
  cases c with
  | startWalk | nextNode | restOfWalk => rfl
  | _ => simp [walk?] at h

end Command

/-- How many nodes of a walk the answer to a command shows. -/
def shown (walk : String) : Command → Except Failure Answer → Nat
  | .nextNode w, .ok (.entry _) => if w = walk then 1 else 0
  | .restOfWalk w, .ok (.entries es) => if w = walk then es.length else 0
  | _, _ => 0

def shownBy (s : Session) (walk : String) : List Command → Nat
  | [] => 0
  | c :: rest => shown walk c (s.run c).2 + (s.run c).1.shownBy walk rest

def after (s : Session) (commands : List Command) : Session :=
  commands.foldl (fun s c => (s.run c).1) s

variable {s : Session} {c : Command} {w : String} {v : Walk}

theorem run_nextNode_eq (s : Session) (w : String) :
    s.run (.nextNode w) =
      match s.walks[w]?.bind Walk.next? with
      | some (e, after) =>
          ({ s with walks := s.walks.insert w after }, .ok (.entry (e.entry s.store)))
      | none => (s, .ok .nothing) :=
  rfl

theorem run_restOfWalk_eq (s : Session) (w : String) :
    s.run (.restOfWalk w) =
      match s.walks[w]? with
      | some v =>
          ({ s with walks := s.walks.insert w ⟨[]⟩ },
            .ok (.entries (v.remaining.map (Expr.entry s.store))))
      | none => (s, .ok (.entries [])) :=
  rfl

/-- Taking up the tree read from the text changes neither values nor walks. -/
theorem run_reparse_keeps (s : Session) :
    (s.run .reparse).1.store = s.store ∧ (s.run .reparse).1.walks = s.walks := by
  simp only [run]
  split <;> exact ⟨rfl, rfl⟩

/-- A command that is about no walk, or about another one, leaves a walk where it is. -/
theorem walks_run (h : c.walk? ≠ some w) : (s.run c).1.walks[w]? = s.walks[w]? := by
  have hinsert (k : String) (hk : k ≠ w) (v : Walk) : (s.walks.insert k v)[w]? = s.walks[w]? := by
    rw [Std.TreeMap.getElem?_insert]
    simp [hk]
  cases c with
  | startWalk k => exact hinsert k (fun hk => h (congrArg some hk)) _
  | nextNode k =>
    rw [run_nextNode_eq]
    split
    · exact hinsert k (fun hk => h (congrArg some hk)) _
    · rfl
  | restOfWalk k =>
    rw [run_restOfWalk_eq]
    split
    · exact hinsert k (fun hk => h (congrArg some hk)) _
    · rfl
  | reparse => rw [s.run_reparse_keeps.2]
  | _ => rfl

/-- A command about a walk changes neither the tree nor the values. -/
theorem tree_run_of_walk? (h : c.walk? = some w) :
    (s.run c).1.root = s.root ∧ (s.run c).1.store = s.store := by
  cases c with
  | startWalk => exact ⟨rfl, rfl⟩
  | nextNode =>
    rw [run_nextNode_eq]
    split <;> exact ⟨rfl, rfl⟩
  | restOfWalk =>
    rw [run_restOfWalk_eq]
    split <;> exact ⟨rfl, rfl⟩
  | _ => simp [Command.walk?] at h

/-- Advancing a walk shows the first of the nodes that remain and leaves the others; with
none left nothing happens. -/
theorem run_nextNode (h : s.walks[w]? = some v) :
    (v.remaining = [] ∧ s.run (.nextNode w) = (s, .ok .nothing)) ∨
    ∃ e v', v.remaining = e :: v'.remaining ∧ s.run (.nextNode w) =
      ({ s with walks := s.walks.insert w v' }, .ok (.entry (e.entry s.store))) := by
  cases hnext : v.next? with
  | none =>
    left
    exact ⟨(Walk.next?_eq_none_iff v).mp hnext, by rw [run_nextNode_eq, h, Option.bind_some, hnext]⟩
  | some taken =>
    obtain ⟨e, v'⟩ := taken
    right
    refine ⟨e, v', Walk.remaining_next? hnext, ?_⟩
    rw [run_nextNode_eq, h, Option.bind_some, hnext]

theorem run_restOfWalk (h : s.walks[w]? = some v) :
    s.run (.restOfWalk w) =
      ({ s with walks := s.walks.insert w ⟨[]⟩ },
        .ok (.entries (v.remaining.map (Expr.entry s.store)))) := by
  rw [run_restOfWalk_eq, h]

theorem shown_of_walk?_ne (h : c.walk? ≠ some w) (answer : Except Failure Answer) :
    shown w c answer = 0 := by
  unfold shown
  split
  · exact if_neg fun hk => h (congrArg some hk)
  · exact if_neg fun hk => h (congrArg some hk)
  · rfl

/-- What is shown of a walk is taken off the front of what remains. -/
theorem remaining_run (h : s.walks[w]? = some v) (hc : c ≠ .startWalk w) :
    ∃ v', (s.run c).1.walks[w]? = some v' ∧ shown w c (s.run c).2 ≤ v.remaining.length ∧
      v'.remaining = v.remaining.drop (shown w c (s.run c).2) := by
  by_cases hwalk : c.walk? = some w
  · cases c with
    | startWalk k => exact absurd (congrArg Command.startWalk (Option.some.inj hwalk)) hc
    | nextNode k =>
      obtain rfl := Option.some.inj hwalk
      rcases run_nextNode h with ⟨hnone, hrun⟩ | ⟨e, v', hremaining, hrun⟩
      · rw [hrun]
        exact ⟨v, h, Nat.zero_le _, rfl⟩
      · rw [hrun, hremaining]
        refine ⟨v', Std.TreeMap.getElem?_insert_self, ?_⟩
        simp [shown]
    | restOfWalk k =>
      obtain rfl := Option.some.inj hwalk
      rw [run_restOfWalk h]
      refine ⟨⟨[]⟩, Std.TreeMap.getElem?_insert_self, ?_⟩
      simp [shown, Walk.remaining]
    | _ => simp [Command.walk?] at hwalk
  · rw [shown_of_walk?_ne hwalk, walks_run hwalk]
    exact ⟨v, h, Nat.zero_le _, rfl⟩

/-- After any commands that do not start it anew, a walk has left what has not been shown. -/
theorem remaining_after (h : s.walks[w]? = some v) {commands : List Command}
    (hstart : .startWalk w ∉ commands) :
    ∃ v', (s.after commands).walks[w]? = some v' ∧
      s.shownBy w commands ≤ v.remaining.length ∧
      v'.remaining = v.remaining.drop (s.shownBy w commands) := by
  induction commands generalizing s v with
  | nil => exact ⟨v, h, Nat.zero_le _, rfl⟩
  | cons c rest ih =>
    obtain ⟨hc, hrest⟩ := not_or.mp (mt List.mem_cons.mpr hstart)
    obtain ⟨next, hnext, hshown, hdrop⟩ := remaining_run h (Ne.symm hc)
    obtain ⟨last, hlast, hshownRest, hdropRest⟩ := ih hnext hrest
    have hcount : s.shownBy w (c :: rest) =
        shown w c (s.run c).2 + (s.run c).1.shownBy w rest := rfl
    rw [hdrop, List.length_drop] at hshownRest
    refine ⟨last, hlast, by omega, ?_⟩
    rw [hdropRest, hdrop, List.drop_drop, hcount]

theorem root_run (hc : c ≠ .reparse) : (s.run c).1.root = s.root := by
  by_cases hwalk : c.walk? = none
  · cases c with
    | reparse => exact absurd rfl hc
    | startWalk | nextNode | restOfWalk => simp [Command.walk?] at hwalk
    | _ => rfl
  · obtain ⟨k, hk⟩ := Option.ne_none_iff_exists'.mp hwalk
    exact (tree_run_of_walk? hk).1

/-- A variable of the tree is worth what a command binds its name to, and what it was worth
before if the command does not. -/
theorem get_run (hroot : s.root.Consistent) (c : Command) {l : Label} {n : String}
    (hvar : .var l n ∈ s.root.preorder) :
    (s.run c).1.store.get l = (Bindings.last? c.bound n).getD (s.store.get l) := by
  have hbind (pairs : List (String × Float)) :
      (s.root.bindAll (Bindings.ofPairs pairs) s.store).2.get l =
        (Bindings.last? pairs n).getD (s.store.get l) := by
    have hget := Expr.get_bindAll hroot (Bindings.ofPairs pairs) s.store hvar
    have hvalue : Binder.valueOf? (Bindings.ofPairs pairs) (.var l n) =
        Bindings.last? pairs n := by
      rw [Binder.valueOf?, Expr.name?, Option.bind_some, Bindings.ofPairs,
        Bindings.getElem?_update]
      simp [Bindings.empty]
    rwa [hvalue] at hget
  by_cases hwalk : c.walk? = none
  · cases c with
    | bind name value =>
      have hrun : (s.run (.bind name value)).1.store = (s.root.bind name value s.store).2 := rfl
      rw [hrun, Expr.bind_eq_bindAll]
      exact hbind [(name, value)]
    | bindAll pairs => exact hbind pairs
    | reparse =>
      rw [s.run_reparse_keeps.1]
      rfl
    | startWalk | nextNode | restOfWalk => simp [Command.walk?] at hwalk
    | _ => rfl
  · obtain ⟨k, hk⟩ := Option.ne_none_iff_exists'.mp hwalk
    rw [(tree_run_of_walk? hk).2, Command.bound_of_walk? hk]
    rfl

theorem root_after {commands : List Command} (h : .reparse ∉ commands) :
    (s.after commands).root = s.root := by
  induction commands generalizing s with
  | nil => rfl
  | cons c rest ih =>
    obtain ⟨hc, hrest⟩ := not_or.mp (mt List.mem_cons.mpr h)
    rw [← root_run (s := s) (Ne.symm hc)]
    exact ih hrest

theorem get_after (hroot : s.root.Consistent) {commands : List Command} (h : .reparse ∉ commands)
    {l : Label} {n : String} (hvar : .var l n ∈ s.root.preorder) :
    (s.after commands).store.get l =
      (Bindings.last? (commands.flatMap Command.bound) n).getD (s.store.get l) := by
  induction commands generalizing s with
  | nil => rfl
  | cons c rest ih =>
    obtain ⟨hc, hrest⟩ := not_or.mp (mt List.mem_cons.mpr h)
    have hsame := root_run (s := s) (Ne.symm hc)
    have hnext := ih (s := (s.run c).1) (by rwa [hsame]) hrest (by rwa [hsame])
    rw [get_run hroot c hvar] at hnext
    rw [List.flatMap_cons, Bindings.last?_append, Option.getD_or]
    exact hnext

theorem next?_fst (v : Walk) : v.next?.map Prod.fst = v.remaining[0]? := by
  cases hnext : v.next? with
  | none => simp [(Walk.next?_eq_none_iff v).mp hnext]
  | some taken =>
    obtain ⟨e, v'⟩ := taken
    simp [Walk.remaining_next? hnext]

/-- A walk shows the pre-order of the tree it was started in, one position after the other, and
then nothing more. Whatever has been done before and since, the next node is the one whose place
in the pre-order is the number of nodes shown so far; a variable shows what its name was last
bound to, before the walk or during it. Commands about other walks, and all that are about
none, leave the walk where it is; and walking changes neither tree nor values. -/
theorem walk_yields_preorder {source : Source} {label : Label} {r : Rooted}
    (hbuild : source.build label = .ok r) (earlier later : List Command) (w : String)
    (hlater : .startWalk w ∉ later) :
    let before := (start r).after earlier
    let begun := (before.run (.startWalk w)).1
    let now := begun.after later
    let nodes := before.root.preorder
    let k := begun.shownBy w later
    k ≤ nodes.length ∧
    (now.walks[w]?.bind Walk.next?).map Prod.fst = nodes[k]? ∧
    (now.run (.nextNode w)).2 =
      .ok (match nodes[k]? with
        | some e => .entry (e.entry now.store)
        | none => .nothing) ∧
    (now.run (.restOfWalk w)).2 = .ok (.entries ((nodes.drop k).map (Expr.entry now.store))) ∧
    (.reparse ∉ earlier ++ later → ∀ l n, .var l n ∈ nodes →
      now.store.get l =
        (Bindings.last? ((earlier ++ later).flatMap Command.bound) n).getD (r.store.get l)) ∧
    ∀ c : Command,
      (c.walk? ≠ some w → (now.run c).1.walks[w]? = now.walks[w]?) ∧
      (c.walk? ≠ none → (now.run c).1.root = now.root ∧ (now.run c).1.store = now.store) := by
  intro before begun now nodes k
  have hbegun : begun.walks[w]? = some (Walk.start before.root) := Std.TreeMap.getElem?_insert_self
  obtain ⟨v, hv, hshown, hdrop⟩ := remaining_after hbegun hlater
  rw [Walk.remaining_start] at hshown hdrop
  have hfirst : v.remaining[0]? = nodes[k]? := by
    rw [hdrop, List.getElem?_drop, Nat.add_zero]
  refine ⟨hshown, ?_, ?_, ?_, ?_, fun c => ⟨walks_run, fun hc => ?_⟩⟩
  · rw [hv, Option.bind_some, next?_fst, hfirst]
  · rw [← hfirst]
    rcases run_nextNode hv with ⟨hnone, hrun⟩ | ⟨e, v', hremaining, hrun⟩
    · rw [hrun, hnone]
      rfl
    · rw [hrun, hremaining]
      rfl
  · rw [run_restOfWalk hv, hdrop]
  · intro hreparse l n hvar
    obtain ⟨hearlier, hlater⟩ := not_or.mp (mt List.mem_append.mpr hreparse)
    have hroot : before.root = r.root := root_after hearlier
    have hconsistent := Source.consistent_of_build hbuild
    have hvarRoot : .var l n ∈ r.root.preorder := hroot ▸ hvar
    have hbefore : before.store.get l = _ :=
      get_after (s := start r) hconsistent hearlier hvarRoot
    have hnow : now.store.get l = _ :=
      get_after (s := begun) (hroot ▸ hconsistent) hlater hvar
    have hbound : begun.store = before.store := rfl
    rw [hnow, hbound, hbefore, List.flatMap_append, Bindings.last?_append, Option.getD_or]
    rfl
  · obtain ⟨k, hk⟩ := Option.ne_none_iff_exists'.mp hc
    exact tree_run_of_walk? hk

/-- In `(x - x) ^ x` with one node for all three, walked twice at a time: past the power and the
sum, a walk shows the variable three times, each with what it was last bound to. -/
theorem walk_yields_shared_variable :
    ∃ r, (Source.parts [.var "x" 1.0, .chain .sum .plus [(0, .plus), (0, .minus)],
        .power 1 0]).build 0 = .ok r ∧
      let before := (start r).after [.startWalk "b", .nextNode "b", .bind "x" 2.0]
      let begun := (before.run (.startWalk "a")).1
      let now := begun.after [.nextNode "a", .nextNode "b", .bindAll [("x", 3.0)], .nextNode "a"]
      (now.run (.restOfWalk "a")).2 =
        .ok (.entries [.var "x" 3.0, .var "x" 3.0, .var "x" 3.0]) := by
  let x : Expr := .var 0 "x"
  let chain : Expr := .chain 1 .sum .plus (.plus, x) [(.minus, x)]
  let r : Rooted := ⟨.power 2 chain x, Store.empty.set 0 1.0, 3⟩
  have hbuild : (Source.parts [.var "x" 1.0, .chain .sum .plus [(0, .plus), (0, .minus)],
      .power 1 0]).build 0 = .ok r := rfl
  refine ⟨r, hbuild, ?_⟩
  intro before begun now
  let later : List Command :=
    [.nextNode "a", .nextNode "b", .bindAll [("x", 3.0)], .nextNode "a"]
  obtain ⟨-, -, -, hrest, hvalue, -⟩ := walk_yields_preorder hbuild
    [.startWalk "b", .nextNode "b", .bind "x" 2.0] later "a" (by simp [later])
  have hnodes : before.root.preorder = [r.root, chain, x, x, x] := rfl
  have hmem : x ∈ before.root.preorder := by simp [hnodes]
  have hx : now.store.get 0 = 3.0 := hvalue (by simp [later]) 0 "x" hmem
  have hshown : begun.shownBy "a" later = 2 := by decide +kernel
  have hanswer : (now.run (.restOfWalk "a")).2 = .ok (.entries
      ((before.root.preorder.drop (begun.shownBy "a" later)).map (Expr.entry now.store))) := hrest
  rw [hanswer, hnodes, hshown]
  simp [x, Expr.entry, hx]

end Session

end Reckoner
