import Amend.Proofs.Descent
import Amend.Proofs.Leaves

/-!
# Updates at the end of a path

What `applyAt` does in terms of nodes: it carries the command's node out along the keys of the path
(`applyAt_comesTo`, `applyAt_eq_ok`). Main statements: the result holds at the end of the path what
the node there makes (`Node.at?_along`); one key of such a path at a time
(`Node.eval_enter_singleton`); and two commands that do together what a third one does do so at the
end of a path (`Node.evalEach_along`).
-/

namespace Amend

namespace Entries

theorem findCommand_key {α : Type} (c : Command) (a : α) :
    findCommand [(c.key, a)] = some (c, a) := by
  cases c <;> simp [findCommand, find?, Command.all, Command.key, Command.token,
    Key.same_text_iff]

end Entries

theorem Fault.toOption_eq_some {α : Type} {e : Except Fault α} {a : α} :
    e.toOption = some a ↔ e = .ok a := by
  rcases e with fault | b
  · constructor <;> intro h <;> cases h
  · constructor <;> intro h <;> cases h <;> rfl

theorem Value.level_shape (v : Value) : v.shape.level = v.level.shape := by
  cases v with
  | seq => rw [shape_seq]; rfl
  | deque => rw [shape_deque]; rfl
  | map => rw [shape_map]; rfl
  | range id r =>
    change Scratch.items .list _ = Scratch.items .list (List.map shape (r.terms.map .int))
    rw [List.map_map]
    rfl
  | _ => rfl

theorem Scratch.child?_shape (s : Scratch) (k : Key) :
    s.shape.child? k = (s.child? k).map Value.shape := by
  cases s with
  | items kind xs =>
    simp only [shape, child?, List.length_map]
    rcases k.slot? xs.length with - | i
    · rfl
    · exact List.getElem?_map
  | entries kind es => exact Entries.find?_mapValues

theorem Value.child?_shape (v : Value) (k : Key) : v.shape.child? k = (v.child? k).map shape := by
  rw [child?, level_shape, Scratch.child?_shape]
  rfl

theorem Value.child?_shape_getD (v : Value) (k : Key) :
    (v.shape.child? k).getD .none = ((v.child? k).getD .none).shape := by
  rw [child?_shape]
  rcases v.child? k with - | c <;> rfl

namespace Node
open Update
variable {n m q : Node} {k : Key} {path : List Key} {v r : Value} {t t' : Trace}

theorem along_cons (k : Key) (path : List Key) (n : Node) :
    n.along (k :: path) = .enter [(k, n.along path)] := rfl

theorem ofValue_command (id : Ident) (c : Command) (operand : Value) :
    ofValue (.map id .plain [(c.key, operand)]) = ofOperand c operand :=
  ofValue_map_of_some (Entries.findCommand_key c operand)

theorem given_of_isContainer {c : Value} (h : c.isContainer) : n.given c = c := by
  simp [given, h]

theorem given_of_command (h : n.command?.isSome) (c : Value) : n.given c = c := by
  simp [given, h]

/-- What is entered along a path does not depend on the command at its end. -/
theorem given_along (hn : n.command?.isSome) (hm : m.command?.isSome) (path : List Key)
    (c : Value) : given c (n.along path) = given c (m.along path) := by
  cases path with
  | nil => exact (given_of_command hn c).trans (given_of_command hm c).symm
  | cons k path => rfl

variable [Host]

theorem isContainer_eval_along (h : (n.along (k :: path)).eval v = some r) : r.isContainer :=
  isContainer_eval h

/-- What a node along a path has made is taken up as it is along that path. -/
theorem given_of_eval_along (hm : m.command?.isSome) (h : (n.along path).eval v = some r) :
    given r (m.along path) = r := by
  cases path with
  | nil => exact given_of_command hm r
  | cons k path => exact given_of_isContainer (isContainer_eval_along h)

/-- A node along a path reads a child, carries the rest out on it, and writes the outcome. -/
theorem eval_enter_singleton :
    (Node.enter [(k, n)]).eval v = (Scratch.ofContainer v).toOption.bind fun s =>
      (s.child k).toOption.bind fun c => (n.eval (n.given c)).bind fun a =>
        (s.assign k a).toOption.bind (·.pack v) := by
  simp only [eval_enter_cons, evalAll, Option.bind_eq_bind, Option.bind_assoc, Option.bind_some]

theorem eval_enter_singleton_eq_some :
    (Node.enter [(k, n)]).eval v = some r ↔ ∃ s, Scratch.ofContainer v = .ok s ∧
      ∃ c, s.child k = .ok c ∧ ∃ a, n.eval (n.given c) = some a ∧
        ∃ s', s.assign k a = .ok s' ∧ s'.pack v = some r := by
  simp only [eval_enter_singleton, Option.bind_eq_some_iff, Fault.toOption_eq_some]

/-- Nodes below one key, one after the other: the second reads what the first has written there. -/
theorem evalAll_pair
    (h : ∀ c, (n.eval (n.given c)).bind (fun a => m.eval (m.given a)) = q.eval (q.given c))
    (k : Key) (s : Scratch) : evalAll [(k, n), (k, m)] s = evalAll [(k, q)] s := by
  simp only [evalAll, Option.bind_eq_bind, ← h, Option.bind_assoc]
  congr 1
  funext c
  congr 1
  funext a
  rcases hs : s.assign k a with fault | s'
  · -- where the one cannot be written, the other cannot either
    have hnone (b : Value) : (s.assign k b).toOption = none := by
      rcases hb : s.assign k b with fault' | s''
      · rfl
      · obtain ⟨_, hok⟩ := Scratch.assign_ok hb a
        rw [hs] at hok
        cases hok
    change none = _
    simp only [hnone, Option.bind_none, Option.bind_fun_none]
  · have hsame := Scratch.sameChild_of_assign hs
    simp only [Scratch.child_of_assign hs, Scratch.assign_assign hs hsame, Except.toOption,
      Option.bind_some]

/-- Two commands that do together what a third one does do so at the end of a path. -/
theorem evalEach_along (hn : n.command?.isSome) (hm : m.command?.isSome) (hq : q.command?.isSome)
    (h : ∀ v, evalEach [n, m] v = q.eval v) (path : List Key) (v : Value) :
    evalEach [n.along path, m.along path] v = (q.along path).eval v := by
  induction path generalizing v with
  | nil => exact h v
  | cons k path ih =>
    have hbelow (c : Value) : ((n.along path).eval (given c (n.along path))).bind
        (fun a => (m.along path).eval (given a (m.along path))) =
          (q.along path).eval (given c (q.along path)) := by
      rw [given_along hq hn, ← ih]
      change _ = ((n.along path).eval _).bind (evalEach [m.along path])
      rcases ha : (n.along path).eval (given c (n.along path)) with - | a
      · rfl
      · rw [Option.bind_some, Option.bind_some, given_of_eval_along hm ha, evalEach_singleton]
    refine (evalEach_enterEach (k, n.along path) [(k, m.along path)] v).trans ?_
    rw [along_cons, eval_enter_cons, eval_enter_cons]
    simp only [evalAll_pair hbelow]

/-- What the second of two such commands does after the first one. -/
theorem eval_along_of_eval_along (hn : n.command?.isSome) (hm : m.command?.isSome)
    (hq : q.command?.isSome) (h : ∀ v, evalEach [n, m] v = q.eval v)
    (hr : (n.along path).eval v = some r) : (m.along path).eval r = (q.along path).eval v := by
  rw [← evalEach_along hn hm hq h, evalEach, hr]
  exact (evalEach_singleton _ _).symm

/-- The result holds at the end of a path what the node there makes. -/
theorem at?_along (h : (n.along path).perform v t = (.ok r, t')) :
    ∃ w r' t₁ t₂, n.perform w t₁ = (.ok r', t₂) ∧ r.at? path = some r' := by
  induction path generalizing v r t t' with
  | nil => exact ⟨v, r, t, t', h, rfl⟩
  | cons k path ih =>
    rw [along_cons] at h
    rcases perform_enter_eq_ok h with ⟨hnil, -⟩ | ⟨s, t₀, -, -, hall, hreb⟩
    · cases hnil
    have hmem := List.mem_singleton_self (k, n.along path)
    obtain ⟨w, a, t₁, t₂, t₃, -, -, hperf, hat⟩ := performAll_at hall
      (List.pairwise_singleton _ _) hmem (sameChild_of_performAll hall hmem)
    obtain ⟨w', r', t₄, t₅, hn, hr'⟩ := ih hperf
    refine ⟨w', r', t₄, t₅, hn, ?_⟩
    rw [Value.at?, Scratch.child?_rebuild hreb, hat]
    exact hr'

end Node

section
open Update
variable {path : Value} {keys : List Key}

theorem Path.command_comesTo (hkeys : Key.ofValues (Path.keys path) = .ok keys)
    (hplain : ∀ k ∈ keys, k.IsPlain) (leaf : Value) :
    (command path leaf).ComesTo Node.ofValue (some ((Node.ofValue leaf).along keys)) := by
  rw [command, ← Key.toValues_of_ofValues hkeys]
  exact nest_comesTo leaf keys hplain

end

section
open Update
variable [Host] {c : Command} {source path operand r : Value} {keys : List Key} {t t' : Trace}

/-- A command at the end of a path comes to what its node comes to along the keys of the path. -/
theorem applyAt_comesTo (hkeys : Key.ofValues (Path.keys path) = .ok keys)
    (hplain : ∀ k ∈ keys, k.IsPlain) (hpure : (Node.ofOperand c operand).IsPure) :
    (applyAt c source path operand).ComesTo Value.shape
      (((Node.ofOperand c operand).along keys).eval source.shape) := by
  refine .bind_unit .fresh fun id => ?_
  have htree := Path.command_comesTo hkeys hplain (.map id .plain [(c.key, operand)])
  rw [Node.ofValue_command] at htree
  refine .bind_of_ok (k := fun n : Node => n.eval source.shape) htree fun {tree _ _} hok => ?_
  have hnode := Option.some.inj (htree.of_ok (congrArg Prod.fst hok))
  exact run_comesTo (hnode ▸ Node.every_along keys hpure) source

/-- A command at the end of a path is its node, carried out along the keys of the path once the tree
is made. -/
theorem applyAt_eq_perform (hkeys : Key.ofValues (Path.keys path) = .ok keys)
    (hplain : ∀ k ∈ keys, k.IsPlain) (c : Command) (source operand : Value) (t : Trace) :
    ∃ t₁, applyAt c source path operand t =
      ((Node.ofOperand c operand).along keys).perform source t₁ := by
  obtain ⟨tree, t₁, htree, hnode⟩ := (Path.command_comesTo hkeys hplain
    (.map t.next .plain [(c.key, operand)])).exists_run { t with next := t.next + 1 }
  obtain ⟨_, t₂, hann, -⟩ := ((Node.ofValue tree).announce_comesTo none).exists_run t₁
  refine ⟨t₂, ?_⟩
  rw [← Node.ofValue_command t.next, ← hnode]
  exact (bind_of_ok (fresh_apply t)).trans ((bind_of_ok htree).trans (bind_of_ok hann))

theorem applyAt_eq_ok (hkeys : Key.ofValues (Path.keys path) = .ok keys)
    (hplain : ∀ k ∈ keys, k.IsPlain) (h : applyAt c source path operand t = (.ok r, t')) :
    ∃ t₁, ((Node.ofOperand c operand).along keys).perform source t₁ = (.ok r, t') := by
  obtain ⟨t₁, ht₁⟩ := applyAt_eq_perform hkeys hplain c source operand t
  exact ⟨t₁, ht₁.symm.trans h⟩

/-- Two commands at the ends of two paths, one after the other. -/
theorem applyAt_applyAt_comesTo {p q : Value} {ps qs : List Key} (A B : Command)
    (source x y : Value)
    (hp : Key.ofValues (Path.keys p) = .ok ps) (hq : Key.ofValues (Path.keys q) = .ok qs)
    (hps : ∀ key ∈ ps, key.IsPlain) (hqs : ∀ key ∈ qs, key.IsPlain)
    (hx : (Node.ofOperand A x).IsPure) (hy : (Node.ofOperand B y).IsPure) :
    (applyAt A source p x >>= fun r => applyAt B r q y).ComesTo Value.shape
      (Node.evalEach [(Node.ofOperand A x).along ps, (Node.ofOperand B y).along qs]
        source.shape) := by
  refine .bind (applyAt_comesTo hp hps hx) fun r => ?_
  rw [Node.evalEach_singleton]
  exact applyAt_comesTo hq hqs hy

end

end Amend
