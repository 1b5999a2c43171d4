import Mathlib.Logic.Relation
import Amend.Proofs.Leaves

/-!
# Trees in other words

Of a node that names commands, the one that takes precedence counts, with its operand; of another
node, the keys with what stands below them. `Value.Edit` lists what may be changed otherwise, at any
depth: which kind of mapping a node is, and all that stands beside its command. Main statement
(`run_reworded`): no number of such changes makes a difference to an update, be it to the result, to
a fault or to the log.
-/

namespace Amend

namespace Command

/-- The commands that take precedence over another. -/
def earlier (c : Command) : List Command := all.takeWhile (· ≠ c)

theorem all_eq_append (c : Command) : ∃ later, all = c.earlier ++ c :: later := by
  cases c <;> exact ⟨_, rfl⟩

end Command

namespace Entries
variable {α : Type} {es : Entries α} {c : Command} {a : α}

/-- Entries with the token of a command, the value there, and no token that takes precedence. -/
structure Carries (es : Entries α) (c : Command) (a : α) : Prop where
  operand : es.find? c.key = some a
  earliest : ∀ d ∈ c.earlier, es.find? d.key = none

theorem Carries.findCommand (h : es.Carries c a) : es.findCommand = some (c, a) := by
  obtain ⟨later, hall⟩ := c.all_eq_append
  have hearlier : (c.earlier.findSome? fun d => (es.find? d.key).map (d, ·)) = none := by
    refine List.findSome?_eq_none_iff.2 fun d hd => ?_
    rw [h.earliest d hd]
    rfl
  rw [Entries.findCommand, hall, List.findSome?_append, hearlier, List.findSome?_cons, h.operand]
  rfl

end Entries

namespace Value

/-- A change of a command tree: of the kind of a node, and with it of the object that it is; of the
entries of a node beside its command; or of a node below a key, where there is no command. -/
inductive Edit : Value → Value → Prop
  | kind {id id' : Ident} {kind kind' : MapKind} {es : Entries Value} :
    Edit (.map id kind es) (.map id' kind' es)
  | beside {id : Ident} {kind : MapKind} {es es' : Entries Value} {c : Command} {operand : Value}
    (h : es.Carries c operand) (h' : es'.Carries c operand) :
    Edit (.map id kind es) (.map id kind es')
  | child {id : Ident} {kind : MapKind} (es₁ es₂ : Entries Value) {k : Key} {v w : Value}
    (hplain : ∀ e ∈ es₁ ++ (k, v) :: es₂, e.1.IsPlain) (h : Edit v w) :
    Edit (.map id kind (es₁ ++ (k, v) :: es₂)) (.map id kind (es₁ ++ (k, w) :: es₂))

end Value

/-- A node is read as before when it was changed. -/
theorem Node.ofValue_edit {v w : Value} (h : v.Edit w) : ofValue w = ofValue v := by
  induction h with
  | kind => rfl
  | beside h h' => rw [ofValue_map_of_some h.findCommand, ofValue_map_of_some h'.findCommand]
  | @child id kind es₁ es₂ k v w hplain h ih =>
    have hplain' : ∀ e ∈ es₁ ++ (k, w) :: es₂, e.1.IsPlain := by
      rw [List.forall_mem_append, List.forall_mem_cons] at hplain ⊢
      exact hplain
    rw [ofValue_map_of_none (Entries.findCommand_of_isPlain hplain),
      ofValue_map_of_none (Entries.findCommand_of_isPlain hplain'), ofEntries_eq_map,
      ofEntries_eq_map, List.map_append, List.map_append, List.map_cons, List.map_cons, ih]

/-- Updates by trees that differ in such changes are the same: they make the same objects or come to
the same fault, and leave the same log. -/
theorem run_reworded [Host] {c c' : Value} (h : Relation.ReflTransGen Value.Edit c c')
    (source : Value) (next : Ident) : (run source c').exec next = (run source c).exec next := by
  have hnode : Node.ofValue c' = Node.ofValue c := by
    induction h with
    | refl => rfl
    | tail _ hstep ih => exact (Node.ofValue_edit hstep).trans ih
  rw [run, run, hnode]

attribute [local instance] Host.standard in
/-- In either tree the node below the key sets the list: `push` gives way to it, `invoke` too. -/
theorem run_reworded_push :
    let c := Value.map 0 .plain [(.text "a", .map 1 .wrapped [
      (.text "push", .int 1), (.text "set", .seq 2 .list []), (.text "b", .none)])]
    let c' := Value.map 0 .defaulting [(.text "a", .map 1 .wrapped [
      (.text "set", .seq 2 .list []), (.text "invoke", .none)])]
    Relation.ReflTransGen Value.Edit c c' ∧
      ((run .none c').exec 3).1 = .ok (.map 3 .plain [(.text "a", .seq 2 .list [])]) := by
  intro c c'
  have hedits : Relation.ReflTransGen Value.Edit c c' := by
    refine .tail (.single (.child [] [] (by decide) ?_)) .kind
    exact .beside (c := .set) ⟨rfl, by decide⟩ ⟨rfl, by decide⟩
  refine ⟨hedits, ?_⟩
  rw [run_reworded hedits]
  rfl

end Amend
