import Amend.Sharing
import Amend.Standard
import Amend.Proofs.Actions
import Amend.Proofs.Descent

/-!
# What an update copies

`Value.idents` lists the objects in a value. Main statement (`run_copies`): where no two keys of one
node address the same child, a tree that succeeds makes every container anew that it enters or that
it pushes, unshifts, merges or fills defaults into, and leaves every other child of an entered
container, and what such a command does not overwrite, the very object that it was.
-/

namespace Amend

mutual

/-- The identities of the objects in a value, its own first. -/
def Value.idents : Value → List Ident
  | .none | .bool _ | .int _ | .float _ | .text _ => []
  | .bytes id _ | .buffer id _ | .range id _ => [id]
  | .set id ks | .frozenSet id ks => id :: Key.allIdents ks
  | .factory id _ arg => id :: arg.idents
  | .runner id tree => id :: tree.idents
  | .deque id xs | .seq id _ xs => id :: Value.allIdents xs
  | .map id _ es => id :: Value.entryIdents es
termination_by structural v => v

def Value.allIdents : List Value → List Ident
  | [] => []
  | v :: vs => v.idents ++ Value.allIdents vs
termination_by structural vs => vs

def Value.entryIdents : List (Key × Value) → List Ident
  | [] => []
  | (k, v) :: es => k.idents ++ v.idents ++ Value.entryIdents es
termination_by structural es => es

def Key.idents : Key → List Ident
  | .none | .bool _ | .int _ | .float _ | .text _ => []
  | .bytes id _ | .range id _ => [id]
  | .frozenSet id ks | .tuple id _ ks => id :: Key.allIdents ks
  | .factory id _ arg => id :: arg.idents
  | .runner id tree => id :: tree.idents
termination_by structural k => k

def Key.allIdents : List Key → List Ident
  | [] => []
  | k :: ks => k.idents ++ Key.allIdents ks
termination_by structural ks => ks

end

def Value.items (v : Value) : List Value :=
  match v.level with
  | .items _ xs => xs
  | .entries _ _ => []

section
variable {v r : Value} {id : Ident} {t t' : Trace}

theorem Sharing.eq_of_ident?_seq {id' : Ident} {kind : SeqKind} {xs : List Value}
    (h : ident? (.seq id kind xs) = some id') : id' = id := by
  unfold ident? at h
  split at h <;> simp_all

theorem Sharing.ident?_of_not_isContainer (h : v.isContainer = false) : ident? v = none := by
  cases v <;> first | rfl | cases h

theorem Scratch.ident?_rebuild {s : Scratch} (h : s.rebuild v t = (.ok r, t'))
    (hid : Sharing.ident? r = some id) : id = t.next := by
  cases s with
  | items kind xs =>
    obtain ⟨rfl, -⟩ := Scratch.rebuild_items_eq_ok h
    exact Sharing.eq_of_ident?_seq hid
  | entries kind es =>
    obtain ⟨rfl, -⟩ := Scratch.rebuild_entries_eq_ok h
    cases hid
    rfl

end

section
variable [Host]

/-- What a command that copies its target does not overwrite is still there, the very object. That a
merge overwrites no more than its operand says is up to the update that it calls. -/
def Action.Keeps (old new : Value) : Action → Prop
  | .push _ => ∀ (i : Nat) (x : Value), old.items[i]? = some x → new.items[i]? = some x
  | .unshift _ => ∀ (i : Nat) (x : Value), old.items[i]? = some x → new.items[i + 1]? = some x
  | .merge operand => old.Overwrites →
      ∀ written, Merge.entries (old.kind = .map .ordered) operand = .ok written →
        ∀ k x, old.child? k = some x → Entries.has k written = false → new.child? k = some x
  | .defaults _ => ∀ k x, old.child? k = some x → new.child? k = some x
  | .set _ | .call .. | .refuse _ => True

variable {m : Node} {a : Action} {children : List (Key × Node)} {old v r : Value} {id : Ident}
  {t t' : Trace}

/-- A container that a node has copied is no older than the step that made it. -/
theorem Node.next_le_ident (hm : m.copies) (h : m.perform v t = (.ok r, t'))
    (hid : Sharing.ident? r = some id) : t.next ≤ id := by
  match m with
  | .enter children =>
    rcases perform_enter_eq_ok h with ⟨-, hv, rfl⟩ | ⟨s, t₁, -, -, hall, hreb⟩
    · rw [Sharing.ident?_of_not_isContainer hv] at hid
      cases hid
    · rw [Scratch.ident?_rebuild hreb hid]
      exact (performAll_grows ..).le hall
  | .act a =>
    obtain ⟨s, t₁, hle, hreb, -⟩ := Action.copies_eq_ok hm h
    rw [Scratch.ident?_rebuild hreb hid]
    exact hle

theorem Node.child?_perform_of_not_same {k : Key}
    (h : (Node.enter children).perform v t = (.ok r, t'))
    (hk : ∀ e ∈ children, ¬ v.SameChild k e.1) : r.child? k = v.child? k := by
  rcases perform_enter_eq_ok h with ⟨-, -, rfl⟩ | ⟨s, t₁, -, -, hall, hreb⟩
  · rfl
  · exact (Scratch.child?_rebuild hreb).trans (child?_performAll_of_not_same hall hk)

theorem Action.keeps (h : a.perform old t = (.ok r, t')) : a.Keeps old r := by
  cases a with
  | push operand =>
    obtain ⟨kind, xs, hseq, hreb⟩ := push_eq_ok h
    obtain ⟨rfl, -⟩ := Scratch.rebuild_items_eq_ok hreb
    intro i x hx
    simp only [Value.items, (Scratch.ofSequence_eq_ok hseq).1] at hx
    have hlt : i < xs.length := (List.getElem?_eq_some_iff.1 hx).1
    exact (List.getElem?_append_left hlt).trans hx
  | unshift operand =>
    obtain ⟨kind, xs, hseq, hreb⟩ := unshift_eq_ok h
    obtain ⟨rfl, -⟩ := Scratch.rebuild_items_eq_ok hreb
    intro i x hx
    simp only [Value.items, (Scratch.ofSequence_eq_ok hseq).1] at hx
    exact List.getElem?_cons_succ.trans hx
  | merge operand =>
    intro ho written hwritten k x hx hk
    obtain ⟨kind, es, new, hmap, hnew, hreb⟩ := merge_eq_ok ho h
    simp only [Scratch.ofMapping_ordered hmap, hwritten] at hnew
    cases hnew
    rw [Value.child?, (Scratch.ofMapping_eq_ok hmap).1] at hx
    rw [Scratch.child?_rebuild hreb]
    exact (Entries.find?_putAll_of_not_has hk).trans hx
  | defaults operand =>
    obtain ⟨kind, es, id, kind', new, hmap, rfl, hreb⟩ := defaults_eq_ok h
    intro k x hx
    rw [Value.child?, (Scratch.ofMapping_eq_ok hmap).1] at hx
    rw [Scratch.child?_rebuild hreb]
    exact Entries.find?_fillAll_of_some hx new
  | set | call | refuse => trivial

/-- The copies that an update makes, and what it leaves as it was. -/
theorem run_copies {source commands result : Value} {next : Ident} {trace : Trace}
    (hmade : ∀ id ∈ source.idents ++ commands.idents, id < next)
    (hapart : (Node.ofValue commands).Apart source)
    (hrun : (run source commands).exec next = (.ok result, trace)) :
    (∀ path children c, (Node.ofValue commands).Reaches source path (.enter children) →
      source.at? path = some c → c.isContainer → ∃ r, result.at? path = some r ∧
        ∀ k x, c.child? k = some x → (∀ e ∈ children, ¬ c.SameChild k e.1) →
          r.child? k = some x) ∧
    (∀ path m, (Node.ofValue commands).Reaches source path m → m.copies →
      ∃ r, result.at? path = some r ∧ ∀ id, Sharing.ident? r = some id →
        id ∉ source.idents ∧ id ∉ commands.idents) ∧
    (∀ path a, (Node.ofValue commands).Reaches source path (.act a) →
      ∃ r, result.at? path = some r ∧ a.Keeps ((source.at? path).getD .none) r) := by
  obtain ⟨t, rfl, hperf⟩ := Node.run_eq_ok hrun
  refine ⟨fun path children c hr hc hcont => ?_, fun path m hr hm => ?_, fun path a hr => ?_⟩
  · obtain ⟨w, r, t₁, t₂, hin, -, hw, hat⟩ := hr.carriedOut hapart hperf
    rw [hc] at hin
    obtain rfl := hin.eq_of_isContainer hcont
    exact ⟨r, hat, fun k x hx hk => (Node.child?_perform_of_not_same hw hk).trans hx⟩
  · obtain ⟨w, r, t₁, t₂, -, hle, hw, hat⟩ := hr.carriedOut hapart hperf
    refine ⟨r, hat, fun id hid => ?_⟩
    -- what is made now is not among the objects made before
    have hnew : t.next ≤ id := Nat.le_trans hle (Node.next_le_ident hm hw hid)
    exact ⟨fun hmem => Nat.not_lt.2 hnew (hmade id (List.mem_append_left _ hmem)),
      fun hmem => Nat.not_lt.2 hnew (hmade id (List.mem_append_right _ hmem))⟩
  · obtain ⟨w, r, t₁, t₂, hin, -, hw, hat⟩ := hr.carriedOut hapart hperf
    obtain rfl := hin.eq_of_command rfl
    exact ⟨r, hat, Action.keeps hw⟩

end

attribute [local instance] Host.standard in
/-- One item of a list is replaced, by a position that counts from the end. The item beside it and
the mapping beside the list stay; the list and the root are new. -/
theorem run_copies_list :
    let source := Value.map 0 .plain [(.text "a", .seq 1 .list [.int 5, .map 2 .plain []]),
      (.text "b", .map 3 .plain [])]
    let commands := Value.map 4 .plain [(.text "a", .map 5 .plain [(.int (-2),
      .map 6 .plain [(.text "set", .int 7)])])]
    ∃ result trace r, (run source commands).exec 8 = (.ok result, trace) ∧
      result.at? [.text "a"] = some r ∧ r.child? (.int 1) = some (.map 2 .plain []) := by
  intro source commands
  have hrun : ∃ result trace, (run source commands).exec 8 = (.ok result, trace) := ⟨_, _, rfl⟩
  obtain ⟨result, trace, hrun⟩ := hrun
  have hapart : (Node.ofValue commands).Apart source := .singleton (.singleton (.act _ _))
  obtain ⟨r, hat, hkeep⟩ := (run_copies (by decide) hapart hrun).1 [.text "a"] _ _
    (.enter (List.mem_singleton_self _) rfl (.here _ _)) rfl rfl
  exact ⟨result, trace, r, hrun, hat, hkeep _ _ rfl (by decide)⟩

end Amend
