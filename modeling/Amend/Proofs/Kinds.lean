import Amend.Standard
import Amend.Proofs.Actions
import Amend.Proofs.Descent

/-!
# Kinds of containers

What kind a container has after an update went through it. Main statement (`kind_run_eq_iff`):
mappings of every kind but the wrapper, lists, plain fixed sequences and points keep their kind at
every place that a tree enters or that a command copies, with one exception: a named kind of list
that is entered becomes a plain list, although a command keeps it.
-/

namespace Amend

/-- The kinds of containers that an update is to keep. -/
def Kind.isKept : Kind → Bool
  | .map .plain | .map .ordered | .map .defaulting | .map .readOnly => true
  | .seq .list | .seq .row | .seq (.tuple .plain) | .seq (.tuple .point) => true
  | _ => false

theorem Value.isContainer_of_isKept {v : Value} (hk : v.kind.isKept) : v.isContainer := by
  cases v <;> first | rfl | cases hk

section
variable {a : Action} {children : List (Key × Node)} {s : Scratch} {v r : Value} {t t' : Trace}

/-- What is rebuilt from a copy of the kind that a command edits has the kind of the target. -/
theorem Scratch.kind_rebuild (hk : v.kind.isKept) (hs : s.kind = v.editKind)
    (h : s.rebuild v t = (.ok r, t')) : r.kind = v.kind := by
  cases s with
  | items kind xs =>
    obtain ⟨rfl, -⟩ := rebuild_items_eq_ok h
    cases v with
    | seq id k ys => rcases k with - | - | (- | - | -) <;> first | (cases hs; rfl) | cases hk
    | _ => first | cases hk | cases hs
  | entries kind es =>
    obtain ⟨rfl, -⟩ := rebuild_entries_eq_ok h
    cases v with
    | map id k es' => cases k <;> first | (cases hs; rfl) | cases hk
    | seq id k ys => rcases k with - | - | k <;> cases hs
    | _ => cases hk

variable [Host]

/-- A container that is entered keeps its kind, unless it is a named kind of list. -/
theorem Node.kind_enter (hk : v.kind.isKept)
    (h : (Node.enter children).perform v t = (.ok r, t')) :
    r.kind = if v.kind = .seq .row then .seq .list else v.kind := by
  rcases perform_enter_eq_ok h with ⟨-, hv, -⟩ | ⟨s, t₁, -, -, hall, hreb⟩
  · rw [Value.isContainer_of_isKept hk] at hv
    cases hv
  have hs := kind_performAll hall
  by_cases hrow : v.kind = .seq .row
  · rw [if_pos hrow]
    obtain ⟨id, xs, rfl⟩ : ∃ id xs, v = .seq id .row xs := by
      cases v <;> cases hrow
      exact ⟨_, _, rfl⟩
    cases s with
    | items kind ys =>
      obtain ⟨rfl, -⟩ := Scratch.rebuild_items_eq_ok hreb
      exact hs
    | entries => cases hs
  · rw [if_neg hrow]
    exact Scratch.kind_rebuild hk (hs.trans (if_neg hrow).symm) hreb

theorem Node.kind_act (hm : (Node.act a).copies) (hk : v.kind.isKept)
    (h : (Node.act a).perform v t = (.ok r, t')) : r.kind = v.kind := by
  obtain ⟨s, t₁, -, hreb, hs, -⟩ := Action.copies_eq_ok hm h
  exact Scratch.kind_rebuild hk hs hreb

end

open Node in
/-- A container keeps its kind wherever the tree goes through it, except that a named kind of list
is entered as a plain one. -/
theorem kind_run_eq_iff [Host] {source commands result v : Value} {next : Ident} {trace : Trace}
    {path : List Key} {m : Node} (hapart : (ofValue commands).Apart source)
    (hrun : (run source commands).exec next = (.ok result, trace))
    (hreach : (ofValue commands).Reaches source path m) (hm : m.copies)
    (hv : source.at? path = some v) (hk : v.kind.isKept) :
    ∃ r, result.at? path = some r ∧
      (r.kind = v.kind ↔ ¬ (v.kind = .seq .row ∧ ∃ children, m = .enter children)) ∧
      (v.kind = .seq .row → (∃ children, m = .enter children) → r.kind = .seq .list) := by
  obtain ⟨t, -, hperf⟩ := run_eq_ok hrun
  obtain ⟨w, r, t₁, t₂, hin, -, hw, hat⟩ := hreach.carriedOut hapart hperf
  rw [hv] at hin
  obtain rfl := (hin.eq_of_isContainer (Value.isContainer_of_isKept hk)).symm
  refine ⟨r, hat, ?_⟩
  match m with
  | .enter children =>
    have hr := kind_enter hk hw
    by_cases hrow : v.kind = .seq .row
    · rw [if_pos hrow] at hr
      simp [hr, hrow]
    · rw [if_neg hrow] at hr
      simp [hr, hrow]
  | .act a =>
    have hr := kind_act hm hk hw
    simp [hr]

attribute [local instance] Host.standard in
/-- A named kind of list is entered below a read-only view. -/
theorem kind_run_row :
    let source := Value.map 0 .readOnly [(.text "a", .seq 1 .row [.int 5])]
    let commands := Value.map 2 .plain [(.text "a", .map 3 .plain [(.int (-1),
      .map 4 .plain [(.text "set", .int 7)])])]
    ∃ result trace root r, (run source commands).exec 5 = (.ok result, trace) ∧
      result.at? [] = some root ∧ root.kind = .map .readOnly ∧
      result.at? [.text "a"] = some r ∧ r.kind = .seq .list := by
  intro source commands
  have hrun : ∃ result trace, (run source commands).exec 5 = (.ok result, trace) := ⟨_, _, rfl⟩
  obtain ⟨result, trace, hrun⟩ := hrun
  have hapart : (Node.ofValue commands).Apart source := .singleton (.singleton (.act _ _))
  obtain ⟨root, hroot, hkept, -⟩ :=
    kind_run_eq_iff hapart hrun (.here _ _) rfl rfl rfl
  obtain ⟨r, hr, -, hlist⟩ := kind_run_eq_iff hapart hrun
    (.enter (k := .text "a") (List.mem_singleton_self _) rfl (.here _ _)) rfl rfl rfl
  refine ⟨result, trace, root, r, hrun, hroot, ?_, hr, hlist rfl ⟨_, rfl⟩⟩
  exact hkept.2 fun h => nomatch h.1

end Amend
