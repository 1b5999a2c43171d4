import Amend.Proofs.Carry

/-!
# What a command makes

One statement for each of the commands that copy their target: what a success says about the old
value, and what copy the new one is rebuilt from. `Action.copies_eq_ok` says of all four what does
not depend on the command: the kind of that copy, and that it holds nothing but what the old value
holds and the command writes.
-/

namespace Amend

open Update

namespace Node
variable (v : Value)

theorem ofOperand_set : ofOperand .set v = .act (.set v) := by
  cases v <;> rfl

theorem ofOperand_push : ofOperand .push v = .act (.push v) := by
  cases v <;> rfl

theorem ofOperand_unshift : ofOperand .unshift v = .act (.unshift v) := by
  cases v <;> rfl

theorem ofOperand_merge : ofOperand .merge v = .act (.merge v) := by
  cases v <;> rfl

theorem ofOperand_defaults : ofOperand .defaults v = .act (.defaults v) := by
  cases v <;> rfl

end Node

/-- Whether a node copies the container that it is carried out on. -/
def Node.copies : Node → Bool
  | .enter _ | .act (.push _) | .act (.unshift _) | .act (.merge _) | .act (.defaults _) => true
  | .act _ | .rerun _ | .misplaced _ => false

/-- The kind of the copy that a command edits. A named kind of list stays one. -/
def Value.editKind (v : Value) : Kind := if v.kind = .seq .row then .seq .row else v.level.kind

/-- What a command that copies its target writes into the copy has a property. -/
def Action.Writes [Machine] (P : Value → Prop) : Action → Prop
  | .push operand | .unshift operand => P operand
  | .merge operand => ∀ ordered es, Merge.entries ordered operand = .ok es → ∀ e ∈ es, P e.2
  | .defaults (.map _ _ es) => ∀ e ∈ es, P e.2
  | _ => True

namespace Scratch
variable {command : Command} {v : Value}

theorem ofMapping_eq_ok {kind : MapKind} {es : Entries Value}
    (h : ofMapping command v = .ok (kind, es)) :
    v.level = .entries kind es ∧ (v = .none ∨ v.isMapping) := by
  cases v with
  | none => cases h; exact ⟨rfl, .inl rfl⟩
  | map id k es' => cases h; exact ⟨rfl, .inr rfl⟩
  | _ => cases h

theorem ofMapping_ordered {kind : MapKind} {es : Entries Value}
    (h : ofMapping command v = .ok (kind, es)) : kind = .ordered ↔ v.kind = .map .ordered := by
  cases v with
  | none => cases h; decide
  | map id k es' => cases h; cases k <;> simp [MapKind.editable, Value.kind]
  | _ => cases h

theorem ofMapping_defaulting {es : Entries Value}
    (h : ofMapping command v = .ok (.defaulting, es)) : v.kind = .map .defaulting := by
  cases v with
  | map id k es' =>
    cases k <;> cases h
    rfl
  | _ => cases h

theorem editKind_of_ofMapping {kind : MapKind} {es : Entries Value}
    (h : ofMapping command v = .ok (kind, es)) : v.editKind = .map kind := by
  have hrow : v.kind ≠ .seq .row := by
    cases v <;> cases h <;> exact fun h' => nomatch h'
  rw [Value.editKind, if_neg hrow, (ofMapping_eq_ok h).1]
  rfl

variable [Machine]

theorem ofSequence_eq_ok {kind : SeqKind} {xs : List Value}
    (h : ofSequence command v = .ok (kind, xs)) :
    v.level = .items .list xs ∧ kind = if v.kind = .seq .row then .row else .list := by
  cases v with
  | seq id k ys => rcases k with - | - | k <;> cases h <;> exact ⟨rfl, rfl⟩
  | deque id ys => cases h; exact ⟨rfl, rfl⟩
  | range id r =>
    simp only [ofSequence, Range.items] at h
    rcases hr : Storage.reserveItems r.length with fault | u <;> rw [hr] at h <;> cases h
    exact ⟨rfl, rfl⟩
  | _ => cases h

theorem editKind_of_ofSequence {kind : SeqKind} {xs : List Value}
    (h : ofSequence command v = .ok (kind, xs)) : v.editKind = .seq kind := by
  obtain ⟨hlevel, rfl⟩ := ofSequence_eq_ok h
  rw [Value.editKind, hlevel]
  split <;> rfl

end Scratch

/-- The update of a copy of what has an update that overwrites. -/
theorem Merge.update_of_overwrites [Host] {command : Command} {v : Value} {kind : MapKind}
    {es : Entries Value} (hv : v.Overwrites) (h : Scratch.ofMapping command v = .ok (kind, es))
    (operand : Value) : update kind es operand = overwrite (kind = .ordered) es operand := by
  cases kind with
  | defaulting => exact hv (Scratch.ofMapping_defaulting h) es operand
  | _ => rfl

namespace Action
variable [Host] {a : Action} {operand old r : Value} {t t' : Trace}

theorem push_eq_ok (h : (Action.push operand).perform old t = (.ok r, t')) :
    ∃ kind xs, Scratch.ofSequence .push old = .ok (kind, xs) ∧
      (Scratch.items kind (xs ++ [operand])).rebuild old t = (.ok r, t') := by
  simp only [perform, bind_eq_ok, lift_eq_ok] at h
  obtain ⟨⟨kind, xs⟩, _, ⟨hseq, rfl⟩, h⟩ := h
  exact ⟨kind, xs, hseq, h⟩

theorem unshift_eq_ok (h : (Action.unshift operand).perform old t = (.ok r, t')) :
    ∃ kind xs, Scratch.ofSequence .unshift old = .ok (kind, xs) ∧
      (Scratch.items kind (operand :: xs)).rebuild old t = (.ok r, t') := by
  simp only [perform, bind_eq_ok, lift_eq_ok] at h
  obtain ⟨⟨kind, xs⟩, _, ⟨hseq, rfl⟩, h⟩ := h
  exact ⟨kind, xs, hseq, h⟩

theorem update_eq_ok (h : (Action.merge operand).perform old t = (.ok r, t')) :
    ∃ kind es es' t₁, Scratch.ofMapping .merge old = .ok (kind, es) ∧
      Merge.update kind es operand t = (.ok es', t₁) ∧
      (Scratch.entries kind es').rebuild old t₁ = (.ok r, t') := by
  simp only [perform, bind_eq_ok, lift_eq_ok] at h
  obtain ⟨⟨kind, es⟩, _, ⟨hmap, rfl⟩, es', t₁, hup, h⟩ := h
  exact ⟨kind, es, es', t₁, hmap, hup, h⟩

/-- A merge into what has an update that overwrites. -/
theorem perform_merge (ho : old.Overwrites) (operand : Value) :
    (Action.merge operand).perform old = (do
      let (kind, es) ← Update.lift (Scratch.ofMapping .merge old)
      let new ← Update.lift (Merge.entries (kind = .ordered) operand)
      (Scratch.entries kind (Entries.putAll es new)).rebuild old) := by
  rw [perform]
  rcases hmap : Scratch.ofMapping .merge old with fault | ⟨kind, es⟩
  · rfl
  · rw [lift_ok_bind, lift_ok_bind]
    simp only [Merge.update_of_overwrites ho hmap, Merge.overwrite, bind_assoc, pure_bind]

theorem merge_eq_ok (ho : old.Overwrites)
    (h : (Action.merge operand).perform old t = (.ok r, t')) :
    ∃ kind es new, Scratch.ofMapping .merge old = .ok (kind, es) ∧
      Merge.entries (kind = .ordered) operand = .ok new ∧
      (Scratch.entries kind (Entries.putAll es new)).rebuild old t = (.ok r, t') := by
  simp only [perform_merge ho, bind_eq_ok, lift_eq_ok] at h
  obtain ⟨⟨kind, es⟩, _, ⟨hmap, rfl⟩, new, _, ⟨hnew, rfl⟩, h⟩ := h
  exact ⟨kind, es, new, hmap, hnew, h⟩

theorem defaults_eq_ok (h : (Action.defaults operand).perform old t = (.ok r, t')) :
    ∃ kind es id kind' new, Scratch.ofMapping .defaults old = .ok (kind, es) ∧
      operand = .map id kind' new ∧
      (Scratch.entries kind (Entries.fillAll es new)).rebuild old t = (.ok r, t') := by
  simp only [perform, bind_eq_ok, lift_eq_ok] at h
  obtain ⟨⟨kind, es⟩, _, ⟨hmap, rfl⟩, h⟩ := h
  dsimp only at h
  split at h
  · exact ⟨kind, es, _, _, _, hmap, rfl, h⟩
  · exact absurd h throw_eq_ok.1

/-- The copy that a result is rebuilt from has the kind that its source asks for, and where the
update of the source overwrites, it holds nothing but what was there and what is written. -/
theorem copies_eq_ok (hm : (Node.act a).copies) (h : a.perform old t = (.ok r, t')) :
    ∃ (s : Scratch) (t₁ : Trace), t.next ≤ t₁.next ∧ s.rebuild old t₁ = (.ok r, t') ∧
      s.kind = old.editKind ∧
      (old.Overwrites → ∀ P, a.Writes P → old.level.All P → s.All P) := by
  match a with
  | .push operand =>
    obtain ⟨kind, xs, hseq, hreb⟩ := push_eq_ok h
    refine ⟨_, t, Nat.le_refl _, hreb, (Scratch.editKind_of_ofSequence hseq).symm,
      fun _ P hop hall => ?_⟩
    rw [(Scratch.ofSequence_eq_ok hseq).1] at hall
    exact List.forall_mem_append.2 ⟨hall, List.forall_mem_singleton.2 hop⟩
  | .unshift operand =>
    obtain ⟨kind, xs, hseq, hreb⟩ := unshift_eq_ok h
    refine ⟨_, t, Nat.le_refl _, hreb, (Scratch.editKind_of_ofSequence hseq).symm,
      fun _ P hop hall => ?_⟩
    rw [(Scratch.ofSequence_eq_ok hseq).1] at hall
    exact List.forall_mem_cons.2 ⟨hop, hall⟩
  | .merge operand =>
    obtain ⟨kind, es, es', t₁, hmap, hup, hreb⟩ := update_eq_ok h
    refine ⟨_, t₁, (Merge.update_grows ..).le hup, hreb, (Scratch.editKind_of_ofMapping hmap).symm,
      fun ho P hop hall => ?_⟩
    rw [Merge.update_of_overwrites ho hmap, Merge.overwrite, bind_eq_ok] at hup
    obtain ⟨new, t₂, hnew, hes⟩ := hup
    obtain ⟨rfl, -⟩ := pure_eq_ok.1 hes
    rw [(Scratch.ofMapping_eq_ok hmap).1] at hall
    exact Entries.forall_putAll hall (hop _ new (lift_eq_ok.1 hnew).1)
  | .defaults operand =>
    obtain ⟨kind, es, id, kind', new, hmap, rfl, hreb⟩ := defaults_eq_ok h
    refine ⟨_, t, Nat.le_refl _, hreb, (Scratch.editKind_of_ofMapping hmap).symm,
      fun _ P hop hall => ?_⟩
    rw [(Scratch.ofMapping_eq_ok hmap).1] at hall
    exact Entries.forall_fillAll hall hop

end Action

end Amend
