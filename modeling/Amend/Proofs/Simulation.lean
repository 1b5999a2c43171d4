import Amend.Proofs.Meaning

/-!
# Two runs side by side

`Update.Sim` says of two updates that from any states both fail for like reasons, or both succeed
with results in a relation. Faults are alike when they are of one class (`Fault.category`). One pair
more is alike, where a tree merges an element that is no pair and too long for a list
(`Merge.Oversized`): an ordered mapping takes the element apart and finds that it is no pair, where
any other mapping first makes a list of it, for which there is no room (`Merge.entries_alike`).
-/

namespace Amend
variable [Machine]

namespace Merge

/-- The elements that a merge takes for pairs. A mapping has none: its entries are merged. -/
def candidates? : Value → Option (List Value)
  | .map .. => none
  | .range id r => (Value.range id r).firstElements? 1
  | v => v.elements?

/-- Whether an operand has an element that is no pair, and that fails so when a list is made of
it. -/
def Oversized (operand : Value) (fault : Fault) : Prop :=
  ∃ xs, candidates? operand = some xs ∧ ∃ x ∈ xs, ∃ count, x.elementCount? = some count ∧
    2 < count ∧ Storage.reserveItems count = .error fault

end Merge

/-- Faults of one class, or those for an oversized element of something that is merged, in an
ordered mapping and in another one. Either run may have the ordered mapping: a frozen copy of one is
edited as a plain mapping, and a function may give one or the other for values that are alike. -/
def Fault.Alike (merged : List Value) (f g : Fault) : Prop :=
  f.category = g.category ∨ ∃ operand ∈ merged,
    f = .pairTooLong ∧ Merge.Oversized operand g ∨ g = .pairTooLong ∧ Merge.Oversized operand f

variable {merged : List Value}

namespace Fault

theorem Alike.refl (f : Fault) : f.Alike merged f := .inl rfl

theorem Alike.mono {merged' : List Value} {f g : Fault} (h : f.Alike merged g)
    (hsub : ∀ x ∈ merged, x ∈ merged') : f.Alike merged' g := by
  rcases h with h | ⟨operand, hmem, h⟩
  · exact .inl h
  · exact .inr ⟨operand, hsub operand hmem, h⟩

theorem Alike.symm {f g : Fault} (h : f.Alike merged g) : g.Alike merged f := by
  rcases h with h | ⟨operand, hmem, h | h⟩
  · exact .inl h.symm
  · exact .inr ⟨operand, hmem, .inr h⟩
  · exact .inr ⟨operand, hmem, .inl h⟩

end Fault

/-- Two outcomes: results in a relation, or faults that are alike. -/
inductive Outcomes (merged : List Value) {α β : Type} (R : α → β → Prop) :
    Except Fault α → Except Fault β → Prop
  | ok {a : α} {b : β} (h : R a b) : Outcomes merged R (.ok a) (.ok b)
  | error {f g : Fault} (h : f.Alike merged g) : Outcomes merged R (.error f) (.error g)

namespace Outcomes
variable {α β γ δ : Type} {R : α → β → Prop} {S : γ → δ → Prop} {e : Except Fault α}
  {e' : Except Fault β}

theorem refl {R : α → α → Prop} {e : Except Fault α} (h : ∀ a, e = .ok a → R a a) :
    Outcomes merged R e e := by
  cases e with
  | error f => exact .error (.refl f)
  | ok a => exact .ok (h a rfl)

theorem symm {R : α → α → Prop} {e e' : Except Fault α} (h : ∀ a b, R a b → R b a)
    (he : Outcomes merged R e e') : Outcomes merged R e' e := by
  cases he with
  | ok hR => exact .ok (h _ _ hR)
  | error hf => exact .error hf.symm

theorem mono {merged' : List Value} (he : Outcomes merged R e e')
    (hsub : ∀ x ∈ merged, x ∈ merged') : Outcomes merged' R e e' := by
  cases he with
  | ok hR => exact .ok hR
  | error hf => exact .error (hf.mono hsub)

theorem bind {k : α → Except Fault γ} {k' : β → Except Fault δ} (he : Outcomes merged R e e')
    (hk : ∀ a b, R a b → Outcomes merged S (k a) (k' b)) :
    Outcomes merged S (e >>= k) (e' >>= k') := by
  cases he with
  | ok hR => exact hk _ _ hR
  | error hf => exact .error hf

/-- Outcomes that are the same as far as classes of faults and functions of the results go. -/
theorem of_eq {f : α → γ} {g : β → γ}
    (h : (e.mapError Fault.category).map f = (e'.mapError Fault.category).map g) :
    Outcomes merged (fun a b => f a = g b) e e' := by
  rcases e with fault | a <;> rcases e' with fault' | b
  · exact .error (.inl (Except.error.inj h))
  · cases h
  · cases h
  · exact .ok (Except.ok.inj h)

theorem mapM {f g : α → Except Fault β} {xs : List α}
    (h : ∀ x ∈ xs, Outcomes merged Eq (f x) (g x)) :
    Outcomes merged Eq (xs.mapM f) (xs.mapM g) := by
  induction xs with
  | nil => exact .ok rfl
  | cons x xs ih =>
    obtain ⟨hx, hxs⟩ := List.forall_mem_cons.1 h
    rw [List.mapM_cons, List.mapM_cons]
    refine hx.bind fun b b' hb => ?_
    subst hb
    refine (ih hxs).bind fun bs bs' hbs => ?_
    subst hbs
    exact .ok rfl

theorem of_map_eq {f : α → γ} {g : β → γ} (h : e.map f = e'.map g) :
    Outcomes merged (fun a b => f a = g b) e e' := by
  have hcomm {ε : Type} (f : ε → γ) (e : Except Fault ε) :
      (e.mapError Fault.category).map f = (e.map f).mapError Fault.category := by
    cases e <;> rfl
  exact of_eq (by rw [hcomm, hcomm, h])

/-- What holds of each of the two results goes along. -/
theorem imp {S : α → β → Prop} (he : Outcomes merged R e e')
    (h : ∀ a b, e = .ok a → e' = .ok b → R a b → S a b) : Outcomes merged S e e' := by
  cases he with
  | ok hR => exact .ok (h _ _ rfl rfl hR)
  | error hf => exact .error hf

theorem agree (he : Outcomes merged R e e') :
    ((∃ a, e = .ok a) ↔ ∃ b, e' = .ok b) ∧ (∀ a b, e = .ok a → e' = .ok b → R a b) ∧
      ∀ f g, e = .error f → e' = .error g → f.Alike merged g := by
  cases he with
  | ok hR =>
    refine ⟨⟨fun _ => ⟨_, rfl⟩, fun _ => ⟨_, rfl⟩⟩, fun a b ha hb => ?_, fun f g hf => ?_⟩
    · cases ha
      cases hb
      exact hR
    · cases hf
  | error halike =>
    refine ⟨?_, fun a b ha => ?_, fun f g hf hg => ?_⟩
    · constructor <;> rintro ⟨_, h⟩ <;> cases h
    · cases ha
    · cases hf
      cases hg
      exact halike

end Outcomes

/-- From any states, two updates come to outcomes that go together. -/
structure Update.Sim (merged : List Value) {α β : Type} (R : α → β → Prop) (u : Update α)
    (w : Update β) : Prop where
  outcomes : ∀ t t', Outcomes merged R (u t).1 (w t').1

namespace Update.Sim
variable {α β γ δ : Type} {R : α → β → Prop} {S : γ → δ → Prop} {u : Update α} {w : Update β}

theorem pure {a : α} {b : β} (h : R a b) : Sim merged R (Pure.pure a) (Pure.pure b) :=
  ⟨fun _ _ => .ok h⟩

theorem throw (fault : Fault) : Sim merged R (throw fault) (throw fault) :=
  ⟨fun _ _ => .error (.refl _)⟩

theorem mono {merged' : List Value} (h : Sim merged R u w) (hsub : ∀ x ∈ merged, x ∈ merged') :
    Sim merged' R u w := ⟨fun t t' => (h.outcomes t t').mono hsub⟩

theorem lift {e : Except Fault α} {e' : Except Fault β} (h : Outcomes merged R e e') :
    Sim merged R (lift e) (lift e') := ⟨fun _ _ => h⟩

theorem bind {k : α → Update γ} {k' : β → Update δ} (h : Sim merged R u w)
    (hk : ∀ a b, R a b → Sim merged S (k a) (k' b)) : Sim merged S (u >>= k) (w >>= k') := by
  refine ⟨fun t t' => ?_⟩
  have ho := h.outcomes t t'
  rcases hu : u t with ⟨e, t₁⟩
  rcases hw : w t' with ⟨e', t₁'⟩
  rw [hu, hw] at ho
  cases ho with
  | ok hR =>
    rw [bind_of_ok hu, bind_of_ok hw]
    exact (hk _ _ hR).outcomes t₁ t₁'
  | error hf =>
    rw [bind_of_error hu, bind_of_error hw]
    exact .error hf

theorem fresh : Sim merged (fun _ _ => True) fresh fresh := ⟨fun _ _ => .ok trivial⟩

theorem announce (key : Option Key) (n : Node) :
    Sim merged (fun _ _ => True) (n.announce key) (n.announce key) := by
  refine ⟨fun t t' => ?_⟩
  obtain ⟨_, h, -⟩ := (n.announce_comesTo key).exists_ok t
  obtain ⟨_, h', -⟩ := (n.announce_comesTo key).exists_ok t'
  rw [h, h']
  exact .ok trivial

end Update.Sim

namespace Merge

/-- An element is an entry for an ordered mapping if it is one for any other, and the same one. -/
theorem entry_alike (position : Nat) {element : Value}
    (h : ∀ count fault, element.elementCount? = some count → 2 < count →
      Storage.reserveItems count = .error fault → Fault.pairTooLong.Alike merged fault) :
    Outcomes merged Eq (orderedEntry element) (entry position element) := by
  have hroom {count : Nat} (hcount : count ≤ 2) : Storage.reserveItems count = .ok () := by
    have hpair := Machine.pair_le_capacity
    unfold Storage.reserveItems
    rw [if_neg (by omega), if_neg (by omega)]
  rw [element.elementCount?_eq] at h
  rw [orderedEntry, entry, element.elementCount?_eq, element.firstElements?_eq]
  generalize element.elements? = found at h ⊢
  rcases found with - | (- | ⟨x, - | ⟨y, - | ⟨z, rest⟩⟩⟩)
  · exact .error (.inl rfl)
  · show Outcomes merged Eq _ (Storage.reserveItems 0 >>= fun _ => _)
    rw [hroom (by omega)]
    exact .error (.inl rfl)
  · show Outcomes merged Eq _ (Storage.reserveItems 1 >>= fun _ => _)
    rw [hroom (by omega)]
    exact .error (.inl rfl)
  · show Outcomes merged Eq _ (Storage.reserveItems 2 >>= fun _ => _)
    rw [hroom (by omega)]
    exact .refl fun _ _ => rfl
  · show Outcomes merged Eq (.error .pairTooLong) (Storage.reserveItems _ >>= fun _ => _)
    rcases hlist : Storage.reserveItems (x :: y :: z :: rest).length with fault | u
    · exact .error (h _ fault rfl (by simp) hlist)
    · exact .error (.inl rfl)

theorem entries_of_not_isMapping {ordered : Bool} {operand : Value}
    (h : operand.isMapping = false) :
    entries ordered operand = match candidates? operand with
      | some xs => xs.zipIdx.mapM fun x => if ordered then orderedEntry x.1 else entry x.2 x.1
      | none => .error (.notIterable operand.kind) := by
  cases operand <;> first | rfl | cases h

/-- Whether the mapping that is merged into is ordered hardly matters. -/
theorem entries_alike {operand : Value} (hmem : operand ∈ merged) (ordered ordered' : Bool) :
    Outcomes merged Eq (entries ordered operand) (entries ordered' operand) := by
  rcases h : operand.isMapping with - | -
  · rw [entries_of_not_isMapping h, entries_of_not_isMapping h]
    rcases hxs : candidates? operand with - | xs
    · exact .refl fun _ _ => rfl
    refine .mapM fun x hx => ?_
    have halike : Outcomes merged Eq (orderedEntry x.1) (entry x.2 x.1) := by
      refine entry_alike x.2 fun count fault hcount hlong hlist => ?_
      exact .inr ⟨operand, hmem, .inl
        ⟨rfl, xs, hxs, x.1, List.fst_mem_of_mem_zipIdx hx, count, hcount, hlong, hlist⟩⟩
    cases ordered <;> cases ordered'
    · exact .refl fun _ _ => rfl
    · exact halike.symm fun _ _ => Eq.symm
    · exact halike
    · exact .refl fun _ _ => rfl
  · cases operand with
    | map => exact .refl fun _ _ => rfl
    | _ => cases h

end Merge

end Amend
