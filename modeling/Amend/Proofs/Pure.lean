import Amend.Node
import Amend.Standard
import Amend.Proofs.Actions
import Amend.Proofs.Shape

/-!
# Functions that are pure

`Update.Matches` says of two updates that from any states they come to the same: one fault, or
results that a function, such as `Value.shape`, does not tell apart. An action is pure
(`Action.IsPure`) if it matches itself on values of one shape, so that what it comes to depends on
contents alone. The commands on containers are pure whatever the host; calls, and merges into
mappings of a derived class, are as pure as what the host makes of them. A statement that compares
two runs asks this of all actions of a tree (`Node.IsPure`).
-/

namespace Amend

/-- From any states, two updates fail for the same reason, or give results of which `f` keeps the
same. -/
structure Update.Matches {α β : Type} (f : α → β) (u w : Update α) : Prop where
  outcome_eq : ∀ t t', (u t).1.map f = (w t').1.map f

namespace Update.Matches
variable {α α' β β' : Type} {f : α → α'} {g : β → β'} {u w x : Update α} {a b : α} {fault : Fault}
  {k k' : α → Update β} {t t' : Trace}

theorem symm (h : u.Matches f w) : w.Matches f u := ⟨fun t t' => (h.outcome_eq t' t).symm⟩

theorem trans (h : u.Matches f w) (h' : w.Matches f x) : u.Matches f x :=
  ⟨fun t t' => (h.outcome_eq t t).trans (h'.outcome_eq t t')⟩

/-- What an update comes to from one state, it comes to from any other. -/
theorem of_ok (h : u.Matches f w) (hu : (u t).1 = .ok a) (t' : Trace) :
    ∃ b, (w t').1 = .ok b ∧ f b = f a := by
  have ho := h.outcome_eq t t'
  rw [hu] at ho
  rcases hw : (w t').1 with fault | b
  · rw [hw] at ho
    cases ho
  · rw [hw] at ho
    exact ⟨b, rfl, (Except.ok.inj ho).symm⟩

theorem of_error (h : u.Matches f w) (hu : (u t).1 = .error fault) (t' : Trace) :
    (w t').1 = .error fault := by
  have ho := h.outcome_eq t t'
  rw [hu] at ho
  rcases hw : (w t').1 with fault' | b
  · rw [hw] at ho
    exact congrArg Except.error (Except.error.inj ho).symm
  · rw [hw] at ho
    cases ho

theorem pure (h : f a = f b) : (Pure.pure a : Update α).Matches f (Pure.pure b) :=
  ⟨fun _ _ => congrArg Except.ok h⟩

theorem throw (fault : Fault) : (throw fault : Update α).Matches f (throw fault) :=
  ⟨fun _ _ => rfl⟩

theorem lift {e e' : Except Fault α} (h : e.map f = e'.map f) : (lift e).Matches f (lift e') :=
  ⟨fun _ _ => h⟩

theorem fresh : Update.fresh.Matches (fun _ => ()) Update.fresh := ⟨fun _ _ => rfl⟩

/-- The rests of two updates match where their first steps match and succeed. -/
theorem bind_of_ok (hu : u.Matches f w)
    (hk : ∀ {a b t t' t₁ t₁'}, u t = (.ok a, t₁) → w t' = (.ok b, t₁') → f a = f b →
      (k a).Matches g (k' b)) : (u >>= k).Matches g (w >>= k') := by
  refine ⟨fun t t' => ?_⟩
  rcases h : u t with ⟨fault | a, t₁⟩
  · have hw : w t' = (.error fault, (w t').2) :=
      Prod.ext (hu.of_error (congrArg Prod.fst h) t') rfl
    rw [bind_of_error h, bind_of_error hw]
  · obtain ⟨b, hb, hab⟩ := hu.of_ok (congrArg Prod.fst h) t'
    have hb' : w t' = (.ok b, (w t').2) := Prod.ext hb rfl
    rw [Update.bind_of_ok h, Update.bind_of_ok hb']
    exact (hk h hb' hab.symm).outcome_eq ..

theorem bind (hu : u.Matches f w) (hk : ∀ a b, f a = f b → (k a).Matches g (k' b)) :
    (u >>= k).Matches g (w >>= k') :=
  hu.bind_of_ok fun {a b _ _ _ _} _ _ hab => hk a b hab

end Update.Matches

section
open Update
variable {v w : Value}

namespace Value

theorem kind_congr (h : v.shape = w.shape) : v.kind = w.kind := by
  rw [← kind_shape, h, kind_shape]

theorem isContainer_congr (h : v.shape = w.shape) : v.isContainer = w.isContainer := by
  rw [← isContainer_shape, h, isContainer_shape]

theorem truthy_congr (h : v.shape = w.shape) : v.truthy = w.truthy := by
  rw [← truthy_shape, h, truthy_shape]

end Value

theorem Scratch.rebuild_matches {s s' : Scratch} (hs : s.shape = s'.shape) (h : v.shape = w.shape) :
    (s.rebuild v).Matches Value.shape (s'.rebuild w) := by
  cases s with
  | items kind xs =>
    cases s' with
    | entries => cases hs
    | items kind' ys =>
      injection hs with hkind hxs
      subst hkind
      have hlen : xs.length = ys.length := by simpa using congrArg List.length hxs
      have hseq : v.seqKindOf kind = w.seqKindOf kind := by
        rw [← Value.seqKindOf_shape, h, Value.seqKindOf_shape]
      rw [rebuild_items, rebuild_items, Value.kind_congr h, hseq, hlen]
      split
      · exact .throw _
      · refine .bind .fresh fun id id' _ => .pure ?_
        rw [Value.shape_seq, Value.shape_seq, hxs]
  | entries kind es =>
    cases s' with
    | items => cases hs
    | entries kind' es' =>
      injection hs with hkind hes
      subst hkind
      have hmap : v.mapKindOf kind = w.mapKindOf kind := by
        rw [← Value.mapKindOf_shape, h, Value.mapKindOf_shape]
      rw [rebuild_entries, rebuild_entries, hmap]
      refine .bind .fresh fun id id' _ => .pure ?_
      rw [Value.shape_map, Value.shape_map, hes]

namespace Scratch
variable {command : Command} {s s' : Scratch}

/-- What is made of one level, and read and written there, depends on the shapes alone. -/
theorem ofContainer_congr [Machine] (h : v.shape = w.shape) :
    (ofContainer v).map shape = (ofContainer w).map shape := by
  rw [← ofContainer_shape, h, ofContainer_shape]

theorem ofSequence_congr [Machine] (h : v.shape = w.shape) :
    (ofSequence command v).map (Prod.map id (List.map Value.shape)) =
      (ofSequence command w).map (Prod.map id (List.map Value.shape)) := by
  rw [← ofSequence_shape, h, ofSequence_shape]

theorem ofMapping_congr (h : v.shape = w.shape) :
    (ofMapping command v).map (Prod.map id (Entries.mapValues Value.shape)) =
      (ofMapping command w).map (Prod.map id (Entries.mapValues Value.shape)) := by
  rw [← ofMapping_shape, h, ofMapping_shape]

theorem child_congr_shape (h : s.shape = s'.shape) (k : Key) :
    (s.child k).map Value.shape = (s'.child k).map Value.shape := by
  rw [← child_shape, h, child_shape]

theorem assign_congr (h : s.shape = s'.shape) (hv : v.shape = w.shape) (k : Key) :
    (s.assign k v).map shape = (s'.assign k w).map shape := by
  rw [← assign_shape, h, hv, assign_shape]

end Scratch

end

/-- What a function comes to depends on the contents of its argument alone. -/
def Factory.IsPure [Host] (f : Factory) (arg : Value) : Prop :=
  ∀ v w : Value, v.shape = w.shape → (Host.call f arg v).Matches Value.shape (Host.call f arg w)

/-- What an action comes to depends on the contents of its target alone. -/
def Action.IsPure [Host] (a : Action) : Prop :=
  ∀ v w : Value, v.shape = w.shape → (a.perform v).Matches Value.shape (a.perform w)

namespace Node

mutual

/-- All actions of a tree have a property, also those of the trees that its functions run. -/
def Every (P : Action → Prop) : Node → Prop
  | .act a => P a
  | .rerun tree => tree.Every P
  | .enter children => EveryBelow P children
  | .misplaced _ => True
termination_by structural n => n

def EveryBelow (P : Action → Prop) : List (Key × Node) → Prop
  | [] => True
  | (_, n) :: rest => n.Every P ∧ EveryBelow P rest
termination_by structural ns => ns

end

/-- All that a tree calls is pure: its functions, and the updates of derived classes. -/
def IsPure [Host] (n : Node) : Prop := n.Every Action.IsPure

section
variable {P Q : Action → Prop} {n : Node} {children : List (Key × Node)}

theorem everyBelow_iff : EveryBelow P children ↔ ∀ e ∈ children, e.2.Every P := by
  induction children with
  | nil => simp [EveryBelow]
  | cons e rest ih => rw [EveryBelow, ih, List.forall_mem_cons]

theorem every_enter : (Node.enter children).Every P ↔ ∀ e ∈ children, e.2.Every P :=
  everyBelow_iff

mutual

theorem Every.of_forall (h : ∀ a, P a) : ∀ n : Node, n.Every P
  | .act a => h a
  | .rerun tree => Every.of_forall h tree
  | .enter children => EveryBelow.of_forall h children
  | .misplaced _ => trivial

theorem EveryBelow.of_forall (h : ∀ a, P a) : ∀ ns : List (Key × Node), EveryBelow P ns
  | [] => trivial
  | (_, n) :: rest => ⟨Every.of_forall h n, EveryBelow.of_forall h rest⟩

end

end

end Node

namespace Action
open Update
variable [Host]

theorem isPure_set (operand : Value) : (Action.set operand).IsPure := fun _ _ _ => .pure rfl

theorem isPure_push (operand : Value) : (Action.push operand).IsPure := by
  intro v w h
  refine .bind (.lift (Scratch.ofSequence_congr h)) fun copied copied' hcopy => ?_
  obtain ⟨kind, xs⟩ := copied
  obtain ⟨kind', ys⟩ := copied'
  obtain ⟨rfl, hxs⟩ := Prod.mk.inj hcopy
  refine Scratch.rebuild_matches ?_ h
  rw [Scratch.shape, Scratch.shape, List.map_append, List.map_append, hxs]
  rfl

theorem isPure_unshift (operand : Value) : (Action.unshift operand).IsPure := by
  intro v w h
  refine .bind (.lift (Scratch.ofSequence_congr h)) fun copied copied' hcopy => ?_
  obtain ⟨kind, xs⟩ := copied
  obtain ⟨kind', ys⟩ := copied'
  obtain ⟨rfl, hxs⟩ := Prod.mk.inj hcopy
  refine Scratch.rebuild_matches ?_ h
  rw [Scratch.shape, Scratch.shape, List.map_cons, List.map_cons, hxs]
  rfl

theorem isPure_merge [Host.Overwriting] (operand : Value) : (Action.merge operand).IsPure := by
  intro v w h
  rw [perform_merge v.overwrites, perform_merge w.overwrites]
  refine .bind (.lift (Scratch.ofMapping_congr h)) fun copied copied' hcopy => ?_
  obtain ⟨kind, es⟩ := copied
  obtain ⟨kind', es'⟩ := copied'
  obtain ⟨rfl, hes⟩ := Prod.mk.inj hcopy
  refine .bind (f := id) (.lift rfl) fun new new' hnew => ?_
  obtain rfl : new = new' := hnew
  refine Scratch.rebuild_matches ?_ h
  rw [Scratch.shape, Scratch.shape, ← Entries.putAll_mapValues, ← Entries.putAll_mapValues, hes]
  rfl

theorem isPure_defaults (operand : Value) : (Action.defaults operand).IsPure := by
  intro v w h
  refine .bind (.lift (Scratch.ofMapping_congr h)) fun copied copied' hcopy => ?_
  obtain ⟨kind, es⟩ := copied
  obtain ⟨kind', es'⟩ := copied'
  obtain ⟨rfl, hes⟩ := Prod.mk.inj hcopy
  cases operand with
  | map id' kind'' new =>
    refine Scratch.rebuild_matches ?_ h
    rw [Scratch.shape, Scratch.shape, ← Entries.fillAll_mapValues, ← Entries.fillAll_mapValues,
      hes]
    rfl
  | _ => exact .throw _

theorem isPure_refuse (kind : Kind) : (Action.refuse kind).IsPure := fun _ _ _ => .throw _

end Action

namespace Node
variable [Host]

theorem isPure_set (operand : Value) : (ofOperand .set operand).IsPure := by
  rw [ofOperand_set]
  exact Action.isPure_set operand

theorem isPure_push (operand : Value) : (ofOperand .push operand).IsPure := by
  rw [ofOperand_push]
  exact Action.isPure_push operand

theorem isPure_unshift (operand : Value) : (ofOperand .unshift operand).IsPure := by
  rw [ofOperand_unshift]
  exact Action.isPure_unshift operand

theorem isPure_merge [Host.Overwriting] (operand : Value) :
    (ofOperand .merge operand).IsPure := by
  rw [ofOperand_merge]
  exact Action.isPure_merge operand

theorem isPure_defaults (operand : Value) : (ofOperand .defaults operand).IsPure := by
  rw [ofOperand_defaults]
  exact Action.isPure_defaults operand

end Node

section
attribute [local instance] Host.standard

/-- The functions that are known by name are pure. -/
theorem Factory.isPure_standard (f : Factory) (arg : Value) : f.IsPure arg := by
  intro v w h
  show (f.apply arg v).Matches Value.shape (f.apply arg w)
  have hkind := Value.kind_congr h
  cases f with
  | identity => exact .pure h
  | wrap =>
    refine .bind .fresh fun id id' _ => .pure ?_
    rw [Value.shape_seq, Value.shape_seq, List.map_singleton, List.map_singleton, h]
  | isNone =>
    refine .pure ?_
    cases v <;> cases w <;> cases hkind <;> rfl
  | kind =>
    refine .pure ?_
    rw [hkind]
  | const => exact .pure rfl
  | add =>
    cases v with
    | int n =>
      cases w with
      | int m =>
        cases h
        exact .lift rfl
      | _ => cases hkind
    | _ => cases w <;> cases hkind <;> exact .throw _
  | fail => exact .throw _

theorem Node.isPure_standard (n : Node) : n.IsPure :=
  Every.of_forall (fun a => match a with
    | .set operand => Action.isPure_set operand
    | .push operand => Action.isPure_push operand
    | .unshift operand => Action.isPure_unshift operand
    | .merge operand => Action.isPure_merge operand
    | .defaults operand => Action.isPure_defaults operand
    | .call f arg => f.isPure_standard arg
    | .refuse kind => Action.isPure_refuse kind) n

end

end Amend
