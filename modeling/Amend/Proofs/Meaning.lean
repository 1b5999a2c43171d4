import Amend.Proofs.Pure

/-!
# What a tree means

`Node.eval` says what carrying a tree out comes to, on shapes and without a state: no identities are
handed out, nothing is logged, and all faults are one. What an action makes of a value is asked for
once, from a state of no account. Main statement (`perform_comesTo`): where a tree is pure, to carry
it out on a value fails where `eval` has no outcome, and else gives a value of the shape that `eval`
finds.
-/

namespace Amend

/-- The container that a copy is packed into for a source, without an identity. -/
def Scratch.pack (source : Value) : Scratch → Option Value
  | .items kind xs =>
    if source.kind = .seq (.tuple .point) ∧ xs.length ≠ 2 then none
    else some (.seq 0 (source.seqKindOf kind) xs)
  | .entries kind es => some (.map 0 (source.mapKindOf kind) es)

/-- The shape of what an update makes when nothing was made or logged before. -/
def Update.shape? (u : Update Value) : Option Value := (u ⟨0, []⟩).1.toOption.map Value.shape

/-- What an action on a shape comes to. -/
def Action.eval [Host] (old : Value) (a : Action) : Option Value := (a.perform old).shape?

namespace Node

def given (child : Value) (n : Node) : Value :=
  if n.command?.isSome || child.isContainer || child.truthy then child else .map 0 .plain []

variable [Host]

mutual

/-- What a tree on a shape comes to. -/
def eval : Node → Value → Option Value
  | .act action, v => action.eval v
  | .rerun tree, v => tree.eval v
  | .enter children, v =>
    if children.isEmpty && !v.isContainer then some v
    else do
      let scratch ← (Scratch.ofContainer v).toOption
      let scratch ← evalAll children scratch
      scratch.pack v
  | .misplaced _, _ => none
termination_by structural n => n

/-- What the children of a node come to, each on what the ones before it have left. -/
def evalAll : List (Key × Node) → Scratch → Option Scratch
  | [], scratch => some scratch
  | (key, n) :: rest, scratch => do
    let child ← (scratch.child key).toOption
    let v ← n.eval (n.given child)
    let scratch ← (scratch.assign key v).toOption
    evalAll rest scratch
termination_by structural ns => ns

end

end Node

/-- From any state, an update fails if there is no outcome, and else what `f` keeps of its result is
the outcome. -/
structure Update.ComesTo {α β : Type} (u : Update α) (f : α → β) (o : Option β) : Prop where
  outcome : ∀ t, (u t).1.toOption.map f = o

namespace Update.ComesTo
variable {α α' β β' : Type} {u : Update α} {f : α → α'} {g : β → β'} {a : α} {a' : α'}
  {o : Option α'}

theorem agree {w : Update α} (hu : u.ComesTo f o) (hw : w.ComesTo f o) (t t' : Trace) :
    ((∃ r, (u t).1 = .ok r) ↔ ∃ r, (w t').1 = .ok r) ∧
      ∀ r r', (u t).1 = .ok r → (w t').1 = .ok r' → f r = f r' := by
  have ho := (hu.outcome t).trans (hw.outcome t').symm
  generalize (u t).1 = e at ho ⊢
  generalize (w t').1 = e' at ho ⊢
  rcases e with fault | a <;> rcases e' with fault' | a'
  · refine ⟨⟨?_, ?_⟩, fun r r' h => nomatch h⟩ <;> exact fun ⟨_, h⟩ => nomatch h
  · cases ho
  · cases ho
  · refine ⟨⟨fun _ => ⟨_, rfl⟩, fun _ => ⟨_, rfl⟩⟩, fun r r' h h' => ?_⟩
    cases h
    cases h'
    exact Option.some.inj ho

theorem of_ok {t : Trace} (hu : u.ComesTo f o) (h : (u t).1 = .ok a) : o = some (f a) := by
  rw [← hu.outcome t, h]
  rfl

theorem exists_ok (hu : u.ComesTo f (some a')) (t : Trace) :
    ∃ a, (u t).1 = .ok a ∧ f a = a' := by
  have ho := hu.outcome t
  rcases h : (u t).1 with fault | a
  · rw [h] at ho
    cases ho
  · rw [h] at ho
    exact ⟨a, rfl, Option.some.inj ho⟩

/-- The same with what the update leaves behind. -/
theorem exists_run (hu : u.ComesTo f (some a')) (t : Trace) :
    ∃ a t', u t = (.ok a, t') ∧ f a = a' := by
  obtain ⟨a, ha, hf⟩ := hu.exists_ok t
  exact ⟨a, (u t).2, Prod.ext ha rfl, hf⟩

theorem pure (h : f a = a') : (Pure.pure a : Update α).ComesTo f (some a') :=
  ⟨fun _ => congrArg some h⟩

theorem throw (fault : Fault) : (throw fault : Update α).ComesTo f none := ⟨fun _ => rfl⟩

theorem lift {e : Except Fault α} {e' : Except Fault α'} (h : e' = e.map f) :
    (lift e).ComesTo f e'.toOption := by
  subst h
  refine ⟨fun t => ?_⟩
  rcases e with fault | a <;> rfl

theorem lift_ok {e : Except Fault α} (h : e.map f = .ok a') :
    (Update.lift e).ComesTo f (some a') := lift h.symm

theorem bind_of_ok {m : α → Update β} {k : α' → Option β'} (hu : u.ComesTo f o)
    (hm : ∀ {a t t'}, u t = (.ok a, t') → (m a).ComesTo g (k (f a))) :
    (u >>= m).ComesTo g (o >>= k) := by
  refine ⟨fun t => ?_⟩
  have ho := hu.outcome t
  rcases h : u t with ⟨fault | a, t'⟩
  · rw [h] at ho
    rw [bind_of_error h, ← ho]
    rfl
  · rw [h] at ho
    rw [Update.bind_of_ok h, ← ho]
    exact (hm h).outcome t'

theorem bind {m : α → Update β} {k : α' → Option β'} (hu : u.ComesTo f o)
    (hm : ∀ a, (m a).ComesTo g (k (f a))) : (u >>= m).ComesTo g (o >>= k) :=
  hu.bind_of_ok fun {a _ _} _ => hm a

/-- A step whose result plays no part in the outcome. -/
theorem bind_unit {m : α → Update β} {o' : Option β'} (hu : u.ComesTo (fun _ => ()) (some ()))
    (hm : ∀ a, (m a).ComesTo g o') : (u >>= m).ComesTo g o' := hu.bind (k := fun _ => o') hm

theorem fresh : Update.fresh.ComesTo (fun _ => ()) (some ()) := ⟨fun _ => rfl⟩

end Update.ComesTo

section
variable {v w : Value}

open Update

theorem Scratch.rebuild_comesTo (s : Scratch) (v : Value) :
    (s.rebuild v).ComesTo Value.shape (s.shape.pack v.shape) := by
  cases s with
  | items kind xs =>
    rw [rebuild_items, shape, pack, Value.kind_shape, Value.seqKindOf_shape, List.length_map]
    split
    · exact .throw _
    · exact .bind_unit .fresh fun id => .pure Value.shape_seq
  | entries kind es =>
    rw [rebuild_entries, shape, pack, Value.mapKindOf_shape]
    exact .bind_unit .fresh fun id => .pure Value.shape_map

theorem Update.Matches.shape?_eq {u w : Update Value} (h : u.Matches Value.shape w) :
    u.shape? = w.shape? := by
  have hmap (e : Except Fault Value) :
      e.toOption.map Value.shape = (e.map Value.shape).toOption := by
    cases e <;> rfl
  rw [Update.shape?, Update.shape?, hmap, hmap, h.outcome_eq ⟨0, []⟩ ⟨0, []⟩]

/-- What an update of a value comes to is what it makes of the value's shape when it is asked for,
if it depends on the contents alone. -/
theorem Update.Matches.comesTo {u w : Update Value} (h : u.Matches Value.shape w) :
    u.ComesTo Value.shape w.shape? := by
  refine ⟨fun t => ?_⟩
  show (u t).1.toOption.map Value.shape = (w ⟨0, []⟩).1.toOption.map Value.shape
  rcases hu : (u t).1 with fault | a
  · simp only [h.of_error hu, Except.toOption, Option.map_none]
  · obtain ⟨b, hb, hab⟩ := h.of_ok hu ⟨0, []⟩
    rw [hb]
    exact congrArg some hab.symm

theorem Action.perform_comesTo [Host] {a : Action} (ha : a.IsPure) (old : Value) :
    (a.perform old).ComesTo Value.shape (a.eval old.shape) :=
  (ha old old.shape old.shape_shape.symm).comesTo

namespace Node

/-- What the node of a command, but of a call, comes to is what the command makes. -/
theorem eval_ofOperand [Host] {c : Command} (hc : c ≠ .invoke) (operand v : Value) :
    (ofOperand c operand).eval v = (applyCommand c v operand).shape? := by
  cases c with
  | invoke => exact absurd rfl hc
  | _ => cases operand <;> rfl

theorem announce_comesTo (key : Option Key) (n : Node) :
    (n.announce key).ComesTo (fun _ => ()) (some ()) := by
  unfold announce
  split
  · exact ⟨fun _ => rfl⟩
  · exact .pure rfl

theorem given_shape (child : Value) (n : Node) : n.given child.shape = (n.given child).shape := by
  unfold given
  rw [Value.isContainer_shape, Value.truthy_shape]
  split <;> rfl

theorem input_comesTo (child : Value) (n : Node) :
    (n.input child).ComesTo Value.shape (some (n.given child.shape)) := by
  rw [given_shape]
  unfold input given
  split
  · exact .pure rfl
  · exact .bind_unit .fresh fun id => .pure rfl

variable [Host]

mutual

/-- Carrying a tree out comes to what the tree means. -/
theorem perform_comesTo : ∀ (n : Node), n.IsPure → ∀ v : Value,
    (n.perform v).ComesTo Value.shape (n.eval v.shape)
  | .act _, h, v => Action.perform_comesTo h v
  | .rerun tree, h, v => .bind_unit (tree.announce_comesTo _) fun _ => perform_comesTo tree h v
  | .enter children, h, v => by
    rw [perform, eval, Value.isContainer_shape]
    split
    · exact .pure rfl
    · refine .bind (.lift Scratch.ofContainer_shape) fun s => ?_
      refine .bind (performAll_comesTo children h s) fun s' => ?_
      exact s'.rebuild_comesTo v
  | .misplaced _, _, _ => .throw _

theorem performAll_comesTo : ∀ (ns : List (Key × Node)), EveryBelow Action.IsPure ns →
    ∀ s : Scratch, (performAll ns s).ComesTo Scratch.shape (evalAll ns s.shape)
  | [], _, _ => .pure rfl
  | (key, n) :: rest, h, s => by
    obtain ⟨hn, hrest⟩ := h
    rw [performAll, evalAll]
    refine .bind (.lift Scratch.child_shape) fun c => ?_
    refine .bind_unit (n.announce_comesTo _) fun _ => ?_
    refine .bind (k := fun w => do
      let r ← n.eval w
      let s' ← (s.shape.assign key r).toOption
      evalAll rest s') (n.input_comesTo c) fun w => ?_
    refine .bind (perform_comesTo n hn w) fun r => ?_
    exact .bind (.lift Scratch.assign_shape) fun s' => performAll_comesTo rest hrest s'

end

end Node

end

end Amend
