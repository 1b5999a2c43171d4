import Amend.Proofs.Actions
import Amend.Proofs.Plain
import Amend.Proofs.Simulation

/-!
# Values that thaw alike

`Value.Alike` relates values that come to the same when they are thawed and hold no points, such as
a value and a frozen copy of it, and `Scratch.Alike` copies of one level. What is done to a level
keeps the relations: a copy is made (`Scratch.ofContainer_alike`), its children are read and written
(`child_alike`, `assign_alike`), and it is rebuilt (`rebuild_sim`).
-/

namespace Amend

open Update

/-- Two values that come to the same when they are thawed, and hold no points. -/
structure Value.Alike (v w : Value) : Prop where
  left : v.isPointFree
  right : w.isPointFree
  plain_eq : v.plain = w.plain

namespace Scratch

def plain (s : Scratch) : Scratch := s.mapWith (fun _ => .list) (fun _ => .plain) Value.plain

def IsPointFree (s : Scratch) : Prop := s.kind ≠ .seq (.tuple .point) ∧ s.All (·.isPointFree)

/-- The same for copies of one level. -/
structure Alike (s s' : Scratch) : Prop where
  left : s.IsPointFree
  right : s'.IsPointFree
  plain_eq : s.plain = s'.plain

end Scratch

namespace Value
variable {v w : Value}

theorem Alike.refl (h : v.isPointFree) : v.Alike v := ⟨h, h, rfl⟩

theorem alike_freeze (h : v.isPointFree) (next : Ident) : (v.freeze next).1.Alike v :=
  ⟨isPointFree_freeze v next h, h, plain_freeze v next⟩

theorem Alike.isContainer_eq (h : v.Alike w) : v.isContainer = w.isContainer := by
  rw [← isContainer_plain, h.plain_eq, isContainer_plain]

theorem Alike.truthy_eq (h : v.Alike w) : v.truthy = w.truthy := by
  rw [← truthy_plain, h.plain_eq, truthy_plain]

/-- Values that are alike are the same, or both hold others. -/
theorem Alike.eq_or_not_isAtom (h : v.Alike w) :
    v = w ∨ v.isAtom = false ∧ w.isAtom = false := by
  have hplain := h.plain_eq
  have hatom : v.isAtom = w.isAtom := by rw [← isAtom_plain, hplain, isAtom_plain]
  rcases hv : v.isAtom with - | -
  · exact .inr ⟨rfl, hatom ▸ hv⟩
  · rw [plain_of_isAtom hv, plain_of_isAtom (hatom ▸ hv)] at hplain
    exact .inl hplain

theorem kind_ne_point (h : v.isPointFree) : v.kind ≠ .seq (.tuple .point) := by
  cases v with
  | seq id kind xs => exact fun hkind => (isPointFree_seq.1 h).1 (Kind.seq.inj hkind)
  | _ => exact fun hkind => Kind.noConfusion hkind

theorem seqKindOf_ne_point {kind : SeqKind} (h : v.isPointFree) (hkind : kind ≠ .tuple .point) :
    v.seqKindOf kind ≠ .tuple .point := by
  cases v with
  | seq id k xs =>
    rcases k with - | - | (- | - | -)
    case tuple.point => exact absurd rfl (isPointFree_seq.1 h).1
    case tuple.plain | tuple.tri => exact fun h' => nomatch h'
    all_goals exact hkind
  | _ => exact hkind

theorem kind_level_ne_point (v : Value) : v.level.kind ≠ .seq (.tuple .point) := by
  intro h
  cases v <;> cases h

theorem isPointFree_level (h : v.isPointFree) : v.level.IsPointFree := by
  refine ⟨kind_level_ne_point v, ?_⟩
  cases v with
  | seq id kind xs => exact (isPointFree_seq.1 h).2
  | map id kind es => exact isPointFree_map.1 h
  | deque id xs => exact isPointFree_deque.1 h
  | range id r =>
    intro x hx
    obtain ⟨n, -, rfl⟩ := List.mem_map.1 hx
    rfl
  | _ => exact List.forall_mem_nil _

end Value

namespace Scratch
variable {s s' : Scratch} {k : Key} {v w : Value} {command : Command}

theorem alike_items {kind kind' : SeqKind} {xs ys : List Value} :
    (items kind xs).Alike (items kind' ys) ↔
      (kind ≠ .tuple .point ∧ ∀ x ∈ xs, x.isPointFree) ∧
        (kind' ≠ .tuple .point ∧ ∀ y ∈ ys, y.isPointFree) ∧
          xs.map Value.plain = ys.map Value.plain := by
  constructor
  · rintro ⟨⟨hkind, hxs⟩, ⟨hkind', hys⟩, hplain⟩
    exact ⟨⟨fun h => hkind (congrArg Kind.seq h), hxs⟩,
      ⟨fun h => hkind' (congrArg Kind.seq h), hys⟩, (items.inj hplain).2⟩
  · rintro ⟨⟨hkind, hxs⟩, ⟨hkind', hys⟩, hplain⟩
    exact ⟨⟨fun h => hkind (Kind.seq.inj h), hxs⟩, ⟨fun h => hkind' (Kind.seq.inj h), hys⟩,
      congrArg (items .list) hplain⟩

theorem alike_entries {kind kind' : MapKind} {es es' : Entries Value} :
    (entries kind es).Alike (entries kind' es') ↔
      (∀ e ∈ es, e.2.isPointFree) ∧ (∀ e ∈ es', e.2.isPointFree) ∧
        es.mapValues Value.plain = es'.mapValues Value.plain := by
  constructor
  · rintro ⟨⟨-, hes⟩, ⟨-, hes'⟩, hplain⟩
    exact ⟨hes, hes', (entries.inj hplain).2⟩
  · rintro ⟨hes, hes', hplain⟩
    exact ⟨⟨Kind.noConfusion, hes⟩, ⟨Kind.noConfusion, hes'⟩, congrArg (entries .plain) hplain⟩

section
variable {kind kind' : SeqKind} {xs xs' ys ys' : List Value}

theorem Alike.singleton (h : (items kind xs).Alike (items kind' ys)) (hv : v.isPointFree) :
    (items kind [v]).Alike (items kind' [v]) := by
  obtain ⟨⟨hkind, -⟩, ⟨hkind', -⟩, -⟩ := alike_items.1 h
  have hall : ∀ x ∈ [v], x.isPointFree := List.forall_mem_singleton.2 hv
  exact alike_items.2 ⟨⟨hkind, hall⟩, ⟨hkind', hall⟩, rfl⟩

theorem Alike.append (h : (items kind xs).Alike (items kind' ys))
    (h' : (items kind xs').Alike (items kind' ys')) :
    (items kind (xs ++ xs')).Alike (items kind' (ys ++ ys')) := by
  obtain ⟨⟨hkind, hxs⟩, ⟨hkind', hys⟩, hplain⟩ := alike_items.1 h
  obtain ⟨⟨-, hxs'⟩, ⟨-, hys'⟩, hplain'⟩ := alike_items.1 h'
  refine alike_items.2 ⟨⟨hkind, ?_⟩, ⟨hkind', ?_⟩, ?_⟩
  · exact List.forall_mem_append.2 ⟨hxs, hxs'⟩
  · exact List.forall_mem_append.2 ⟨hys, hys'⟩
  · rw [List.map_append, List.map_append, hplain, hplain']

end

section
variable {kind kind' : MapKind} {es es' new : Entries Value}

theorem Alike.putAll (h : (entries kind es).Alike (entries kind' es'))
    (hnew : ∀ e ∈ new, e.2.isPointFree) :
    (entries kind (Entries.putAll es new)).Alike (entries kind' (Entries.putAll es' new)) := by
  obtain ⟨hes, hes', hplain⟩ := alike_entries.1 h
  refine alike_entries.2 ⟨?_, ?_, ?_⟩
  · exact Entries.forall_putAll (P := fun v : Value => v.isPointFree) hes hnew
  · exact Entries.forall_putAll (P := fun v : Value => v.isPointFree) hes' hnew
  · rw [← Entries.putAll_mapValues, ← Entries.putAll_mapValues, hplain]

theorem Alike.fillAll (h : (entries kind es).Alike (entries kind' es'))
    (hnew : ∀ e ∈ new, e.2.isPointFree) :
    (entries kind (Entries.fillAll es new)).Alike (entries kind' (Entries.fillAll es' new)) := by
  obtain ⟨hes, hes', hplain⟩ := alike_entries.1 h
  refine alike_entries.2 ⟨?_, ?_, ?_⟩
  · exact Entries.forall_fillAll (P := fun v : Value => v.isPointFree) hes hnew
  · exact Entries.forall_fillAll (P := fun v : Value => v.isPointFree) hes' hnew
  · rw [← Entries.fillAll_mapValues, ← Entries.fillAll_mapValues, hplain]

end

section
variable {f : Value → Value} (hf : ∀ x, (f x).plain = x.plain)
include hf

theorem plains_map (xs : List Value) : (xs.map f).map Value.plain = xs.map Value.plain := by
  rw [List.map_map]
  exact List.map_congr_left fun x _ => hf x

theorem plains_mapValues (es : Entries Value) :
    (es.mapValues f).mapValues Value.plain = es.mapValues Value.plain := by
  rw [Entries.mapValues_mapValues]
  exact Entries.mapValues_congr fun e _ => hf e.2

end

theorem ofMapping_plain (command : Command) (v : Value) :
    ((ofMapping command v.plain).mapError Fault.category).map (·.2.mapValues Value.plain) =
      ((ofMapping command v).mapError Fault.category).map (·.2.mapValues Value.plain) := by
  cases v with
  | seq id kind xs =>
    rw [Value.plain_seq]
    rfl
  | map id kind es =>
    rw [Value.plain_map]
    exact congrArg Except.ok (plains_mapValues Value.plain_plain es)
  | _ => rfl

theorem isPointFree_of_ofMapping {kind : MapKind} {es : Entries Value} (hv : v.isPointFree)
    (h : ofMapping command v = .ok (kind, es)) : ∀ e ∈ es, e.2.isPointFree := by
  have hall := (Value.isPointFree_level hv).2
  rwa [(ofMapping_eq_ok h).1] at hall

variable [Machine] {merged : List Value}

theorem ofContainer_plain (v : Value) :
    (ofContainer v.plain).map plain = (ofContainer v).map plain := by
  cases v with
  | seq id kind xs =>
    rw [Value.plain_seq]
    exact congrArg (fun ys => Except.ok (items .list ys)) (plains_map Value.plain_plain xs)
  | map id kind es =>
    rw [Value.plain_map]
    exact congrArg (fun es => Except.ok (entries .plain es))
      (plains_mapValues Value.plain_plain es)
  | deque id xs =>
    rw [Value.plain_deque]
    exact congrArg (fun ys => Except.ok (items .list ys)) (plains_map Value.plain_shape xs)
  | _ => rfl

theorem ofSequence_plain (command : Command) (v : Value) :
    ((ofSequence command v.plain).mapError Fault.category).map (·.2.map Value.plain) =
      ((ofSequence command v).mapError Fault.category).map (·.2.map Value.plain) := by
  cases v with
  | seq id kind xs =>
    rw [Value.plain_seq]
    cases kind <;> exact congrArg Except.ok (plains_map Value.plain_plain xs)
  | map id kind es =>
    rw [Value.plain_map]
    rfl
  | deque id xs =>
    rw [Value.plain_deque]
    exact congrArg Except.ok (plains_map Value.plain_shape xs)
  | _ => rfl

theorem ofContainer_alike (h : v.Alike w) :
    Outcomes merged Alike (ofContainer v) (ofContainer w) := by
  have heq : (ofContainer v).map plain = (ofContainer w).map plain := by
    rw [← ofContainer_plain, h.plain_eq, ofContainer_plain]
  refine (Outcomes.of_map_eq heq).imp fun s s' hs hs' hplain => ?_
  obtain rfl := ofContainer_eq_ok hs
  obtain rfl := ofContainer_eq_ok hs'
  exact ⟨Value.isPointFree_level h.left, Value.isPointFree_level h.right, hplain⟩

theorem child_alike (h : s.Alike s') (k : Key) :
    Outcomes merged Value.Alike (s.child k) (s'.child k) := by
  have heq : (s.child k).map Value.plain = (s'.child k).map Value.plain := by
    rw [← child_mapWith rfl, ← child_mapWith rfl]
    exact congrArg (child k) h.plain_eq
  refine (Outcomes.of_map_eq heq).imp fun c d hc hd hplain => ?_
  rw [child_eq_ok hc, child_eq_ok hd] at hplain ⊢
  exact ⟨h.left.2.child?_getD rfl, h.right.2.child?_getD rfl, hplain⟩

theorem assign_alike (h : s.Alike s') (hv : v.Alike w) (k : Key) :
    Outcomes merged Alike (s.assign k v) (s'.assign k w) := by
  have heq : (s.assign k v).map plain = (s'.assign k w).map plain :=
    calc (s.assign k v).map plain
        = s.plain.assign k v.plain := assign_mapWith.symm
      _ = s'.plain.assign k w.plain := by rw [h.plain_eq, hv.plain_eq]
      _ = (s'.assign k w).map plain := assign_mapWith
  refine (Outcomes.of_map_eq heq).imp fun s₁ s₁' hs hs' hplain => ⟨⟨?_, ?_⟩, ⟨?_, ?_⟩, hplain⟩
  · rw [kind_assign hs]
    exact h.left.1
  · exact h.left.2.assign hv.left hs
  · rw [kind_assign hs']
    exact h.right.1
  · exact h.right.2.assign hv.right hs'

theorem isPointFree_of_ofSequence {kind : SeqKind} {xs : List Value} (hv : v.isPointFree)
    (h : ofSequence command v = .ok (kind, xs)) :
    kind ≠ .tuple .point ∧ ∀ x ∈ xs, x.isPointFree := by
  obtain ⟨hlevel, hkind⟩ := ofSequence_eq_ok h
  refine ⟨?_, ?_⟩
  · rw [hkind]
    split <;> exact SeqKind.noConfusion
  · have hall := (Value.isPointFree_level hv).2
    rwa [hlevel] at hall

theorem ofSequence_alike (h : v.Alike w) :
    Outcomes merged (fun p q => (items p.1 p.2).Alike (items q.1 q.2)) (ofSequence command v)
      (ofSequence command w) := by
  have heq := (ofSequence_plain command v).symm
  rw [h.plain_eq, ofSequence_plain] at heq
  exact (Outcomes.of_eq heq).imp fun p q hp hq hplain => alike_items.2
    ⟨isPointFree_of_ofSequence h.left hp, isPointFree_of_ofSequence h.right hq, hplain⟩

theorem ofMapping_alike (h : v.Alike w) :
    Outcomes merged (fun p q => (entries p.1 p.2).Alike (entries q.1 q.2)) (ofMapping command v)
      (ofMapping command w) := by
  have heq := (ofMapping_plain command v).symm
  rw [h.plain_eq, ofMapping_plain] at heq
  exact (Outcomes.of_eq heq).imp fun p q hp hq hplain => alike_entries.2
    ⟨isPointFree_of_ofMapping h.left hp, isPointFree_of_ofMapping h.right hq, hplain⟩

theorem rebuild_sim (hs : s.Alike s') (h : v.Alike w) :
    Sim merged Value.Alike (s.rebuild v) (s'.rebuild w) := by
  cases s with
  | items kind xs =>
    cases s' with
    | entries => cases hs.plain_eq
    | items kind' ys =>
      obtain ⟨⟨hkind, hxs⟩, ⟨hkind', hys⟩, hplain⟩ := alike_items.1 hs
      rw [rebuild_items, rebuild_items, if_neg fun hv => Value.kind_ne_point h.left hv.1,
        if_neg fun hw => Value.kind_ne_point h.right hw.1]
      refine Sim.fresh.bind fun id id' _ => .pure ⟨?_, ?_, ?_⟩
      · exact Value.isPointFree_seq.2 ⟨Value.seqKindOf_ne_point h.left hkind, hxs⟩
      · exact Value.isPointFree_seq.2 ⟨Value.seqKindOf_ne_point h.right hkind', hys⟩
      · rw [Value.plain_seq, Value.plain_seq, hplain]
  | entries kind es =>
    cases s' with
    | items => cases hs.plain_eq
    | entries kind' es' =>
      obtain ⟨hes, hes', hplain⟩ := alike_entries.1 hs
      rw [rebuild_entries, rebuild_entries]
      refine Sim.fresh.bind fun id id' _ => .pure ⟨?_, ?_, ?_⟩
      · exact Value.isPointFree_map.2 hes
      · exact Value.isPointFree_map.2 hes'
      · rw [Value.plain_map, Value.plain_map, hplain]

end Scratch

end Amend
