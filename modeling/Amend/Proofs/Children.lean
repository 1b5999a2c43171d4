import Amend.Scratch
import Amend.Proofs.Outcome

/-!
# Children of a level

`Scratch.child?` is the child at a key and `Scratch.SameChild` tells whether two keys address one
child: by key in a mapping, by the place that a position resolves to in a sequence. Main statements:
writing at a key changes the children that the key addresses and no other (`child?_assign_same`,
`child?_assign_of_not_same`), and a container has the children of the copy it is rebuilt from
(`child?_rebuild`). `Value.at?` follows a path of keys.
-/

namespace Amend

/-- The place in a sequence of `size` items that a key addresses. -/
def Key.slot? (size : Nat) (k : Key) : Option Nat := k.position?.bind (Position.index? size)

namespace Scratch

def child? (k : Key) : Scratch → Option Value
  | .items _ xs => (k.slot? xs.length).bind (xs[·]?)
  | .entries _ es => Entries.find? k es

/-- Whether two keys address the same child. Positions do when they resolve to the same place. -/
def SameChild (s : Scratch) (k l : Key) : Prop :=
  match s with
  | .items _ xs => ∃ i, k.slot? xs.length = some i ∧ l.slot? xs.length = some i
  | .entries _ _ => k.Same l

def kind : Scratch → Kind
  | .items kind _ => .seq kind
  | .entries kind _ => .map kind

instance (s : Scratch) (k l : Key) : Decidable (s.SameChild k l) :=
  match s with
  | .items _ xs => decidable_of_iff
      ((k.slot? xs.length).isSome ∧ k.slot? xs.length = l.slot? xs.length)
      ⟨fun ⟨hk, hl⟩ => ⟨_, (Option.some_get hk).symm, hl ▸ (Option.some_get hk).symm⟩,
        fun ⟨_, hk, hl⟩ => ⟨by rw [hk]; rfl, hk.trans hl.symm⟩⟩
  | .entries _ _ => inferInstanceAs (Decidable (k.Same l))

section
variable {s s' : Scratch} {k l m : Key} {v c : Value}

theorem SameChild.symm (h : s.SameChild k l) : s.SameChild l k := by
  cases s with
  | items kind xs =>
    obtain ⟨i, hk, hl⟩ := h
    exact ⟨i, hl, hk⟩
  | entries kind es => exact Key.Same.symm h

theorem SameChild.trans (h : s.SameChild k l) (h' : s.SameChild l m) : s.SameChild k m := by
  cases s with
  | items kind xs =>
    obtain ⟨i, hk, hl⟩ := h
    obtain ⟨j, hl', hm⟩ := h'
    rw [hl] at hl'
    cases hl'
    exact ⟨i, hk, hm⟩
  | entries kind es => exact Key.Same.trans h h'

theorem child_eq_ok (h : s.child k = .ok c) : c = (s.child? k).getD .none := by
  cases s with
  | items kind xs =>
    simp only [child] at h
    split at h
    · next position hp =>
      cases h
      simp only [child?, Key.slot?, hp, Option.bind_some]
    · cases h
  | entries kind es => cases h; rfl

theorem assign_items_eq_ok {kind : SeqKind} {xs : List Value} :
    (items kind xs).assign k v = .ok s' ↔
      ∃ i, k.slot? xs.length = some i ∧ s' = .items kind (xs.set i v) := by
  simp only [assign, Key.slot?]
  split
  · next hp => simp [hp]
  · next position hp =>
    rw [hp, Option.bind_some]
    split
    · next i hi => simp [hi, eq_comm]
    · next hi => simp [hi]

theorem slot?_lt {size i : Nat} (h : k.slot? size = some i) : i < size := by
  obtain ⟨position, -, hi⟩ := Option.bind_eq_some_iff.1 h
  exact Position.index?_lt hi

theorem sameChild_assign (h : s.assign k v = .ok s') : s'.SameChild l m ↔ s.SameChild l m := by
  cases s with
  | items kind xs =>
    obtain ⟨i, -, rfl⟩ := assign_items_eq_ok.1 h
    simp only [SameChild, List.length_set]
  | entries kind es => cases h; exact Iff.rfl

theorem kind_assign (h : s.assign k v = .ok s') : s'.kind = s.kind := by
  cases s with
  | items kind xs =>
    obtain ⟨i, -, rfl⟩ := assign_items_eq_ok.1 h
    rfl
  | entries kind es => cases h; rfl

theorem sameChild_of_assign (h : s.assign k v = .ok s') : s.SameChild k k := by
  cases s with
  | items kind xs =>
    obtain ⟨i, hi, -⟩ := assign_items_eq_ok.1 h
    exact ⟨i, hi, hi⟩
  | entries kind es => exact Key.Same.refl k

theorem child?_assign_same (h : s.assign k v = .ok s') (hl : s.SameChild l k) :
    s'.child? l = some v := by
  cases s with
  | items kind xs =>
    obtain ⟨i, hi, rfl⟩ := assign_items_eq_ok.1 h
    obtain ⟨j, hj, hk⟩ := hl
    rw [hi] at hk
    cases hk
    simp only [child?, List.length_set, hj, Option.bind_some]
    exact List.getElem?_set_self (slot?_lt hi)
  | entries kind es =>
    cases h
    exact (Entries.find?_congr hl).trans Entries.find?_put_same

theorem child?_assign_of_not_same (h : s.assign k v = .ok s') (hl : ¬ s.SameChild l k) :
    s'.child? l = s.child? l := by
  cases s with
  | items kind xs =>
    obtain ⟨i, hi, rfl⟩ := assign_items_eq_ok.1 h
    simp only [child?, List.length_set]
    rcases hj : l.slot? xs.length with - | j
    · rfl
    · have hne : i ≠ j := fun hij => hl ⟨i, hij ▸ hj, hi⟩
      exact List.getElem?_set_ne hne
  | entries kind es =>
    cases h
    exact Entries.find?_put_of_not_same fun h' => hl h'.symm

theorem child?_congr (h : s.SameChild k l) : s.child? k = s.child? l := by
  cases s with
  | items kind xs =>
    obtain ⟨i, hk, hl⟩ := h
    simp only [child?, hk, hl]
  | entries kind es => exact Entries.find?_congr h

end

def All (P : Value → Prop) : Scratch → Prop
  | .items _ xs => ∀ x ∈ xs, P x
  | .entries _ es => ∀ e ∈ es, P e.2

section
variable {P : Value → Prop} {s s' : Scratch} {k : Key} {v c : Value}

theorem All.child? (h : s.All P) (hc : s.child? k = some c) : P c := by
  cases s with
  | items kind xs =>
    obtain ⟨i, -, hi⟩ := Option.bind_eq_some_iff.1 hc
    exact h c (List.mem_of_getElem? hi)
  | entries kind es =>
    obtain ⟨e, he, rfl⟩ := Entries.mem_of_find? hc
    exact h e he

theorem All.child?_getD (h : s.All P) (hnone : P .none) : P ((s.child? k).getD .none) := by
  rcases hc : s.child? k with - | c
  · exact hnone
  · exact h.child? hc

theorem All.assign (h : s.All P) (hv : P v) (hs : s.assign k v = .ok s') : s'.All P := by
  cases s with
  | items kind xs =>
    obtain ⟨i, -, rfl⟩ := assign_items_eq_ok.1 hs
    intro x hx
    rcases List.mem_or_eq_of_mem_set hx with hx | rfl
    · exact h x hx
    · exact hv
  | entries kind es =>
    cases hs
    exact Entries.forall_put h hv

end

end Scratch

namespace Value

/-- The level of a value that an editable copy shows. What is no container counts as an empty
mapping. -/
def level : Value → Scratch
  | .seq _ _ xs | .deque _ xs => .items .list xs
  | .range _ r => .items .list (r.terms.map .int)
  | .map _ kind es => .entries kind.editable es
  | _ => .entries .plain []

/-- The child at a key: by key in a mapping, by position in a sequence. -/
def child? (k : Key) (v : Value) : Option Value := v.level.child? k

def SameChild (v : Value) (k l : Key) : Prop := v.level.SameChild k l

instance (v : Value) (k l : Key) : Decidable (v.SameChild k l) :=
  inferInstanceAs (Decidable (v.level.SameChild k l))

/-- The value at the end of a path of keys. -/
def at? : List Key → Value → Option Value
  | [], v => some v
  | k :: path, v => (v.child? k).bind (at? path)

end Value

namespace Value

/-- The kind that a sequence gets when it is rebuilt for a value. -/
def seqKindOf (kind : SeqKind) : Value → SeqKind
  | .seq _ (.tuple .point) _ => .tuple .point
  | .seq _ (.tuple _) _ => .tuple .plain
  | _ => kind

/-- The kind that a mapping gets when it is rebuilt for a value. -/
def mapKindOf (kind : MapKind) : Value → MapKind
  | .map _ .readOnly _ => .readOnly
  | _ => kind

end Value

namespace Scratch
variable {s : Scratch} {v r : Value} {t t' : Trace}

theorem ofContainer_eq_ok [Machine] (h : ofContainer v = .ok s) : s = v.level := by
  cases v with
  | range id r =>
    simp only [ofContainer, Range.items] at h
    rcases hr : Storage.reserveItems r.length with fault | u <;> rw [hr] at h <;> cases h
    rfl
  | _ => cases h; try rfl

theorem rebuild_items (kind : SeqKind) (xs : List Value) (v : Value) :
    (items kind xs).rebuild v =
      if v.kind = .seq (.tuple .point) ∧ xs.length ≠ 2 then throw (.fieldCount xs.length)
      else do return .seq (← Update.fresh) (v.seqKindOf kind) xs := by
  cases v with
  | seq id k ys =>
    rcases k with - | - | (- | - | -)
    case tuple.point =>
      by_cases hlen : xs.length = 2 <;> simp [rebuild, Value.kind, Value.seqKindOf, hlen]
    all_goals rfl
  | _ => rfl

theorem rebuild_entries (kind : MapKind) (es : Entries Value) (v : Value) :
    (entries kind es).rebuild v = do return .map (← Update.fresh) (v.mapKindOf kind) es := by
  cases v with
  | map id k es' => cases k <;> rfl
  | _ => rfl

theorem rebuild_items_eq_ok {kind : SeqKind} {xs : List Value}
    (h : (items kind xs).rebuild v t = (.ok r, t')) :
    r = .seq t.next (v.seqKindOf kind) xs ∧ t' = { t with next := t.next + 1 } := by
  rw [rebuild_items] at h
  split at h
  · exact absurd h Update.throw_eq_ok.1
  · simp only [Update.bind_eq_ok, Update.fresh_eq_ok, Update.pure_eq_ok] at h
    obtain ⟨id, t₁, ⟨rfl, rfl⟩, rfl, rfl⟩ := h
    exact ⟨rfl, rfl⟩

theorem rebuild_entries_eq_ok {kind : MapKind} {es : Entries Value}
    (h : (entries kind es).rebuild v t = (.ok r, t')) :
    r = .map t.next (v.mapKindOf kind) es ∧ t' = { t with next := t.next + 1 } := by
  rw [rebuild_entries] at h
  simp only [Update.bind_eq_ok, Update.fresh_eq_ok, Update.pure_eq_ok] at h
  obtain ⟨id, t₁, ⟨rfl, rfl⟩, rfl, rfl⟩ := h
  exact ⟨rfl, rfl⟩

theorem child?_rebuild {k : Key} (h : s.rebuild v t = (.ok r, t')) : r.child? k = s.child? k := by
  cases s with
  | items kind xs =>
    obtain ⟨rfl, -⟩ := rebuild_items_eq_ok h
    rfl
  | entries kind es =>
    obtain ⟨rfl, -⟩ := rebuild_entries_eq_ok h
    rfl

end Scratch

end Amend
