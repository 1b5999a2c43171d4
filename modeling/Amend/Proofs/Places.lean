import Amend.Proofs.Along
import Amend.Proofs.Kinds

/-!
# A value with one place replaced

`Value.replaceAt` puts a value in the place at the end of a path and keeps all else: kinds, order,
keys. Main statement (`Node.eval_along_of_at?`): a node along a path does just that, where the path
is there and the containers that it leads into are of kinds that entering does not change
(`Kind.isStable`).
-/

namespace Amend

/-- The kinds of containers that stay what they are when they are entered. -/
def Kind.isStable (kind : Kind) : Bool := kind.isKept && kind ≠ .seq .row

namespace Value

/-- Every container that a path leads into is of a stable kind. -/
def StableAlong : List Key → Value → Prop
  | [], _ => True
  | k :: path, v => v.kind.isStable ∧ ∀ c, v.child? k = some c → StableAlong path c

/-- A container with another child at a key. -/
def setChild : Value → Key → Value → Value
  | .seq id kind xs, k, c =>
    match k.slot? xs.length with
    | some i => .seq id kind (xs.set i c)
    | .none => .seq id kind xs
  | .map id kind es, k, c => .map id kind (Entries.put k c es)
  | v, _, _ => v

/-- A value with another one in the place at the end of a path. -/
def replaceAt : Value → List Key → Value → Value
  | _, [], w => w
  | v, k :: path, w =>
    match v.child? k with
    | some c => v.setChild k (c.replaceAt path w)
    | .none => v

variable {v w c r : Value} {k : Key} {path : List Key} {s s' : Scratch}

theorem isContainer_of_isStable (h : v.kind.isStable) : v.isContainer :=
  isContainer_of_isKept (Bool.and_eq_true_iff.1 h).1

theorem shape_setChild : (v.setChild k c).shape = v.shape.setChild k c.shape := by
  cases v with
  | seq id kind xs =>
    rw [shape_seq]
    simp only [setChild, List.length_map]
    rcases k.slot? xs.length with - | i
    · exact shape_seq
    · exact shape_seq.trans (congrArg _ List.map_set)
  | map id kind es =>
    rw [shape_map]
    exact shape_map.trans (congrArg _ Entries.put_mapValues.symm)
  | _ => rfl

theorem shape_replaceAt : (v.replaceAt path w).shape = v.shape.replaceAt path w.shape := by
  induction path generalizing v with
  | nil => rfl
  | cons k path ih =>
    rw [replaceAt, replaceAt, child?_shape]
    rcases v.child? k with - | c
    · rfl
    · exact shape_setChild.trans (congrArg _ ih)

theorem setChild_child? (h : v.child? k = some c) : v.setChild k c = v := by
  cases v with
  | seq id kind xs =>
    obtain ⟨i, hi, hc⟩ := Option.bind_eq_some_iff.1 h
    obtain ⟨hlt, rfl⟩ := List.getElem?_eq_some_iff.1 hc
    simp only [setChild, hi, List.set_getElem_self]
  | map id kind es => rw [setChild, Entries.put_of_find? h]
  | _ => rfl

/-- Putting back what stands in a place changes nothing. -/
theorem replaceAt_at? (h : v.at? path = some c) : v.replaceAt path c = v := by
  induction path generalizing v with
  | nil => cases h; rfl
  | cons k path ih =>
    obtain ⟨d, hd, hc⟩ := Option.bind_eq_some_iff.1 h
    simp only [replaceAt, hd, ih hc]
    exact setChild_child? hd

theorem seqKindOf_of_isStable {id : Ident} {kind : SeqKind} {xs : List Value}
    (h : (Kind.seq kind).isStable) : (Value.seq id kind xs).seqKindOf .list = kind := by
  rcases kind with - | - | (- | - | -) <;> first | rfl | cases h

theorem mapKindOf_of_isStable {id : Ident} {kind : MapKind} {es : Entries Value}
    (h : (Kind.map kind).isStable) :
    (Value.map id kind es).mapKindOf kind.editable = kind := by
  cases kind <;> first | rfl | cases h

/-- The container that its level is packed into. -/
theorem eq_of_pack_level (hv : v.kind.isStable) (h : v.shape.level.pack v.shape = some r) :
    r = v.shape := by
  cases v with
  | seq id kind xs =>
    rw [shape_seq] at h ⊢
    simp only [level, Scratch.pack] at h
    split at h <;> cases h
    rw [seqKindOf_of_isStable hv]
  | map id kind es =>
    rw [shape_map] at h ⊢
    cases h
    rw [mapKindOf_of_isStable hv]
  | _ => cases hv

/-- The container that its level is packed into after one child was written. -/
theorem eq_setChild_of_pack (hv : v.kind.isStable) (hs : v.shape.level.assign k c = .ok s)
    (h : s.pack v.shape = some r) : r = v.shape.setChild k c := by
  cases v with
  | seq id kind xs =>
    rw [shape_seq] at hs h ⊢
    obtain ⟨i, hi, rfl⟩ := Scratch.assign_items_eq_ok.1 hs
    simp only [Scratch.pack] at h
    split at h <;> cases h
    simp only [setChild, hi]
    rw [seqKindOf_of_isStable hv]
  | map id kind es =>
    rw [shape_map] at hs h ⊢
    cases hs
    cases h
    rw [mapKindOf_of_isStable hv, setChild]
  | _ => cases hv

end Value

/-- A node at the end of a path that is there replaces what stands in that place, and no more. -/
theorem Node.eval_along_of_at? [Host] {n : Node} {path : List Key} {v c r : Value}
    (hat : v.at? path = some c) (hv : v.StableAlong path)
    (h : (n.along path).eval v.shape = some r) :
    ∃ w, n.eval (if path = [] then c.shape else n.given c.shape) = some w ∧
      r = v.shape.replaceAt path w := by
  induction path generalizing v r with
  | nil =>
    cases hat
    exact ⟨r, h, rfl⟩
  | cons k path ih =>
    obtain ⟨hkind, hrest⟩ := hv
    obtain ⟨d, hd, hat⟩ := Option.bind_eq_some_iff.1 hat
    rw [along_cons] at h
    obtain ⟨s, hs, d', hd', a, ha, s', hs', hr⟩ := eval_enter_singleton_eq_some.1 h
    obtain rfl := Scratch.ofContainer_eq_ok hs
    have hchild : v.shape.child? k = some d.shape := by
      rw [Value.child?_shape, hd]
      rfl
    obtain rfl : d' = d.shape := (Scratch.child_eq_ok hd').trans (congrArg (·.getD .none) hchild)
    have hr' := Value.eq_setChild_of_pack hkind hs' hr
    cases path with
    | nil =>
      cases hat
      exact ⟨a, ha, by simp only [Value.replaceAt, hchild, hr']⟩
    | cons l path =>
      -- what the path leads on into is a container, so it is taken as it is
      have hcont := Value.isContainer_of_isStable (hrest d hd).1
      rw [given_of_isContainer (Value.isContainer_shape.trans hcont)] at ha
      obtain ⟨w, hw, rfl⟩ := ih hat (hrest d hd) ha
      refine ⟨w, hw, ?_⟩
      rw [Value.replaceAt, hchild]
      exact hr'

end Amend
