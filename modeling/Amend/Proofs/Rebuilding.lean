import Amend.Proofs.Mappings
import Amend.Proofs.Obstacles

/-!
# Containers rebuilt along a path

`Value.RebuiltAlong` says that the levels of two values along a path differ in nothing but the
children that the path leads to. Rebuilding twice is rebuilding once (`RebuiltAlong.trans`), what a
path leads to that parts from the rebuilt one is the very object that it was
(`RebuiltAlong.at?_of_partsFrom`), and mappings keep their keys (`RebuiltAlong.keys`). Main
statement (`Node.along_rebuilds`): a node that succeeds on the container at the end of a path
succeeds along it, and rebuilds no more than the containers on the path.
-/

namespace Amend

namespace Scratch
variable {s s' : Scratch} {k : Key} {c v r : Value} {t t' : Trace}

theorem child_of_child? (h : s.child? k = some c) : s.child k = .ok c := by
  cases s with
  | items kind xs =>
    obtain ⟨i, hi, hc⟩ := Option.bind_eq_some_iff.1 h
    obtain ⟨position, hp, hindex⟩ := Option.bind_eq_some_iff.1 hi
    simp only [child, hp, hindex, Option.bind_some, hc, Option.getD_some]
  | entries kind es =>
    change Entries.find? k es = some c at h
    rw [child, h, Option.getD_some]

/-- What is there can be written. -/
theorem assign_of_child? (h : s.child? k = some c) (a : Value) : ∃ s', s.assign k a = .ok s' := by
  cases s with
  | items kind xs =>
    obtain ⟨i, hi, -⟩ := Option.bind_eq_some_iff.1 h
    exact ⟨_, assign_items_eq_ok.2 ⟨i, hi, rfl⟩⟩
  | entries kind es => exact ⟨_, rfl⟩

theorem assign_child? (h : s.child? k = some c) : s.assign k c = .ok s := by
  cases s with
  | items kind xs =>
    obtain ⟨i, hi, hc⟩ := Option.bind_eq_some_iff.1 h
    obtain ⟨hlt, rfl⟩ := List.getElem?_eq_some_iff.1 hc
    exact assign_items_eq_ok.2 ⟨i, hi, by rw [List.set_getElem_self]⟩
  | entries kind es =>
    change Entries.find? k es = some c at h
    rw [assign, Entries.put_of_find? h]

/-- A container shows the copy that it was rebuilt from, and is a point of two fields if it is
one. -/
theorem level_rebuild (hs : s.kind = v.level.kind) (h : s.rebuild v t = (.ok r, t')) :
    r.level = s ∧ r.isFilled := by
  cases s with
  | items kind xs =>
    obtain ⟨rfl, -⟩ := rebuild_items_eq_ok h
    rw [rebuild_items] at h
    split at h
    · exact absurd h Update.throw_eq_ok.1
    next hpoint =>
      cases v with
      | seq id kind' ys =>
        cases hs
        refine ⟨rfl, ?_⟩
        rcases kind' with - | - | (- | - | -)
        case tuple.point =>
          have hlen : xs.length = 2 := by simpa [Value.kind] using hpoint
          exact decide_eq_true hlen
        all_goals rfl
      | deque | range => cases hs; exact ⟨rfl, rfl⟩
      | _ => cases hs
  | entries kind es =>
    obtain ⟨rfl, -⟩ := rebuild_entries_eq_ok h
    cases v with
    | map id kind' es' => cases kind' <;> cases hs <;> exact ⟨rfl, rfl⟩
    | seq | deque | range => cases hs
    | _ => cases hs; exact ⟨rfl, rfl⟩

/-- The keys of a level, none for a sequence. -/
def keys : Scratch → List Key
  | .items _ _ => []
  | .entries _ es => es.keys

theorem keys_assign (hc : s.child? k = some c) (h : s.assign k v = .ok s') : s'.keys = s.keys := by
  cases s with
  | items kind xs =>
    obtain ⟨i, -, rfl⟩ := assign_items_eq_ok.1 h
    rfl
  | entries kind es =>
    cases h
    have hhas : Entries.has k es := by
      change (Entries.find? k es).isSome
      change Entries.find? k es = some c at hc
      rw [hc]
      rfl
    exact Entries.keys_put_of_has hhas

theorem keys_level (v : Value) : v.level.keys = v.entries.keys := by
  cases v <;> rfl

end Scratch

namespace Value

/-- Whether the levels of two values along a path differ in nothing but the children on the path. -/
inductive RebuiltAlong : List Key → Value → Value → Prop
  | here (v w : Value) : RebuiltAlong [] v w
  | enter {k : Key} {path : List Key} {v w c d : Value} (child : v.child? k = some c)
      (level : v.level.assign k d = .ok w.level) (rest : RebuiltAlong path c d) :
      RebuiltAlong (k :: path) v w

/-- Whether a path goes on to another child than a first one before either of them ends. -/
def PartsFrom : List Key → List Key → Value → Prop
  | k :: path, l :: other, v =>
    ¬ v.SameChild l k ∨ ∃ c, v.child? k = some c ∧ c.PartsFrom path other
  | _, _, _ => False

variable {u v w c : Value} {k : Key} {path : List Key}

theorem isContainer_of_child? (h : v.child? k = some c) : v.isContainer := by
  rcases hv : v.isContainer with - | -
  · rw [child?, level_eq_empty hv] at h
    cases h
  · rfl

theorem isContainer_of_at? (h : v.at? path = some c) : path = [] ∨ v.isContainer := by
  cases path with
  | nil => exact .inl rfl
  | cons k path =>
    obtain ⟨d, hd, -⟩ := Option.bind_eq_some_iff.1 h
    exact .inr (isContainer_of_child? hd)

/-- The items of a progression are no containers, so a value that holds one can be opened. -/
theorem openObstacle?_of_child? [Machine] (h : v.child? k = some c) (hc : c.isContainer) :
    v.openObstacle? = Option.none := by
  have hv := isContainer_of_child? h
  cases v with
  | range id r =>
    obtain ⟨i, -, hi⟩ := Option.bind_eq_some_iff.1 h
    obtain ⟨n, -, rfl⟩ := List.mem_map.1 (List.mem_of_getElem? hi)
    cases hc
  | seq | deque | map => rfl
  | _ => cases hv

theorem isFilledAlong_cons (h : v.child? k = some c) (hc : path = [] ∨ c.isContainer) :
    (v.isFilledAlong (k :: path)) = (v.isFilled && c.isFilledAlong path) := by
  rw [isFilledAlong]
  rcases hc with rfl | hc
  · rfl
  · have hentered : v.entered k = c := by
      simp only [entered, h, Option.getD_some, hc, true_or, if_true]
    rw [hentered]

namespace RebuiltAlong

theorem refl (h : v.at? path = some c) : RebuiltAlong path v v := by
  induction path generalizing v with
  | nil => exact .here v v
  | cons k path ih =>
    obtain ⟨d, hd, h⟩ := Option.bind_eq_some_iff.1 h
    exact .enter hd (Scratch.assign_child? hd) (ih h)

theorem trans (h : RebuiltAlong path u v) (h' : RebuiltAlong path v w) : RebuiltAlong path u w := by
  induction h generalizing w with
  | here u v => exact .here u w
  | enter child level rest ih =>
    cases h' with
    | enter child' level' rest' =>
      have hsame := Scratch.sameChild_of_assign level
      -- the second rebuilding starts from the child that the first one has left
      obtain rfl := Option.some.inj ((Scratch.child?_assign_same level hsame).symm.trans child')
      rw [Scratch.assign_assign level hsame] at level'
      exact .enter child level' (ih rest')

/-- What another path leads to is the very object that it was. -/
theorem at?_of_partsFrom {other : List Key} (h : RebuiltAlong path v w)
    (hparts : v.PartsFrom path other) : w.at? other = v.at? other := by
  induction h generalizing other with
  | here v w => exact hparts.elim
  | @enter k path v w c d child level rest ih =>
    cases other with
    | nil => exact hparts.elim
    | cons l other =>
      by_cases hl : v.SameChild l k
      · obtain hne | ⟨c', hc', hparts⟩ := hparts
        · exact absurd hl hne
        obtain rfl := Option.some.inj (child.symm.trans hc')
        have hw : w.child? l = some d := Scratch.child?_assign_same level hl
        have hv : v.child? l = some c := (Scratch.child?_congr hl).trans child
        simp only [at?, hw, hv, Option.bind_some]
        exact ih hparts
      · have hw : w.child? l = v.child? l := Scratch.child?_assign_of_not_same level hl
        simp only [at?, hw]

/-- Mappings on the way to the end of the path keep their keys, the very objects. -/
theorem keys {before rest : List Key} (h : RebuiltAlong (before ++ k :: rest) v w) :
    ∃ m m', v.at? before = some m ∧ w.at? before = some m' ∧ m'.entries.keys = m.entries.keys := by
  induction before generalizing v w with
  | nil =>
    cases h with
    | enter child level _ =>
      refine ⟨v, w, rfl, rfl, ?_⟩
      rw [← Scratch.keys_level, ← Scratch.keys_level]
      exact Scratch.keys_assign child level
  | cons l before ih =>
    cases h with
    | enter child level inner =>
      obtain ⟨m, m', hm, hm', hkeys⟩ := ih inner
      have hw := Scratch.child?_assign_same level (Scratch.sameChild_of_assign level)
      refine ⟨m, m', ?_, ?_, hkeys⟩
      · rw [at?, child, Option.bind_some, hm]
      · rw [at?, child?, hw, Option.bind_some, hm']

end RebuiltAlong

end Value

namespace Node
open Update
variable [Host] {n : Node} {k : Key} {path : List Key} {v c q : Value} {P : Value → Prop}

/-- A node that succeeds on the child at a key succeeds below that key. -/
theorem perform_enter_of_child? (hc : v.child? k = some c) (hcont : c.isContainer)
    (hv : v.isFilled) (hopen : v.openObstacle? = none)
    (hn : ∀ t, ∃ a t', n.perform c t = (.ok a, t') ∧ P a) (t : Trace) :
    ∃ r t' a, (enter [(k, n)]).perform v t = (.ok r, t') ∧ v.level.assign k a = .ok r.level ∧
      r.isFilled ∧ P a := by
  obtain ⟨_, t₁, hann, -⟩ := (n.announce_comesTo (some k)).exists_run t
  obtain ⟨a, t₂, ha, hP⟩ := hn t₁
  obtain ⟨s, hs⟩ := Scratch.assign_of_child? hc a
  obtain ⟨r, t', hreb, -⟩ := (Scratch.rebuild_matches_pure hv hs).comesTo_of_pure.exists_run t₂
  obtain ⟨hlevel, hfilled⟩ := Scratch.level_rebuild (Scratch.kind_assign hs) hreb
  refine ⟨r, t', a, ?_, hlevel ▸ hs, hfilled, hP⟩
  have hopened : Scratch.ofContainer v = .ok v.level := by rw [Scratch.ofContainer_eq, hopen]
  rw [perform_enter_singleton, hopened, lift_ok_bind, Scratch.child_of_child? hc, lift_ok_bind,
    bind_of_ok hann, performBelow_of_taken (.inl hcont), bind_of_ok ha, hs, lift_ok_bind]
  exact hreb

/-- A node that succeeds on a container at the end of a path succeeds along the path, and rebuilds
the containers on it. -/
theorem along_rebuilds (hat : v.at? path = some q) (hq : q.isContainer)
    (hfilled : v.isFilledAlong path) (hend : ∀ t, ∃ x t', n.perform q t = (.ok x, t') ∧ P x)
    (t : Trace) :
    ∃ r t', (n.along path).perform v t = (.ok r, t') ∧ v.RebuiltAlong path r ∧
      r.isFilledAlong path ∧ ∃ x, r.at? path = some x ∧ P x := by
  induction path generalizing v t with
  | nil =>
    cases hat
    obtain ⟨x, t', hx, hP⟩ := hend t
    exact ⟨x, t', hx, .here _ _, rfl, x, rfl, hP⟩
  | cons k path ih =>
    obtain ⟨c, hc, hat⟩ := Option.bind_eq_some_iff.1 hat
    have hcont : c.isContainer := by
      rcases Value.isContainer_of_at? hat with rfl | hcont
      · cases hat
        exact hq
      · exact hcont
    rw [Value.isFilledAlong_cons hc (.inr hcont)] at hfilled
    obtain ⟨hv, hrest⟩ := Bool.and_eq_true_iff.1 hfilled
    have hopen : v.openObstacle? = none := Value.openObstacle?_of_child? hc hcont
    obtain ⟨r, t', a, hr, hlevel, hr', hrebuilt, hfilled', x, hx, hP⟩ :=
      perform_enter_of_child? hc hcont hv hopen (ih hat hrest) t
    have hchild : r.child? k = some a :=
      Scratch.child?_assign_same hlevel (Scratch.sameChild_of_assign hlevel)
    refine ⟨r, t', hr, .enter hc hlevel hrebuilt, ?_, x, ?_, hP⟩
    · rw [Value.isFilledAlong_cons hchild (Value.isContainer_of_at? hx), hr', hfilled']
      rfl
    · rw [Value.at?, hchild, Option.bind_some, hx]

end Node

end Amend
