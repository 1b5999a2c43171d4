import Mathlib.Data.List.Forall2
import Amend.Proofs.Along

/-!
# Updates at diverging paths

Two paths that lead to one container and from there to different children of it. Main statement
(`applyAt_comm`): updates at the ends of the two succeed in one order where they succeed in the
other, and the results are equal but for two entries that are new in one mapping, which stand in the
order in which they were made (`Value.SameButOrder`).
-/

namespace Amend

namespace Entries
variable {α : Type} {k l : Key}

/-- A key and one that stands for it put an entry in the same place. -/
theorem put_eq_append (h : k.Same l) (es : Entries α) :
    ∃ k' l' es₁ es₂, k.Same k' ∧ k.Same l' ∧ (∀ a, put k a es = es₁ ++ (k', a) :: es₂) ∧
      ∀ a, put l a es = es₁ ++ (l', a) :: es₂ := by
  induction es with
  | nil => exact ⟨k, l, [], [], .refl k, h, fun a => rfl, fun a => rfl⟩
  | cons e es ih =>
    obtain ⟨y, c⟩ := e
    by_cases hk : y.Same k
    · refine ⟨y, y, [], es, hk.symm, hk.symm, fun a => ?_, fun a => ?_⟩
      · rw [put, if_pos hk]
        rfl
      · rw [put, if_pos (hk.trans h)]
        rfl
    · have hl : ¬ y.Same l := fun hl => hk (hl.trans h.symm)
      obtain ⟨k', l', es₁, es₂, hk', hl', hputk, hputl⟩ := ih
      refine ⟨k', l', (y, c) :: es₁, es₂, hk', hl', fun a => ?_, fun a => ?_⟩
      · rw [put, if_neg hk, hputk]
        rfl
      · rw [put, if_neg hl, hputl]
        rfl

end Entries

/-- Keys that stand for one another address one place, if they address any. -/
theorem Key.slot?_eq_of_same {k l : Key} {size i j : Nat} (h : k.Same l)
    (hi : k.slot? size = some i) (hj : l.slot? size = some j) : i = j := by
  obtain ⟨n, hn, hi⟩ := Option.bind_eq_some_iff.1 hi
  obtain ⟨m, hm, hj⟩ := Option.bind_eq_some_iff.1 hj
  obtain rfl : n = m := by
    cases k <;> cases hn <;> cases l <;> cases hm <;> simpa [Key.Same, Key.signature] using h
  exact Option.some.inj (hi.symm.trans hj)

namespace Scratch
variable {s s' s₁ s₂ : Scratch} {k l : Key} {a b v : Value}

theorem sameChild_shape : s.shape.SameChild k l ↔ s.SameChild k l := by
  cases s with
  | items kind xs => simp only [shape, SameChild, List.length_map]
  | entries kind es => exact Iff.rfl

theorem child_eq_of_sameChild (h : s.SameChild k k) :
    s.child k = .ok ((s.child? k).getD .none) := by
  cases s with
  | items kind xs =>
    obtain ⟨i, hi, -⟩ := h
    obtain ⟨position, hp, hi⟩ := Option.bind_eq_some_iff.1 hi
    simp only [child, child?, Key.slot?, hp, Option.bind_some]
  | entries kind es => rfl

theorem child_congr (h : s.SameChild k l) : s.child k = s.child l := by
  rw [child_eq_of_sameChild (h.trans h.symm), child_eq_of_sameChild (h.symm.trans h),
    child?_congr h]

theorem child_assign_of_not_same (h : s.assign k v = .ok s') (hl : ¬ s.SameChild l k) :
    s'.child l = s.child l := by
  have hchild := child?_assign_of_not_same h hl
  cases s with
  | items kind xs =>
    obtain ⟨i, -, rfl⟩ := assign_items_eq_ok.1 h
    simp only [child?, Key.slot?, List.length_set] at hchild
    simp only [child, List.length_set]
    rcases hp : l.position? with - | position
    · rfl
    · simp only [hp, Option.bind_some] at hchild
      simp only [hchild]
  | entries kind es =>
    cases h
    exact congrArg (fun c => Except.ok (Option.getD c .none)) hchild

/-- Keys that stand for one another address one child, where both can be written. -/
theorem sameChild_of_same (h : k.Same l) (hk : s.SameChild k k) (hl : s.SameChild l l) :
    s.SameChild k l := by
  cases s with
  | items kind xs =>
    obtain ⟨i, hi, -⟩ := hk
    obtain ⟨j, hj, -⟩ := hl
    obtain rfl := Key.slot?_eq_of_same h hi hj
    exact ⟨i, hi, hj⟩
  | entries kind es => exact h

/-- Two different children may be written in either order. -/
theorem assign_comm (hkl : ¬ s.SameChild k l) (hk : s.assign k a = .ok s₁)
    (hl : s₁.assign l b = .ok s₂) :
    ∃ s₁' s₂', s.assign l b = .ok s₁' ∧ s₁'.assign k a = .ok s₂' ∧
      (s₂ = s₂' ∨ s.child? k = none ∧ s.child? l = none ∧ ∃ kind es,
        s₂ = .entries kind (es ++ [(k, a), (l, b)]) ∧
          s₂' = .entries kind (es ++ [(l, b), (k, a)])) := by
  cases s with
  | items kind xs =>
    obtain ⟨i, hi, rfl⟩ := assign_items_eq_ok.1 hk
    obtain ⟨j, hj, rfl⟩ := assign_items_eq_ok.1 hl
    rw [List.length_set] at hj
    have hij : i ≠ j := fun hij => hkl ⟨i, hi, hij ▸ hj⟩
    refine ⟨_, _, assign_items_eq_ok.2 ⟨j, hj, rfl⟩,
      assign_items_eq_ok.2 ⟨i, by rwa [List.length_set], rfl⟩, .inl ?_⟩
    rw [List.set_comm _ _ hij]
  | entries kind es =>
    cases hk
    cases hl
    refine ⟨_, _, rfl, rfl, ?_⟩
    rcases Entries.put_comm hkl es (a := a) (b := b) with heq | ⟨hk, hl, hputk, hputl⟩
    · exact .inl (congrArg _ heq)
    · exact .inr ⟨hk, hl, kind, es, congrArg _ hputk, congrArg _ hputl⟩

end Scratch

namespace Value

/-- Equal values, but that at the end of a path the entries at two keys may stand in either order,
at the end of a mapping, if a source has neither of them there. Keys on the path may be other keys
that stand for them. -/
inductive SameButOrder (k l : Key) : List Key → Value → Value → Value → Prop
  | same (path : List Key) (source v : Value) : SameButOrder k l path source v v
  | swapped {source a b : Value} (kind : MapKind) (es : Entries Value)
      (hk : source.child? k = .none) (hl : source.child? l = .none) :
      SameButOrder k l [] source (.map 0 kind (es ++ [(k, a), (l, b)]))
        (.map 0 kind (es ++ [(l, b), (k, a)]))
  | item {source a b : Value} {x : Key} {path : List Key} {i : Nat} (kind : SeqKind)
      (xs : List Value) (hx : x.slot? xs.length = some i)
      (rest : SameButOrder k l path ((source.child? x).getD .none) a b) :
      SameButOrder k l (x :: path) source (.seq 0 kind (xs.set i a)) (.seq 0 kind (xs.set i b))
  | entry {source a b : Value} {x y y' : Key} {path : List Key} (kind : MapKind)
      (es es' : Entries Value) (hy : x.Same y) (hy' : x.Same y')
      (rest : SameButOrder k l path ((source.child? x).getD .none) a b) :
      SameButOrder k l (x :: path) source (.map 0 kind (es ++ (y, a) :: es'))
        (.map 0 kind (es ++ (y', b) :: es'))

variable {k l x x' : Key} {path : List Key} {v w a b r : Value} {s s₂ : Scratch}

theorem SameButOrder.congr (h : v.level = w.level) (hab : SameButOrder k l path v a b) :
    SameButOrder k l path w a b := by
  have hchild (x : Key) : v.child? x = w.child? x := congrArg (Scratch.child? x) h
  cases hab with
  | same => exact .same path w a
  | swapped kind es hk hl => exact .swapped kind es (hchild k ▸ hk) (hchild l ▸ hl)
  | item kind xs hx rest => exact .item kind xs hx (hchild _ ▸ rest)
  | entry kind es es' hy hy' rest => exact .entry kind es es' hy hy' (hchild _ ▸ rest)

/-- Containers that are packed after writing such values at one child are such values. -/
theorem SameButOrder.pack (hab : SameButOrder k l path ((v.child? x).getD .none) a b)
    (hx : x.Same x') (hsame : s.SameChild x x') (hs : s.assign x a = .ok s₂)
    (hr : s₂.pack w = some r) :
    ∃ s₂' r', s.assign x' b = .ok s₂' ∧ s₂'.pack w = some r' ∧
      SameButOrder k l (x :: path) v r r' := by
  cases s with
  | items kind xs =>
    obtain ⟨i, hi, hi'⟩ := hsame
    obtain ⟨j, hj, rfl⟩ := Scratch.assign_items_eq_ok.1 hs
    obtain rfl : i = j := Option.some.inj (hi.symm.trans hj)
    simp only [Scratch.pack, List.length_set] at hr
    split at hr
    · cases hr
    next hlen =>
      cases hr
      refine ⟨_, _, Scratch.assign_items_eq_ok.2 ⟨i, hi', rfl⟩, ?_, .item _ xs hi hab⟩
      simp only [Scratch.pack, List.length_set, if_neg hlen]
  | entries kind es =>
    cases hs
    cases hr
    obtain ⟨y, y', es₁, es₂, hy, hy', hput, hput'⟩ := Entries.put_eq_append hx es
    refine ⟨_, _, rfl, rfl, ?_⟩
    rw [hput, hput']
    exact .entry _ es₁ es₂ hy hy' hab

end Value

namespace Node
variable {n m : Node} {k l x x' : Key} {e e' : Key × Node} {pre pre' ps qs : List Key}
  {s s₂ : Scratch} {v r : Value}

theorem level_given (c : Value) : (n.given c).level = c.level := by
  unfold given
  split
  · rfl
  · next h =>
    simp only [Bool.or_eq_true, not_or, Bool.not_eq_true] at h
    exact (Value.level_eq_empty h.1.2).symm

theorem along_append_cons (n : Node) (k : Key) (pre ps : List Key) :
    ∃ e, n.along (pre ++ k :: ps) = .enter [e] := by
  cases pre with
  | nil => exact ⟨_, rfl⟩
  | cons x pre => exact ⟨_, rfl⟩

variable [Host]

theorem evalAll_cons_eq_some {ns : List (Key × Node)} :
    evalAll ((k, n) :: ns) s = some s₂ ↔ ∃ c, s.child k = .ok c ∧
      ∃ a, n.eval (n.given c) = some a ∧ ∃ s₁, s.assign k a = .ok s₁ ∧
        evalAll ns s₁ = some s₂ := by
  simp only [evalAll, Option.bind_eq_bind, Option.bind_eq_some_iff, Fault.toOption_eq_some]

/-- Two children are carried out in either order. -/
theorem evalAll_comm (hkl : ¬ s.SameChild k l) (h : evalAll [(k, n), (l, m)] s = some s₂) :
    ∃ s₂', evalAll [(l, m), (k, n)] s = some s₂' ∧
      (s₂ = s₂' ∨ s.child? k = none ∧ s.child? l = none ∧ ∃ kind es a b,
        s₂ = .entries kind (es ++ [(k, a), (l, b)]) ∧
          s₂' = .entries kind (es ++ [(l, b), (k, a)])) := by
  obtain ⟨c, hc, a, ha, s₁, hs₁, h⟩ := evalAll_cons_eq_some.1 h
  obtain ⟨d, hd, b, hb, _, hs₂, hnil⟩ := evalAll_cons_eq_some.1 h
  cases hnil
  obtain ⟨s₁', s₂', hs₁', hs₂', hor⟩ := Scratch.assign_comm hkl hs₁ hs₂
  rw [Scratch.child_assign_of_not_same hs₁ fun h => hkl h.symm] at hd
  have hc' : s₁'.child k = .ok c := by rw [Scratch.child_assign_of_not_same hs₁' hkl, hc]
  refine ⟨s₂', evalAll_cons_eq_some.2 ⟨d, hd, b, hb, s₁', hs₁', ?_⟩, ?_⟩
  · exact evalAll_cons_eq_some.2 ⟨c, hc', a, ha, s₂', hs₂', rfl⟩
  · rcases hor with rfl | ⟨hk, hl, kind, es, hs, hs'⟩
    · exact .inl rfl
    · exact .inr ⟨hk, hl, kind, es, a, b, hs, hs'⟩

/-- What stands below two keys for one child stands below one of them. -/
theorem evalAll_congr (h : s.SameChild x x') :
    evalAll [(x, n), (x', m)] s = evalAll [(x, n), (x, m)] s := by
  simp only [evalAll, Option.bind_eq_bind]
  congr 1
  funext c
  congr 1
  funext a
  rcases hs : s.assign x a with fault | s'
  · rfl
  have hsame : s'.SameChild x x' := (Scratch.sameChild_assign hs).2 h
  have hassign (b : Value) : s'.assign x' b = s'.assign x b := by
    rw [Scratch.assign_assign hs h, Scratch.assign_assign hs (Scratch.sameChild_of_assign hs)]
  simp only [Except.toOption, Option.bind_some, Scratch.child_congr hsame, hassign]

/-- Nodes below keys that stand for one another: what they make of the child, one after the other,
is written. -/
theorem evalAll_enter_pair (hx : x.Same x') :
    evalAll [(x, .enter [e]), (x', .enter [e'])] s = some s₂ ↔
      s.SameChild x x' ∧ ∃ c, s.child x = .ok c ∧
        ∃ r, evalEach [.enter [e], .enter [e']] (given c (.enter [e])) = some r ∧
          s.assign x r = .ok s₂ := by
  have hpair (h : s.SameChild x x') :
      evalAll [(x, .enter [e]), (x', .enter [e'])] s = some s₂ ↔ ∃ c, s.child x = .ok c ∧
        ∃ r, evalEach [.enter [e], .enter [e']] (given c (.enter [e])) = some r ∧
          s.assign x r = .ok s₂ := by
    rw [evalAll_congr h]
    have heach := evalAll_enterEach e [e'] x s
    simp only [List.map_cons, List.map_nil] at heach
    simp only [heach, Option.bind_eq_some_iff, Fault.toOption_eq_some]
  constructor
  · intro h
    obtain ⟨c, -, a, -, s₁, hs₁, hrest⟩ := evalAll_cons_eq_some.1 h
    obtain ⟨d, -, b, -, _, hs₂, -⟩ := evalAll_cons_eq_some.1 hrest
    have hx' := (Scratch.sameChild_assign hs₁).1 (Scratch.sameChild_of_assign hs₂)
    have hsame := Scratch.sameChild_of_same hx (Scratch.sameChild_of_assign hs₁) hx'
    exact ⟨hsame, (hpair hsame).1 h⟩
  · rintro ⟨hsame, h⟩
    exact (hpair hsame).2 h

theorem evalEach_enter_pair :
    evalEach [.enter [e], .enter [e']] v = some r ↔ ∃ s, Scratch.ofContainer v = .ok s ∧
      ∃ s₂, evalAll [e, e'] s = some s₂ ∧ s₂.pack v = some r := by
  have heach := evalEach_enterEach e [e'] v
  simp only [List.map_cons, List.map_nil] at heach
  simp only [heach, eval_enter_cons, Option.bind_eq_some_iff, Fault.toOption_eq_some]

/-- What two nodes come to along diverging paths, in either order. Of the two ways to write the
common part, which need not address the same places, one has to lead to the parting. -/
theorem evalEach_along_comm (hpre : List.Forall₂ Key.Same pre pre')
    (hkl : ¬ ((v.at? pre).getD .none).SameChild k l ∨ ¬ ((v.at? pre').getD .none).SameChild k l)
    (h : evalEach [n.along (pre ++ k :: ps), m.along (pre' ++ l :: qs)] v.shape = some r) :
    ∃ r', evalEach [m.along (pre' ++ l :: qs), n.along (pre ++ k :: ps)] v.shape = some r' ∧
      Value.SameButOrder k l pre v r r' := by
  induction hpre generalizing v r with
  | nil =>
    obtain ⟨s, hs, s₂, hall, hr⟩ := evalEach_enter_pair.1 h
    have hlevel : s = v.level.shape := by rw [Scratch.ofContainer_eq_ok hs, Value.level_shape]
    have hnot : ¬ s.SameChild k l := by
      rw [hlevel, Scratch.sameChild_shape]
      exact hkl.elim id id
    have hnone {x : Key} (hx : s.child? x = none) : v.child? x = none := by
      rw [hlevel, Scratch.child?_shape] at hx
      exact Option.map_eq_none_iff.1 hx
    obtain ⟨s₂', hall', hor⟩ := evalAll_comm hnot hall
    rcases hor with rfl | ⟨hk, hl, kind, es, a, b, rfl, rfl⟩
    · exact ⟨r, evalEach_enter_pair.2 ⟨s, hs, s₂, hall', hr⟩, .same _ _ _⟩
    · cases hr
      exact ⟨_, evalEach_enter_pair.2 ⟨s, hs, _, hall', rfl⟩, .swapped _ es (hnone hk) (hnone hl)⟩
  | @cons x x' pre pre' hx hpre ih =>
    obtain ⟨e, he⟩ := along_append_cons n k pre ps
    obtain ⟨e', he'⟩ := along_append_cons m l pre' qs
    rw [List.cons_append, List.cons_append, along_cons, along_cons, he, he'] at h ⊢
    rw [he, he'] at ih
    obtain ⟨s, hs, s₂, hall, hr⟩ := evalEach_enter_pair.1 h
    obtain ⟨hsame, c, hc, a, ha, hs₂⟩ := (evalAll_enter_pair hx).1 hall
    have hlevel : s = v.level.shape := by rw [Scratch.ofContainer_eq_ok hs, Value.level_shape]
    have hchild : v.child? x' = v.child? x := by
      rw [hlevel, Scratch.sameChild_shape] at hsame
      exact (Scratch.child?_congr hsame).symm
    -- what is entered below the key has the level of the child that the source has there
    let d := given ((v.child? x).getD .none) (.enter [e])
    have hd : d.level = ((v.child? x).getD .none).level := level_given _
    have hgiven : given c (.enter [e]) = d.shape := by
      rw [← given_shape, Scratch.child_eq_ok hc, Scratch.ofContainer_eq_ok hs]
      exact congrArg (given · _) (Value.child?_shape_getD v x)
    have hkl' : ¬ ((d.at? pre).getD .none).SameChild k l ∨
        ¬ ((d.at? pre').getD .none).SameChild k l := by
      rw [Value.at?_cons_getD, Value.at?_cons_getD, hchild] at hkl
      rwa [Value.SameChild, Value.SameChild, Value.level_at?_congr hd, Value.level_at?_congr hd]
    rw [hgiven] at ha
    obtain ⟨b, hb, hab⟩ := ih hkl' ha
    obtain ⟨s₂', r', hs₂', hr', hrel⟩ := (hab.congr hd).pack hx hsame hs₂ hr
    have hall' : evalAll [(x', .enter [e']), (x, .enter [e])] s = some s₂' := by
      refine (evalAll_enter_pair hx.symm).2 ⟨hsame.symm, c, ?_, b, ?_, hs₂'⟩
      · rw [← Scratch.child_congr hsame, hc]
      · exact (congrArg (evalEach _) hgiven).trans hb
    exact ⟨r', evalEach_enter_pair.2 ⟨s, hs, s₂', hall', hr'⟩, hrel⟩

end Node

section
open Update
variable [Host] {A B : Command} {source p q x y : Value} {pre pre' ps qs : List Key} {k l : Key}

/-- Updates at paths that part at two different children do the same in either order, where the
functions that they call are pure. -/
theorem applyAt_comm (hp : Key.ofValues (Path.keys p) = .ok (pre ++ k :: ps))
    (hq : Key.ofValues (Path.keys q) = .ok (pre' ++ l :: qs))
    (hps : ∀ key ∈ pre ++ k :: ps, key.IsPlain) (hqs : ∀ key ∈ pre' ++ l :: qs, key.IsPlain)
    (hpre : List.Forall₂ Key.Same pre pre')
    (hkl : ¬ ((source.at? pre).getD .none).SameChild k l)
    (hx : (Node.ofOperand A x).IsPure) (hy : (Node.ofOperand B y).IsPure) (next next' : Ident) :
    let one := ((applyAt A source p x >>= fun r => applyAt B r q y).exec next).1
    let other := ((applyAt B source q y >>= fun r => applyAt A r p x).exec next').1
    ((∃ r, one = .ok r) ↔ ∃ r, other = .ok r) ∧
      ∀ r r', one = .ok r → other = .ok r' →
        Value.SameButOrder k l pre source r.shape r'.shape := by
  intro one other
  have hone := applyAt_applyAt_comesTo A B source x y hp hq hps hqs hx hy
  have hother := applyAt_applyAt_comesTo B A source y x hq hp hqs hps hy hx
  refine ⟨⟨fun ⟨r, hr⟩ => ?_, fun ⟨r', hr'⟩ => ?_⟩, fun r r' hr hr' => ?_⟩
  · obtain ⟨w, hw, -⟩ := Node.evalEach_along_comm hpre (.inl hkl) (hone.of_ok hr)
    obtain ⟨r', hr', -⟩ := (hw ▸ hother).exists_ok ⟨next', []⟩
    exact ⟨r', hr'⟩
  · have hpre' : List.Forall₂ Key.Same pre' pre := (hpre.imp fun _ _ h => h.symm).flip
    have hlk : ¬ ((source.at? pre).getD .none).SameChild l k := fun h => hkl h.symm
    obtain ⟨w, hw, -⟩ := Node.evalEach_along_comm hpre' (.inr hlk) (hother.of_ok hr')
    obtain ⟨r, hr, -⟩ := (hw ▸ hone).exists_ok ⟨next, []⟩
    exact ⟨r, hr⟩
  · obtain ⟨w, hw, hrel⟩ := Node.evalEach_along_comm hpre (.inl hkl) (hone.of_ok hr)
    rw [hother.of_ok hr', Option.some.injEq] at hw
    rwa [hw]

end

attribute [local instance] Host.standard in
/-- Both entries are new in the mapping that either update makes for nothing, below one key in two
spellings. The one is what a function makes of nothing. -/
theorem applyAt_comm_new :
    let source := Value.map 0 .ordered [(.int 1, .none)]
    let p := Value.seq 1 .list [.bool true, .text "a"]
    let q := Value.seq 2 .list [.int 1, .text "b", .text "c"]
    let operand := Value.map 3 .plain [(.text "d", .int 6)]
    let f := Value.factory 4 .wrap .none
    let one := applyAt .invoke source p f >>= fun r => applyAt .merge r q operand
    let other := applyAt .merge source q operand >>= fun r => applyAt .invoke r p f
    Key.ofValues (Path.keys p) = .ok ([.bool true] ++ .text "a" :: []) ∧
      Key.ofValues (Path.keys q) = .ok ([.int 1] ++ .text "b" :: [.text "c"]) ∧
      (∀ key ∈ [Key.bool true, .text "a"], key.IsPlain) ∧
      (∀ key ∈ [Key.int 1, .text "b", .text "c"], key.IsPlain) ∧
      List.Forall₂ Key.Same [.bool true] [.int 1] ∧
      ¬ ((source.at? [.bool true]).getD .none).SameChild (.text "a") (.text "b") ∧
      ∃ r r', (one.exec 5).1 = .ok r ∧ (other.exec 5).1 = .ok r' ∧
        Value.SameButOrder (.text "a") (.text "b") [.bool true] source r.shape r'.shape := by
  intro source p q operand f one other
  have hp : Key.ofValues (Path.keys p) = .ok ([.bool true] ++ .text "a" :: []) := rfl
  have hq : Key.ofValues (Path.keys q) = .ok ([.int 1] ++ .text "b" :: [.text "c"]) := rfl
  have hps : ∀ key ∈ [Key.bool true, .text "a"], key.IsPlain :=
    List.forall_mem_cons.2 ⟨fun c => by cases c <;> decide,
      List.forall_mem_singleton.2 fun c => by cases c <;> decide⟩
  have hqs : ∀ key ∈ [Key.int 1, .text "b", .text "c"], key.IsPlain :=
    List.forall_mem_cons.2 ⟨fun c => by cases c <;> decide,
      List.forall_mem_cons.2 ⟨fun c => by cases c <;> decide,
        List.forall_mem_singleton.2 fun c => by cases c <;> decide⟩⟩
  have hpre : List.Forall₂ Key.Same [.bool true] [.int 1] := .cons rfl .nil
  have hkl : ¬ ((source.at? [.bool true]).getD .none).SameChild (.text "a") (.text "b") := by
    decide
  have hone : (one.exec 5).1 = .ok (.map 20 .ordered [(.int 1, .map 19 .plain [
      (.text "a", .seq 9 .list [.none]),
      (.text "b", .map 18 .plain [(.text "c", .map 17 .plain [(.text "d", .int 6)])])])]) := by
    rfl
  have h := applyAt_comm (A := .invoke) (B := .merge) (x := f) (y := operand)
    hp hq hps hqs hpre hkl (Node.isPure_standard _) (Node.isPure_standard _) 5 5
  obtain ⟨r', hr'⟩ := h.1.1 ⟨_, hone⟩
  exact ⟨hp, hq, hps, hqs, hpre, hkl, _, r', hone, hr', h.2 _ r' hone hr'⟩

end Amend
