import Amend.Proofs.Layers
import Amend.Proofs.Meaning

/-!
# A tree as a row of paths

`Node.paths` lists the leaves of a tree, each as a tree of a single path. Main statement
(`evalEach_paths`): carrying these out one after another comes to what the tree comes to. Two facts
carry it: a child that is written and read again is as it was written, so paths below one key go
together (`evalAll_enterEach`), and a copy that is packed and opened again is the same copy, so
paths from one container go together (`evalEach_enterEach`).
-/

namespace Amend

namespace Scratch
variable {s s' : Scratch} {k l : Key} {v w r : Value}

/-- What is written at a key is gone when the child is written once more. -/
theorem assign_assign (h : s.assign k v = .ok s') (hl : s.SameChild k l) :
    s'.assign l w = s.assign k w := by
  cases s with
  | items kind xs =>
    obtain ⟨i, hi, rfl⟩ := assign_items_eq_ok.1 h
    obtain ⟨j, hj, hl⟩ := hl
    obtain rfl : i = j := Option.some.inj (hi.symm.trans hj)
    have hw : (items kind xs).assign k w = .ok (items kind (xs.set i w)) :=
      assign_items_eq_ok.2 ⟨i, hi, rfl⟩
    rw [hw]
    exact assign_items_eq_ok.2 ⟨i, by rwa [List.length_set], by rw [List.set_set]⟩
  | entries kind es =>
    cases h
    simp only [assign, Entries.put_put hl]

/-- Whether a key can be written does not depend on what is written. -/
theorem assign_ok (h : s.assign k v = .ok s') (w : Value) : ∃ s'', s.assign k w = .ok s'' := by
  cases s with
  | items kind xs =>
    obtain ⟨i, hi, -⟩ := assign_items_eq_ok.1 h
    exact ⟨_, assign_items_eq_ok.2 ⟨i, hi, rfl⟩⟩
  | entries kind es => exact ⟨_, rfl⟩

/-- The kind of a copy and how many items it has: what writing children does not change. -/
def form : Scratch → Kind × Nat
  | .items kind xs => (.seq kind, xs.length)
  | .entries kind _ => (.map kind, 0)

theorem form_assign (h : s.assign k v = .ok s') : s'.form = s.form := by
  cases s with
  | items kind xs =>
    obtain ⟨i, -, rfl⟩ := assign_items_eq_ok.1 h
    simp only [form, List.length_set]
  | entries kind es => cases h; rfl

theorem isContainer_pack (h : s.pack v = some r) : r.isContainer := by
  cases s with
  | items kind xs =>
    simp only [pack] at h
    split at h <;> cases h
    rfl
  | entries kind es => cases h; rfl

theorem isSome_pack (h : s'.form = s.form) : (s'.pack v).isSome = (s.pack v).isSome := by
  cases s with
  | items kind xs =>
    cases s' with
    | items kind' ys =>
      have hlen : ys.length = xs.length := congrArg Prod.snd h
      simp only [pack, hlen]
      split <;> rfl
    | entries => cases congrArg Prod.fst h
  | entries kind es =>
    cases s' with
    | items => cases congrArg Prod.fst h
    | entries => rfl

theorem form_ofContainer [Machine] (h : ofContainer v = .ok s) : s.form.1 = v.level.kind := by
  rw [ofContainer_eq_ok h]
  cases v.level <;> rfl

/-- A copy that is packed and opened again is the same copy. -/
theorem ofContainer_pack [Machine] (hs : s.form.1 = v.level.kind) (h : s.pack v = some r) :
    ofContainer r = .ok s := by
  cases s with
  | items kind xs =>
    obtain rfl : kind = .list := by cases v <;> cases hs <;> rfl
    simp only [pack] at h
    split at h <;> cases h
    rfl
  | entries kind es =>
    cases h
    cases v with
    | map id k es' => cases hs; cases k <;> rfl
    | _ => cases hs <;> rfl

theorem pack_pack (hs : s.form.1 = v.level.kind) (h : s.pack v = some r)
    (hform : s'.form = s.form) : s'.pack r = s'.pack v := by
  cases s with
  | items kind xs =>
    obtain rfl : kind = .list := by cases v <;> cases hs <;> rfl
    simp only [pack] at h
    split at h <;> cases h
    cases s' with
    | items kind' ys =>
      obtain rfl : kind' = .list := Kind.seq.inj (congrArg Prod.fst hform)
      cases v with
      | seq id k zs => rcases k with - | - | (- | - | -) <;> rfl
      | map => cases hs
      | _ => rfl
    | entries => cases congrArg Prod.fst hform
  | entries kind es =>
    cases h
    cases s' with
    | items => cases congrArg Prod.fst hform
    | entries kind' es' =>
      cases hform
      cases v with
      | map id k es' => cases hs; cases k <;> rfl
      | _ => cases hs <;> rfl

end Scratch

namespace Node
variable {k : Key} {e : Key × Node} {children : List (Key × Node)} {s s' : Scratch} {v r : Value}

mutual

/-- The leaves of a tree, each as the tree of the path that leads to it. -/
def paths : Node → List Node
  | .enter children =>
    if children.isEmpty then [.enter []] else (childPaths children).map fun e => .enter [e]
  | n => [n]
termination_by structural n => n

def childPaths : List (Key × Node) → List (Key × Node)
  | [] => []
  | (k, n) :: rest => n.paths.map (k, ·) ++ childPaths rest
termination_by structural ns => ns

end

theorem paths_ne_nil : ∀ n : Node, n.paths ≠ []
  | .enter [] => List.cons_ne_nil _ _
  | .enter ((k, n) :: rest) => by
    rw [paths, childPaths]
    simp [paths_ne_nil n]
  | .act _ | .rerun _ | .misplaced _ => List.cons_ne_nil _ _

theorem childPaths_cons (e : Key × Node) (es : List (Key × Node)) :
    ∃ e' es', childPaths (e :: es) = e' :: es' := by
  obtain ⟨k, n⟩ := e
  rw [childPaths]
  rcases hn : n.paths with - | ⟨m, ms⟩
  · exact absurd hn n.paths_ne_nil
  · exact ⟨_, _, rfl⟩

theorem paths_enter (e : Key × Node) (es : List (Key × Node)) :
    (Node.enter (e :: es)).paths = (childPaths (e :: es)).map fun e => .enter [e] := by
  rw [paths]
  rfl

variable [Host]

/-- What trees on a shape come to, one after another. -/
def evalEach : List Node → Value → Option Value
  | [], v => some v
  | m :: ms, v => do evalEach ms (← m.eval v)

theorem evalAll_append (ns ms : List (Key × Node)) (s : Scratch) :
    evalAll (ns ++ ms) s = (evalAll ns s).bind (evalAll ms) := by
  induction ns generalizing s with
  | nil => rfl
  | cons e ns ih =>
    simp only [List.cons_append, evalAll, ih, Option.bind_eq_bind, Option.bind_assoc]

theorem form_evalAll {ns : List (Key × Node)} (h : evalAll ns s = some s') : s'.form = s.form := by
  induction ns generalizing s with
  | nil => cases h; rfl
  | cons e ns ih =>
    simp only [evalAll, Option.bind_eq_bind, Option.bind_eq_some_iff] at h
    obtain ⟨c, -, r, -, s₁, hs₁, h⟩ := h
    have hassign : s.assign e.1 r = .ok s₁ := by
      rcases hok : s.assign e.1 r with fault | s₂ <;> rw [hok] at hs₁ <;> cases hs₁
      rfl
    exact (ih h).trans (Scratch.form_assign hassign)

theorem eval_enter_cons (e : Key × Node) (ns : List (Key × Node)) (v : Value) :
    (Node.enter (e :: ns)).eval v =
      (Scratch.ofContainer v).toOption.bind fun s => (evalAll (e :: ns) s).bind (·.pack v) := rfl

theorem isContainer_eval (h : (Node.enter (e :: children)).eval v = some r) : r.isContainer := by
  rw [eval_enter_cons] at h
  simp only [Option.bind_eq_some_iff] at h
  obtain ⟨s, -, s', -, h⟩ := h
  exact Scratch.isContainer_pack h

/-- Paths below a key, after the first: each reads what the one before has written there. -/
theorem evalAll_enterEach_of_assign {es : List (Key × Node)} (h : s.assign k r = .ok s')
    (hr : r.isContainer) :
    evalAll (es.map fun e => (k, .enter [e])) s' =
      (evalEach (es.map fun e => .enter [e]) r).bind fun r' => (s.assign k r').toOption := by
  induction es generalizing r s' with
  | nil => exact (congrArg Except.toOption h).symm
  | cons e es ih =>
    have hgiven : given r (.enter [e]) = r := by simp [given, hr]
    simp only [List.map_cons, evalAll, evalEach, Scratch.child_of_assign h]
    change ((Node.enter [e]).eval (given r (.enter [e]))).bind _ = _
    rw [hgiven]
    rcases hr₂ : (Node.enter [e]).eval r with - | r₂
    · rfl
    · obtain ⟨s₂, hs₂⟩ := Scratch.assign_ok h r₂
      change ((s'.assign k r₂).toOption.bind _) = _
      rw [Scratch.assign_assign h (Scratch.sameChild_of_assign h), hs₂]
      exact ih hs₂ (isContainer_eval hr₂)

/-- Paths below one key come to a single child. -/
theorem evalAll_enterEach (e : Key × Node) (es : List (Key × Node)) (k : Key) (s : Scratch) :
    evalAll ((e :: es).map fun e => (k, .enter [e])) s =
      (s.child k).toOption.bind fun c =>
        (evalEach ((e :: es).map fun e => .enter [e]) (given c (.enter [e]))).bind fun r =>
          (s.assign k r).toOption := by
  simp only [List.map_cons, evalAll, evalEach]
  rcases s.child k with fault | c
  · rfl
  change ((Node.enter [e]).eval _).bind _ = (((Node.enter [e]).eval _).bind _).bind _
  rcases hr : (Node.enter [e]).eval (given c (.enter [e])) with - | r
  · rfl
  change (s.assign k r).toOption.bind _ = (evalEach _ r).bind _
  rcases hs : s.assign k r with fault | s'
  · -- if the first cannot be written, neither can what the others make of it
    rcases evalEach (es.map fun e => .enter [e]) r with - | r'
    · rfl
    · rcases hs' : s.assign k r' with fault' | s''
      · rw [Option.bind_some, hs']
        rfl
      · obtain ⟨_, hok⟩ := Scratch.assign_ok hs' r
        rw [hs] at hok
        cases hok
  · exact evalAll_enterEach_of_assign hs (isContainer_eval hr)

/-- Paths from a container, after the first: each opens what the one before has packed. -/
theorem evalEach_enterEach_of_pack {es : List (Key × Node)} (hs : s.form.1 = v.level.kind)
    (h : s.pack v = some r) :
    evalEach (es.map fun e => .enter [e]) r = (evalAll es s).bind (·.pack v) := by
  induction es generalizing s r with
  | nil => exact h.symm
  | cons e es ih =>
    rw [← List.singleton_append, evalAll_append]
    simp only [List.singleton_append, List.map_cons, evalEach, eval_enter_cons,
      Scratch.ofContainer_pack hs h]
    change ((evalAll [e] s).bind _).bind _ = _
    rcases he : evalAll [e] s with - | s₁
    · rfl
    · have hform := form_evalAll he
      have hsome : (s₁.pack v).isSome := by rw [Scratch.isSome_pack hform, h]; rfl
      obtain ⟨r₁, hr₁⟩ := Option.isSome_iff_exists.1 hsome
      change (s₁.pack r).bind _ = (evalAll es s₁).bind _
      rw [Scratch.pack_pack hs h hform, hr₁]
      exact ih (by rw [hform, hs]) hr₁

/-- Paths from one container come to a single node. -/
theorem evalEach_enterEach (e : Key × Node) (es : List (Key × Node)) (v : Value) :
    evalEach ((e :: es).map fun e => .enter [e]) v = (Node.enter (e :: es)).eval v := by
  rw [eval_enter_cons]
  change ((Node.enter [e]).eval v).bind (evalEach _) = _
  rw [eval_enter_cons]
  rcases hs : Scratch.ofContainer v with fault | s
  · rfl
  change ((evalAll [e] s).bind _).bind _ = (evalAll ([e] ++ es) s).bind _
  rw [evalAll_append]
  rcases he : evalAll [e] s with - | s₁
  · rfl
  have hform : s₁.form.1 = v.level.kind := by rw [form_evalAll he, Scratch.form_ofContainer hs]
  change (s₁.pack v).bind _ = (evalAll es s₁).bind _
  rcases hr : s₁.pack v with - | r
  · -- the size that the container refuses stays what it is
    rcases hall : evalAll es s₁ with - | s₂
    · rfl
    · have hnone := Scratch.isSome_pack (v := v) (form_evalAll hall)
      rw [hr, Option.isSome_none, Option.isSome_eq_false_iff, Option.isNone_iff_eq_none] at hnone
      exact hnone.symm
  · exact evalEach_enterEach_of_pack hform hr

theorem evalEach_singleton (n : Node) (v : Value) : evalEach [n] v = n.eval v := by
  rw [evalEach]
  rcases n.eval v with - | r <;> rfl

/-- The paths of a node below a key come to what the node comes to there. -/
theorem evalAll_paths {n : Node} (h : ∀ v, evalEach n.paths v = n.eval v) (k : Key) (s : Scratch) :
    evalAll (n.paths.map (k, ·)) s = evalAll [(k, n)] s := by
  match n with
  | .enter [] | .act _ | .rerun _ | .misplaced _ => rfl
  | .enter (e :: es) =>
    obtain ⟨e', es', hpaths⟩ := childPaths_cons e es
    rw [paths_enter, hpaths] at h ⊢
    rw [List.map_map]
    refine (evalAll_enterEach e' es' k s).trans ?_
    simp only [h, evalAll]
    rcases s.child k with fault | c
    · rfl
    change ((Node.enter (e :: es)).eval _).bind _ = ((Node.enter (e :: es)).eval _).bind _
    congr 1
    funext r
    rcases s.assign k r with fault | s' <;> rfl

mutual

/-- A tree comes to what its paths come to, one after another. -/
theorem evalEach_paths : ∀ (n : Node) (v : Value), evalEach n.paths v = n.eval v
  | .enter [], v => evalEach_singleton _ v
  | .enter (e :: es), v => by
    obtain ⟨e', es', hpaths⟩ := childPaths_cons e es
    rw [paths_enter, hpaths]
    refine (evalEach_enterEach e' es' v).trans ?_
    rw [eval_enter_cons, eval_enter_cons, ← hpaths]
    simp only [evalAll_childPaths]
  | .act _, v | .rerun _, v | .misplaced _, v => evalEach_singleton _ v

theorem evalAll_childPaths : ∀ (ns : List (Key × Node)) (s : Scratch),
    evalAll (childPaths ns) s = evalAll ns s
  | [], _ => rfl
  | (k, n) :: rest, s => by
    rw [childPaths, evalAll_append, evalAll_paths (evalEach_paths n),
      funext (evalAll_childPaths rest)]
    exact (evalAll_append [(k, n)] rest s).symm

end

end Node

end Amend
