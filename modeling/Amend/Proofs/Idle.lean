import Amend.Proofs.Places

/-!
# Trees without commands

What a tree does that names no command and whose keys are all there. Main statement (`run_idle`): it
changes nothing, except that a node without keys below the root puts an empty mapping in place of
nothing and of scalars that count as false (`Value.openAt`).
-/

namespace Amend

namespace Value

/-- A path that is there, and all containers on it, the last one too, are of stable kinds. -/
def StableTo (v : Value) (path : List Key) : Prop :=
  ∃ c, v.at? path = some c ∧ v.StableAlong path ∧ (c.isContainer → c.kind.isStable)

/-- The value with an empty mapping in place of nothing, or of a scalar that counts as false, at the
end of a path below the root. -/
def openAt (v : Value) (path : List Key) : Value :=
  match v.at? path with
  | some c =>
    if path = [] ∨ c.isContainer ∨ c.truthy then v else v.replaceAt path (.map 0 .plain [])
  | .none => v

variable {v w a c : Value} {k l : Key} {path path' : List Key}

theorem StableTo.cons (hv : v.kind.isStable) (hc : v.child? k = some c) (h : c.StableTo path) :
    v.StableTo (k :: path) := by
  obtain ⟨d, hat, hstable, hd⟩ := h
  refine ⟨d, by rw [at?, hc]; exact hat, ⟨hv, fun c' hc' => ?_⟩, hd⟩
  rw [hc] at hc'
  cases hc'
  exact hstable

theorem StableTo.of_cons (h : v.StableTo (k :: path)) :
    v.kind.isStable ∧ ∃ c, v.child? k = some c ∧ c.StableTo path := by
  obtain ⟨d, hat, ⟨hv, hstable⟩, hd⟩ := h
  obtain ⟨c, hc, hat⟩ := Option.bind_eq_some_iff.1 hat
  exact ⟨hv, c, hc, d, hat, hstable c hc, hd⟩

theorem level_setChild (hv : v.kind.isStable) (h : v.child? k = some a) :
    v.level.assign k c = .ok (v.setChild k c).level := by
  cases v with
  | seq id kind xs =>
    obtain ⟨i, hi, -⟩ := Option.bind_eq_some_iff.1 h
    refine Scratch.assign_items_eq_ok.2 ⟨i, hi, ?_⟩
    simp only [setChild, hi, level]
  | map id kind es => rfl
  | _ => cases hv

theorem kind_setChild : (v.setChild k c).kind = v.kind := by
  cases v with
  | seq id kind xs =>
    rw [setChild]
    split <;> rfl
  | _ => rfl

theorem isContainer_setChild : (v.setChild k c).isContainer = v.isContainer := by
  cases v with
  | seq id kind xs =>
    rw [setChild]
    split <;> rfl
  | _ => rfl

/-- Putting a container of a stable kind in place of a scalar leaves the paths that are there. -/
theorem StableTo.replaceAt (h : v.StableTo path') (hat : v.at? path = some c)
    (hc : c.isContainer = false) (hw : w.kind.isStable) : (v.replaceAt path w).StableTo path' := by
  induction path generalizing v path' with
  | nil =>
    cases hat
    cases path' with
    | nil => exact ⟨w, rfl, trivial, fun _ => hw⟩
    | cons l path' =>
      rw [isContainer_of_isStable h.of_cons.1] at hc
      cases hc
  | cons k path ih =>
    obtain ⟨a, ha, hat⟩ := Option.bind_eq_some_iff.1 hat
    simp only [Value.replaceAt, ha]
    cases path' with
    | nil =>
      obtain ⟨_, hself, -, hv⟩ := h
      cases hself
      refine ⟨_, rfl, trivial, fun hcont => ?_⟩
      rw [isContainer_setChild] at hcont
      rw [kind_setChild]
      exact hv hcont
    | cons l path' =>
      obtain ⟨hv, b, hb, hrest⟩ := h.of_cons
      have hset := level_setChild (c := a.replaceAt path w) hv ha
      have hkind : (v.setChild k (a.replaceAt path w)).kind.isStable := by rwa [kind_setChild]
      by_cases hsame : v.SameChild l k
      · have hab : b = a := Option.some.inj (hb.symm.trans ((Scratch.child?_congr hsame).trans ha))
        subst hab
        exact .cons hkind (Scratch.child?_assign_same hset hsame) (ih hrest hat)
      · exact .cons hkind ((Scratch.child?_assign_of_not_same hset hsame).trans hb) hrest

theorem StableTo.openAt (h : v.StableTo path') (path : List Key) :
    (v.openAt path).StableTo path' := by
  unfold Value.openAt
  split
  · next c hat =>
    split
    · exact h
    · next hc =>
      simp only [not_or, Bool.not_eq_true] at hc
      exact h.replaceAt hat hc.2.1 rfl
  · exact h

end Value

namespace Node
variable {n : Node} {v c r : Value} {path : List Key} {paths : List (List Key × Node)}

theorem given_enter {children : List (Key × Node)} :
    given c.shape (.enter children) =
      if c.isContainer ∨ c.truthy then c.shape else .map 0 .plain [] := by
  simp only [given, Value.isContainer_shape, Value.truthy_shape, command?, Option.isSome_none,
    Bool.false_or, Bool.or_eq_true]

variable [Host]

theorem eval_enter_nil (hc : c.isContainer → c.kind.isStable)
    (h : (Node.enter []).eval c.shape = some r) : r = c.shape := by
  rw [eval] at h
  split at h
  · cases h
    rfl
  · next hcont =>
    simp only [List.isEmpty_nil, Bool.true_and, Bool.not_eq_true', Bool.not_eq_false,
      Value.isContainer_shape] at hcont
    obtain ⟨s, hs, hpack⟩ := Option.bind_eq_some_iff.1 h
    obtain rfl := Scratch.ofContainer_eq_ok (Fault.toOption_eq_some.1 hs)
    exact Value.eq_of_pack_level (hc hcont) hpack

/-- What a node without keys does at the end of a path. -/
theorem eval_along_enter_nil (hv : v.StableTo path)
    (h : ((Node.enter []).along path).eval v.shape = some r) : r = (v.openAt path).shape := by
  obtain ⟨c, hat, hstable, hc⟩ := hv
  obtain ⟨w, hw, rfl⟩ := eval_along_of_at? hat hstable h
  simp only [Value.openAt, hat]
  rw [given_enter] at hw
  by_cases htaken : path = [] ∨ c.isContainer ∨ c.truthy
  · have hinput : (if path = [] then c.shape else
        if c.isContainer ∨ c.truthy then c.shape else .map 0 .plain []) = c.shape := by
      rcases htaken with hpath | htaken
      · rw [if_pos hpath]
      · rw [if_pos htaken, ite_self]
    rw [hinput] at hw
    rw [if_pos htaken, eval_enter_nil hc hw, ← Value.shape_replaceAt, Value.replaceAt_at? hat]
  · obtain ⟨hpath, hfalse⟩ := not_or.1 htaken
    rw [if_neg hpath, if_neg hfalse] at hw
    cases hw
    rw [if_neg htaken, Value.shape_replaceAt]
    rfl

/-- Trees without commands, one after another, each at the end of a path. -/
theorem evalEach_idle {leaves : List (List Key × Node)}
    (hidle : ∀ l ∈ leaves, l.2 = .enter [] ∨ ∃ kind, l.2 = .misplaced kind)
    (hv : ∀ l ∈ leaves, v.StableTo l.1)
    (h : evalEach (leaves.map fun l => l.2.along l.1) v.shape = some r) :
    r = ((leaves.map Prod.fst).foldl Value.openAt v).shape := by
  induction leaves generalizing v with
  | nil =>
    cases h
    rfl
  | cons l leaves ih =>
    obtain ⟨path, n⟩ := l
    obtain ⟨hn, hns⟩ := List.forall_mem_cons.1 hidle
    obtain ⟨hpath, hrest⟩ := List.forall_mem_cons.1 hv
    obtain ⟨r₁, h₁, hlater⟩ := Option.bind_eq_some_iff.1 h
    rcases hn with rfl | ⟨kind, rfl⟩
    · rw [eval_along_enter_nil hpath h₁] at hlater
      exact ih hns (fun l hl => (hrest l hl).openAt path) hlater
    · obtain ⟨c, hat, hstable, -⟩ := hpath
      obtain ⟨w, hw, -⟩ := eval_along_of_at? hat hstable h₁
      cases hw

end Node

namespace Value

mutual

theorem node_of_leaves : ∀ (v : Value), ∀ l ∈ v.leaves, l.2.findCommand = .none →
    Node.ofValue l.2 = .enter [] ∨ ∃ kind, Node.ofValue l.2 = .misplaced kind
  | .map id kind es, l, hl, hnone => by
    rw [leaves] at hl
    split at hl
    · next hes =>
      obtain rfl := List.mem_singleton.1 hl
      have hfind : Entries.findCommand es = Option.none := hnone
      rw [hfind, Option.isSome_none, Bool.false_or, List.isEmpty_iff] at hes
      subst hes
      exact .inl (Node.ofValue_map_of_none hfind)
    · exact node_of_entryLeaves es l hl hnone
  | .none, _, hl, _ | .bool _, _, hl, _ | .int _, _, hl, _ | .float _, _, hl, _
  | .text _, _, hl, _ | .bytes .., _, hl, _ | .buffer .., _, hl, _ | .range .., _, hl, _
  | .set .., _, hl, _ | .frozenSet .., _, hl, _ | .deque .., _, hl, _ | .factory .., _, hl, _
  | .runner .., _, hl, _ | .seq .., _, hl, _ => by
    obtain rfl := List.mem_singleton.1 hl
    exact .inr ⟨_, rfl⟩

theorem node_of_entryLeaves : ∀ (es : List (Key × Value)), ∀ l ∈ entryLeaves es,
    l.2.findCommand = .none →
      Node.ofValue l.2 = .enter [] ∨ ∃ kind, Node.ofValue l.2 = .misplaced kind
  | [], _, hl, _ => nomatch hl
  | (k, v) :: es, l, hl, hnone => by
    rw [entryLeaves, List.mem_append, List.mem_map] at hl
    rcases hl with ⟨l', hl', rfl⟩ | hl
    · exact node_of_leaves v l' hl' hnone
    · exact node_of_entryLeaves es l hl hnone

end

theorem foldl_openAt {v : Value} {paths : List (List Key)}
    (h : ∀ path ∈ paths, v.openAt path = v) : paths.foldl openAt v = v := by
  induction paths with
  | nil => rfl
  | cons path paths ih =>
    obtain ⟨hpath, hpaths⟩ := List.forall_mem_cons.1 h
    rw [List.foldl_cons, hpath, ih hpaths]

end Value

/-- A tree without commands opens what is nothing or counts as false, and changes no more. -/
theorem run_idle [Host] {source commands result : Value} {next : Ident} {trace : Trace}
    (hidle : ∀ l ∈ commands.leaves, l.2.findCommand = none)
    (hpaths : ∀ l ∈ commands.leaves, source.StableTo l.1)
    (hrun : (run source commands).exec next = (.ok result, trace)) :
    result.shape = ((commands.leaves.map Prod.fst).foldl Value.openAt source).shape ∧
      ((∀ l ∈ commands.leaves, ∀ c, source.at? l.1 = some c →
        l.1 = [] ∨ c.isContainer ∨ c.truthy) → result.shape = source.shape) := by
  have hnode (l) (hl : l ∈ commands.leaves) := Value.node_of_leaves commands l hl (hidle l hl)
  have hpure : (Node.ofValue commands).IsPure := (Node.every_iff_leaves commands).2 fun l hl => by
    rcases hnode l hl with h | ⟨kind, h⟩ <;> rw [h] <;> trivial
  have heval := (run_comesTo hpure source).of_ok (congrArg Prod.fst hrun)
  rw [← Node.evalEach_paths, Node.paths_ofValue] at heval
  have hresult : result.shape =
      ((commands.leaves.map Prod.fst).foldl Value.openAt source).shape := by
    let nodes := commands.leaves.map fun l => (l.1, Node.ofValue l.2)
    have hnodes : ∀ l ∈ nodes, l.2 = .enter [] ∨ ∃ kind, l.2 = .misplaced kind := by
      intro l hl
      obtain ⟨l, hmem, rfl⟩ := List.mem_map.1 hl
      exact hnode l hmem
    have hstable : ∀ l ∈ nodes, source.StableTo l.1 := by
      intro l hl
      obtain ⟨l, hmem, rfl⟩ := List.mem_map.1 hl
      exact hpaths l hmem
    have h := Node.evalEach_idle hnodes hstable (r := result.shape) (by rwa [List.map_map])
    rwa [List.map_map] at h
  refine ⟨hresult, fun htaken => ?_⟩
  rw [hresult, Value.foldl_openAt]
  intro path hpath
  obtain ⟨l, hl, rfl⟩ := List.mem_map.1 hpath
  obtain ⟨c, hat, -⟩ := hpaths l hl
  simp only [Value.openAt, hat]
  rw [if_pos (htaken l hl c hat)]

attribute [local instance] Host.standard in
/-- Of the fields of a point, a node without keys opens the empty text and leaves the number. -/
theorem run_idle_point :
    let source := Value.map 0 .readOnly [(.text "a", .seq 1 (.tuple .point) [.text "", .int 7])]
    let commands := Value.map 2 .plain [(.text "a", .map 3 .plain [(.int 0, .map 4 .plain []),
      (.int (-1), .map 5 .plain [])])]
    (∀ l ∈ commands.leaves, l.2.findCommand = none) ∧
      (∀ l ∈ commands.leaves, source.StableTo l.1) ∧
      ∃ result trace, (run source commands).exec 6 = (.ok result, trace) ∧
        result.shape = .map 0 .readOnly [(.text "a",
          .seq 0 (.tuple .point) [.map 0 .plain [], .int 7])] := by
  intro source commands
  have hrun : ∃ result trace, (run source commands).exec 6 = (.ok result, trace) := ⟨_, _, rfl⟩
  obtain ⟨result, trace, hrun⟩ := hrun
  have hidle : ∀ l ∈ commands.leaves, l.2.findCommand = none :=
    List.forall_mem_cons.2 ⟨rfl, List.forall_mem_singleton.2 rfl⟩
  have hpoint : (Value.seq 1 (.tuple .point) [.text "", .int 7]).kind.isStable := rfl
  have hscalar {v c : Value} {k : Key} (hc : v.child? k = some c) (hnot : c.isContainer = false)
      (hv : v.kind.isStable) : v.StableTo [k] :=
    .cons hv hc ⟨c, rfl, trivial, fun h => absurd h (by simp [hnot])⟩
  have hpaths : ∀ l ∈ commands.leaves, source.StableTo l.1 :=
    List.forall_mem_cons.2 ⟨.cons rfl rfl (hscalar (c := .text "") rfl rfl hpoint),
      List.forall_mem_singleton.2 (.cons rfl rfl (hscalar (c := .int 7) rfl rfl hpoint))⟩
  exact ⟨hidle, hpaths, result, trace, hrun, (run_idle hidle hpaths hrun).1⟩

attribute [local instance] Host.standard in
/-- A scalar that counts as false does not come back from a node without keys below the root. -/
theorem run_idle_opens_zero :
    let source := Value.map 0 .plain [(.text "a", .int 0)]
    let commands := Value.map 1 .plain [(.text "a", .map 2 .plain [])]
    (∀ l ∈ commands.leaves, l.2.findCommand = none ∧ source.StableTo l.1) ∧
      ∃ result trace, (run source commands).exec 3 = (.ok result, trace) ∧
        result.shape = .map 0 .plain [(.text "a", .map 0 .plain [])] ∧
          result.shape ≠ source.shape := by
  intro source commands
  have hpath : source.StableTo [.text "a"] :=
    .cons rfl rfl ⟨.int 0, rfl, trivial, fun h => absurd h (by decide)⟩
  refine ⟨List.forall_mem_singleton.2 ⟨rfl, hpath⟩, _, _, rfl, rfl, fun h => ?_⟩
  cases h

end Amend
