import Amend.Proofs.Lens
import Amend.Proofs.Matching

/-!
# What is done at the end of a path

A path leads a node to the value that stands at its end, and what comes of it there decides what
comes of the whole: nodes that come to the same there come to the same along the path
(`Node.along_matches`), and a fault there is the fault of the whole (`Node.along_throw`). Main
statements: a command at the end of a path is the command on its own and a setting of what it gives
(`applyAt_eq_set`), and carrying a tree out there is calling a function that runs the tree
(`run_command_eq_call`).
-/

namespace Amend

open Update

theorem Value.eq_none_iff {v : Value} : v = .none ↔ v.kind = .none := by
  cases v <;> simp [kind]

namespace Node
variable [Host] {n m : Node} {k : Key} {path : List Key} {v w c r : Value} {fault : Fault}
  {t : Trace}

/-- Carries a node out below a key, on the child there. -/
def performBelow (n : Node) (child : Value) : Update Value := do n.perform (← n.input child)

theorem perform_enter_singleton (k : Key) (n : Node) (v : Value) :
    (enter [(k, n)]).perform v = (do
      let s ← Update.lift (Scratch.ofContainer v)
      let c ← Update.lift (s.child k)
      n.announce (some k)
      let a ← n.performBelow c
      let s' ← Update.lift (s.assign k a)
      s'.rebuild v) := by
  rw [perform]
  simp only [performAll, performBelow, bind_assoc, pure_bind]
  rfl

theorem performBelow_of_command (hn : n.command?.isSome) (c : Value) :
    n.performBelow c = n.perform c := by
  rw [performBelow, input, hn]
  rfl

theorem performBelow_of_taken (h : c.isContainer ∨ c.truthy) : n.performBelow c = n.perform c := by
  have htaken : (n.command?.isSome || c.isContainer || c.truthy) = true := by
    simp only [Bool.or_eq_true, or_assoc]
    exact .inr h
  rw [performBelow, input, if_pos htaken]
  rfl

/-- To enter nothing is to enter an empty mapping. -/
theorem perform_enter_empty (id : Ident) (e : Key × Node) (es : List (Key × Node)) :
    (enter (e :: es)).perform (.map id .plain []) = (enter (e :: es)).perform .none := by
  have hrebuild (s : Scratch) : s.rebuild (.map id .plain []) = s.rebuild .none := by
    cases s <;> rfl
  rw [perform, perform]
  simp only [hrebuild]
  rfl

/-- Below a key, what is no container and counts as false is entered as nothing is. -/
theorem performBelow_of_left {α : Type} {f : Value → α} {u : Update Value} {e : Key × Node}
    {es : List (Key × Node)} (h : ¬ (c.isContainer ∨ c.truthy))
    (hu : ((enter (e :: es)).perform .none).Matches f u) :
    ((enter (e :: es)).performBelow c).Matches f u := by
  simp only [not_or, Bool.not_eq_true] at h
  rw [performBelow, input, h.1, h.2]
  show (Update.fresh >>= fun id => (enter (e :: es)).perform (.map id .plain [])).Matches _ _
  refine .skip .fresh fun {id _ _} _ => ?_
  rwa [perform_enter_empty]

/-- What a node comes to below a key, a function that carries it out comes to there. Only a node
without keys takes a scalar that counts as false for a mapping, where the function does not. -/
theorem performBelow_rerun {d : Value} (hpure : n.IsPure) (hn : n.command?.isSome ∨
      n ≠ .enter [] ∧ (c.isContainer ∨ c.truthy ∨ c = .none)) (h : c.shape = d.shape) :
    (n.performBelow c).Matches Value.shape ((rerun n).performBelow d) := by
  rw [performBelow_of_command (n := rerun n) rfl]
  have hrerun : (n.perform c).Matches Value.shape ((rerun n).perform d) :=
    (Matches.skip (n.announce_comesTo none) fun _ => n.perform_matches hpure h.symm).symm
  refine .trans ?_ hrerun
  rcases hn with hn | ⟨hne, hc | hc | rfl⟩
  · rw [performBelow_of_command hn]
    exact n.perform_matches hpure rfl
  · rw [performBelow_of_taken (.inl hc)]
    exact n.perform_matches hpure rfl
  · rw [performBelow_of_taken (.inr hc)]
    exact n.perform_matches hpure rfl
  · match n with
    | .act _ | .rerun _ =>
      rw [performBelow_of_command rfl]
      exact perform_matches _ hpure rfl
    | .enter [] => exact absurd rfl hne
    | .enter (e :: es) =>
      refine performBelow_of_left ?_ (perform_matches _ hpure rfl)
      rintro (h | h) <;> cases h
    | .misplaced kind => exact .skip ((misplaced kind).input_comesTo .none) fun _ => .throw _

/-- Nodes below one key that come to the same on the child there. -/
theorem enter_singleton_matches (h : v.shape = w.shape)
    (hbelow : ∀ d : Value, ((v.child? k).getD .none).shape = d.shape →
      (n.performBelow ((v.child? k).getD .none)).Matches Value.shape (m.performBelow d)) :
    ((enter [(k, n)]).perform v).Matches Value.shape ((enter [(k, m)]).perform w) := by
  rw [perform_enter_singleton, perform_enter_singleton]
  refine (Matches.lift (Scratch.ofContainer_congr h)).bind_of_ok fun hs _ hss => ?_
  obtain rfl := Scratch.ofContainer_eq_ok (lift_eq_ok.1 hs).1
  refine (Matches.lift (Scratch.child_congr_shape hss k)).bind_of_ok fun hc _ hcc => ?_
  obtain rfl := Scratch.child_eq_ok (lift_eq_ok.1 hc).1
  refine (n.announce_matches _ _ m).bind fun _ _ _ => ?_
  refine (hbelow _ hcc).bind fun a b hab => ?_
  refine .bind (.lift (Scratch.assign_congr hss hab k)) fun s s' hs' => ?_
  exact Scratch.rebuild_matches hs' h

/-- Nodes that come to the same on what stands at the end of a path come to the same along it. -/
theorem along_matches (k : Key) (path : List Key) (h : v.shape = w.shape)
    (hend : ∀ c d : Value, c.shape = ((v.at? (k :: path)).getD .none).shape → c.shape = d.shape →
      (n.performBelow c).Matches Value.shape (m.performBelow d)) :
    ((n.along (k :: path)).perform v).Matches Value.shape ((m.along (k :: path)).perform w) := by
  induction path generalizing k v w with
  | nil =>
    rw [Value.at?_cons_getD] at hend
    exact enter_singleton_matches h fun d hd => hend _ d rfl hd
  | cons l path ih =>
    rw [Value.at?_cons_getD] at hend
    refine enter_singleton_matches (n := n.along (l :: path)) (m := m.along (l :: path)) h
      fun d hd => ?_
    have hinput : (n.along (l :: path)).input d = (m.along (l :: path)).input d := rfl
    rw [performBelow, performBelow, ← hinput]
    refine ((n.along (l :: path)).input_matches hd).bind_of_ok fun hx _ hxx => ?_
    refine ih l hxx ?_
    rwa [← Value.at?_cons_congr (input_eq_ok (k := k) hx).2]

theorem eval_below (h : (enter [(k, m)]).eval v.shape = some r) :
    ∃ a, m.eval (m.given ((v.child? k).getD .none).shape) = some a := by
  obtain ⟨s, hs, c, hc, a, ha, -⟩ := eval_enter_singleton_eq_some.1 h
  obtain rfl := Scratch.ofContainer_eq_ok hs
  obtain rfl := Scratch.child_eq_ok hc
  rw [← Value.child?_shape_getD]
  exact ⟨a, ha⟩

/-- A fault below one key is the fault of the node, where some other node below the key succeeds. -/
theorem enter_singleton_throw (hm : (enter [(k, m)]).eval v.shape = some r)
    (hbelow : (n.performBelow ((v.child? k).getD .none)).Matches Value.shape (throw fault)) :
    ((enter [(k, n)]).perform v).Matches Value.shape (throw fault) := by
  obtain ⟨s, hs, c, hc, -⟩ := eval_enter_singleton_eq_some.1 hm
  rw [Scratch.ofContainer_shape] at hs
  have hopen := ComesTo.lift_ok hs
  rw [perform_enter_singleton]
  refine .skip hopen fun {s₀ _ _} hs₀ => ?_
  obtain rfl : s = s₀.shape := Option.some.inj (hopen.of_ok (congrArg Prod.fst hs₀))
  obtain rfl := Scratch.ofContainer_eq_ok (lift_eq_ok.1 hs₀).1
  rw [Scratch.child_shape] at hc
  refine .skip (ComesTo.lift_ok hc) fun hc₀ => ?_
  obtain rfl := Scratch.child_eq_ok (lift_eq_ok.1 hc₀).1
  exact .skip (n.announce_comesTo _) fun _ => hbelow.bind_throw

/-- A fault at the end of a path is the fault of the whole, where the path can be followed. -/
theorem along_throw {x : Value} (hn : n.command?.isSome)
    (hset : ((act (.set x)).along path).eval v.shape = some r)
    (hend : ∀ c : Value, c.shape = ((v.at? path).getD .none).shape →
      (n.perform c).Matches Value.shape (throw fault)) :
    ((n.along path).perform v).Matches Value.shape (throw fault) := by
  induction path generalizing v r with
  | nil => exact hend v rfl
  | cons k path ih =>
    refine enter_singleton_throw hset ?_
    rw [Value.at?_cons_getD] at hend
    cases path with
    | nil =>
      rw [List.foldr_nil, performBelow_of_command hn]
      exact hend _ rfl
    | cons l path =>
      have hinput := (n.along (l :: path)).input_comesTo ((v.child? k).getD .none)
      refine .skip hinput fun {w _ _} hw => ?_
      obtain ⟨a, ha⟩ := eval_below hset
      have hgiven := Option.some.inj (hinput.of_ok (congrArg Prod.fst hw))
      refine ih (hgiven ▸ ha) ?_
      rwa [← Value.at?_cons_congr (input_eq_ok (k := k) hw).2]

/-- A command along a path comes to a setting of what the command gives at its end. -/
theorem along_set_matches {x : Value} (hpure : n.IsPure) (hn : n.command?.isSome)
    (h : (n.perform ((v.at? path).getD .none) t).1 = .ok x) :
    ((n.along path).perform v).Matches Value.shape (((act (.set x)).along path).perform v) := by
  cases path with
  | nil => exact (n.perform_matches hpure rfl).pure_of_ok h
  | cons k path =>
    refine along_matches k path rfl fun c d hc _ => ?_
    rw [performBelow_of_command hn, performBelow_of_command rfl]
    exact (n.perform_matches hpure hc).pure_of_ok h

end Node

section
variable [Host] {c : Command} {source path operand tree : Value} {keys : List Key}

/-- Carrying a tree out at the end of a path comes to what its node comes to along the keys. -/
theorem run_command_matches (source : Value) (hpure : (Node.ofValue tree).IsPure)
    (hkeys : Key.ofValues (Path.keys path) = .ok keys) (hplain : ∀ k ∈ keys, k.IsPlain) :
    (Path.command path tree >>= run source).Matches Value.shape
      (((Node.ofValue tree).along keys).perform source) := by
  have hcommand := Path.command_comesTo hkeys hplain tree
  refine .skip hcommand fun {whole _ _} hwhole => ?_
  have hnode := Option.some.inj (hcommand.of_ok (congrArg Prod.fst hwhole))
  refine .skip ((Node.ofValue whole).announce_comesTo none) fun _ => ?_
  rw [← hnode]
  exact Node.perform_matches _ (Node.every_along keys hpure) rfl

theorem applyAt_matches (source : Value) (hpure : (Node.ofOperand c operand).IsPure)
    (hkeys : Key.ofValues (Path.keys path) = .ok keys) (hplain : ∀ k ∈ keys, k.IsPlain) :
    (applyAt c source path operand).Matches Value.shape
      (((Node.ofOperand c operand).along keys).perform source) := by
  refine .skip .fresh fun {id _ _} _ => ?_
  rw [← Node.ofValue_command id c operand] at hpure ⊢
  exact run_command_matches source hpure hkeys hplain

/-- A command at the end of a path is the command on its own, on what stands there, and a setting
of what it gives, where the function that it calls is pure. -/
theorem applyAt_eq_set {next₀ : Ident} (hpure : (Node.ofOperand c operand).IsPure)
    (hkeys : Key.ofValues (Path.keys path) = .ok keys) (hplain : ∀ k ∈ keys, k.IsPlain)
    (hset : ∃ r, ((applyAt .set source path .none).exec next₀).1 = .ok r) (next next' : Ident) :
    let whole := ((applyAt c source path operand).exec next).1
    let applied := ((applyCommand c ((source.at? keys).getD .none) operand).exec next').1
    ((∃ r, whole = .ok r) ↔ ∃ v, applied = .ok v) ∧
      (∀ v, applied = .ok v → ∀ next'', ∃ r r', whole = .ok r ∧
        ((applyAt .set source path v).exec next'').1 = .ok r' ∧ r.shape = r'.shape) ∧
      ∀ fault, applied = .error fault → whole = .error fault := by
  intro whole applied
  have hn : (Node.ofOperand c operand).command?.isSome := by rw [Node.command?_ofOperand]; rfl
  have hwhole := applyAt_matches source hpure hkeys hplain
  have hcomes (x : Value) : (applyAt .set source path x).ComesTo Value.shape
      (((Node.act (.set x)).along keys).eval source.shape) := by
    rw [← Node.ofOperand_set]
    exact applyAt_comesTo hkeys hplain (Node.isPure_set x)
  obtain ⟨r₀, hr₀⟩ := hset
  have hfollow := (hcomes .none).of_ok hr₀
  have hsucceeds : ∀ v, applied = .ok v → ∀ next'', ∃ r r', whole = .ok r ∧
      ((applyAt .set source path v).exec next'').1 = .ok r' ∧ r.shape = r'.shape := by
    intro v hv next''
    obtain ⟨s, hs⟩ := Node.eval_along_set_ok hfollow v
    obtain ⟨r', hr', -⟩ := (hs ▸ hcomes v).exists_ok ⟨next'', []⟩
    have hsetting := applyAt_matches source (Node.isPure_set v) hkeys hplain
    rw [Node.ofOperand_set] at hsetting
    have hsame := (hwhole.trans (Node.along_set_matches hpure hn hv)).trans hsetting.symm
    obtain ⟨r, hr, hshape⟩ := hsame.symm.of_ok hr' ⟨next, []⟩
    exact ⟨r, r', hr, hr', hshape⟩
  have hfails : ∀ fault, applied = .error fault → whole = .error fault := by
    intro fault hfault
    have hthrow := hwhole.trans (Node.along_throw hn hfollow fun c hc =>
      (Node.perform_matches _ hpure hc).throw_of_error hfault)
    exact hthrow.symm.of_error (t := ⟨0, []⟩) rfl _
  refine ⟨⟨fun ⟨r, hr⟩ => ?_, fun ⟨v, hv⟩ => ?_⟩, hsucceeds, hfails⟩
  · rcases happlied : applied with fault | v
    · rw [hfails fault happlied] at hr
      cases hr
    · exact ⟨v, rfl⟩
  · obtain ⟨r, -, hr, -⟩ := hsucceeds v hv 0
    exact ⟨r, hr⟩

end

attribute [local instance] Host.standard in
/-- The first field of the point holds a scalar that counts as false, so what the function is called
on below it is nothing. -/
theorem applyAt_eq_set_invoke :
    let source := Value.map 0 .ordered [
      (.text "a", .seq 1 (.tuple .point) [.text "", .seq 2 .list []])]
    let path := Value.seq 3 .list [.text "a", .int (-2), .text "b"]
    let keys := [Key.text "a", .int (-2), .text "b"]
    let f := Value.factory 4 .wrap .none
    Key.ofValues (Path.keys path) = .ok keys ∧ (∀ k ∈ keys, k.IsPlain) ∧
      (∃ r, ((applyAt .set source path .none).exec 5).1 = .ok r) ∧
      ∃ v r r', ((applyCommand .invoke ((source.at? keys).getD .none) f).exec 5).1 = .ok v ∧
        ((applyAt .invoke source path f).exec 5).1 = .ok r ∧
        ((applyAt .set source path v).exec 6).1 = .ok r' ∧ r.shape = r'.shape := by
  intro source path keys f
  have hplain : ∀ k ∈ keys, k.IsPlain := by decide
  have hset : ∃ r, ((applyAt .set source path .none).exec 5).1 = .ok r := ⟨_, rfl⟩
  have happlied : ((applyCommand .invoke ((source.at? keys).getD .none) f).exec 5).1 =
      .ok (.seq 5 .list [.none]) := rfl
  have hkeys : Key.ofValues (Path.keys path) = .ok keys := rfl
  obtain ⟨-, hsucceeds, -⟩ := applyAt_eq_set (c := .invoke)
    (Node.isPure_standard _) hkeys hplain hset 5 5
  obtain ⟨r, r', hr, hr', hshape⟩ := hsucceeds _ happlied 6
  exact ⟨hkeys, hplain, hset, _, r, r', happlied, hr, hr', hshape⟩

section
variable {source path tree : Value} {keys : List Key}

theorem Node.isSome_command?_ofValue (h : tree.findCommand.isSome) :
    (ofValue tree).command?.isSome := by
  obtain ⟨⟨c, operand⟩, hfound⟩ := Option.isSome_iff_exists.1 h
  cases tree with
  | map id kind es => rw [ofValue_map_of_some hfound, command?_ofOperand]; rfl
  | _ => cases hfound

/-- Only an empty mapping is a node without keys. -/
theorem Node.eq_of_ofValue_eq (h : ofValue tree = .enter []) :
    ∃ id kind, tree = .map id kind [] := by
  cases tree with
  | map id kind es =>
    rcases hfind : Entries.findCommand es with - | ⟨c, operand⟩
    · rw [ofValue_map_of_none hfind] at h
      cases es with
      | nil => exact ⟨id, kind, rfl⟩
      | cons e es => cases h
    · have hcommand := command?_ofOperand c operand
      rw [ofValue_map_of_some hfind] at h
      rw [h] at hcommand
      cases hcommand
  | _ => cases h

/-- Carrying a tree out at the end of a path is calling a function there that runs the tree. Only a
tree that names no command and meets a scalar that counts as false, or has no keys, may come to
something else. The tree is carried out twice, so what it calls itself has to be pure. -/
theorem run_command_eq_call [Host] (id : Ident) (hpure : (Node.ofValue tree).IsPure)
    (hkeys : Key.ofValues (Path.keys path) = .ok keys)
    (hplain : ∀ k ∈ keys, k.IsPlain) (hne : keys ≠ [])
    (htree : tree.findCommand.isSome ∨ (∀ id kind, tree ≠ .map id kind []) ∧
      let old := (source.at? keys).getD .none
      old.isContainer ∨ old.truthy ∨ old = .none) (next next' : Ident) :
    ((do run source (← Path.command path tree)).exec next).1.map Value.shape =
      ((applyAt .invoke source path (.runner id tree)).exec next').1.map Value.shape := by
  obtain ⟨k, path', rfl⟩ := List.exists_cons_of_ne_nil hne
  have hrun := run_command_matches source hpure hkeys hplain
  have hcall : (applyAt .invoke source path (.runner id tree)).Matches Value.shape
      (((Node.rerun (Node.ofValue tree)).along (k :: path')).perform source) :=
    applyAt_matches source hpure hkeys hplain
  have hend (c d : Value) (hc : c.shape = ((source.at? (k :: path')).getD .none).shape)
      (hcd : c.shape = d.shape) : ((Node.ofValue tree).performBelow c).Matches Value.shape
        ((Node.rerun (Node.ofValue tree)).performBelow d) := by
    refine Node.performBelow_rerun hpure ?_ hcd
    rcases htree with hcommand | ⟨hkeyed, hold⟩
    · exact .inl (Node.isSome_command?_ofValue hcommand)
    · refine .inr ⟨fun h => ?_, ?_⟩
      · obtain ⟨id, kind, rfl⟩ := Node.eq_of_ofValue_eq h
        exact hkeyed id kind rfl
      · rwa [Value.isContainer_congr hc, Value.truthy_congr hc, Value.eq_none_iff,
          Value.kind_congr hc, ← Value.eq_none_iff]
  exact ((hrun.trans (Node.along_matches k path' rfl hend)).trans hcall.symm).outcome_eq ..

end

attribute [local instance] Host.standard in
/-- Nothing stands at the end of the path, and is entered by either way. -/
theorem run_command_eq_call_none :
    let source := Value.map 0 .defaulting [(.text "a", .seq 1 .row [.none])]
    let path := Value.seq 2 (.tuple .plain) [.text "a", .bool false]
    let keys := [Key.text "a", .bool false]
    let tree := Value.map 3 .plain [(.text "b", .map 4 .plain [(.text "set", .int 5)])]
    Key.ofValues (Path.keys path) = .ok keys ∧ (∀ k ∈ keys, k.IsPlain) ∧ keys ≠ [] ∧
      (source.at? keys).getD .none = .none ∧ ∃ r r',
        ((do run source (← Path.command path tree)).exec 5).1 = .ok r ∧
        ((applyAt .invoke source path (.runner 6 tree)).exec 7).1 = .ok r' ∧
        r.shape = r'.shape := by
  intro source path keys tree
  have hplain : ∀ k ∈ keys, k.IsPlain := by decide
  have hne : keys ≠ [] := List.cons_ne_nil _ _
  have hrun : ∃ r, ((do run source (← Path.command path tree)).exec 5).1 = .ok r := ⟨_, rfl⟩
  have hcall : ∃ r', ((applyAt .invoke source path (.runner 6 tree)).exec 7).1 = .ok r' :=
    ⟨_, rfl⟩
  obtain ⟨r, hr⟩ := hrun
  obtain ⟨r', hr'⟩ := hcall
  have hkeys : Key.ofValues (Path.keys path) = .ok keys := rfl
  have hentries : ∀ id kind, tree ≠ .map id kind [] :=
    fun _ _ h => List.cons_ne_nil _ _ (Value.map.inj h).2.2
  have hold : (source.at? keys).getD .none = .none := rfl
  have hsame := run_command_eq_call 6 (Node.isPure_standard _) hkeys
    hplain hne (.inr ⟨hentries, .inr (.inr hold)⟩) 5 7
  rw [hr, hr'] at hsame
  exact ⟨hkeys, hplain, hne, hold, r, r', hr, hr', Except.ok.inj hsame⟩

end Amend
