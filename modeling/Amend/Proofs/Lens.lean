import Amend.Proofs.Places

/-!
# Setting the value at a path

`applyAt .set` beside `Value.at?`, as a writer beside its reader. Main statement
(`applyAt_set_lens`): what was set is read back, the second of two settings wins, and setting what
is there already gives the same value, provided that the containers on the way are of kinds that
entering does not change (`Kind.isStable`).
-/

namespace Amend

namespace Node
variable {path : List Key} {v w r : Value}

theorem eval_along_set_ok [Host] (h : ((act (.set v)).along path).eval w = some r) (v' : Value) :
    ∃ r', ((act (.set v')).along path).eval w = some r' := by
  induction path generalizing w r with
  | nil => exact ⟨_, rfl⟩
  | cons k path ih =>
    rw [along_cons] at h
    obtain ⟨s, hs, c, hc, a, ha, s', hs', hr⟩ := eval_enter_singleton_eq_some.1 h
    have hgiven : given c ((act (.set v')).along path) = given c ((act (.set v)).along path) := by
      cases path <;> rfl
    obtain ⟨a', ha'⟩ := ih ha
    obtain ⟨s'', hs''⟩ := Scratch.assign_ok hs' a'
    have hform : s''.form = s'.form := by rw [Scratch.form_assign hs'', Scratch.form_assign hs']
    have hsome : (s''.pack w).isSome := by rw [Scratch.isSome_pack hform, hr]; rfl
    obtain ⟨r', hr'⟩ := Option.isSome_iff_exists.1 hsome
    exact ⟨r', eval_enter_singleton_eq_some.2 ⟨s, hs, c, hc, a', hgiven ▸ ha', s'', hs'', hr'⟩⟩

end Node

open Update in
/-- To set the value at a path and to read there go together. -/
theorem applyAt_set_lens [Host] {source path v w r : Value} {keys : List Key} {next : Ident}
    {trace : Trace} (hkeys : Key.ofValues (Path.keys path) = .ok keys)
    (hplain : ∀ k ∈ keys, k.IsPlain)
    (hset : (applyAt .set source path v).exec next = (.ok r, trace)) :
    r.at? keys = some v ∧
    (∀ next₁ next₂, ∃ r₁ r₂, ((applyAt .set r path w).exec next₁).1 = .ok r₁ ∧
      ((applyAt .set source path w).exec next₂).1 = .ok r₂ ∧ r₁.shape = r₂.shape) ∧
    (source.at? keys = some v → source.StableAlong keys → r.shape = source.shape) := by
  have hcomes (s x : Value) :
      (applyAt .set s path x).ComesTo Value.shape
        (((Node.act (.set x)).along keys).eval s.shape) := by
    rw [← Node.ofOperand_set]
    exact applyAt_comesTo hkeys hplain (Node.isPure_set x)
  have heval := (hcomes source v).of_ok (congrArg Prod.fst hset)
  refine ⟨?_, fun next₁ next₂ => ?_, fun hat hstable => ?_⟩
  · obtain ⟨t, hperf⟩ := applyAt_eq_ok hkeys hplain hset
    obtain ⟨w', r', t₁, t₂, hr', hat⟩ := Node.at?_along hperf
    rw [Node.ofOperand_set] at hr'
    obtain ⟨rfl, -⟩ := pure_eq_ok.1 hr'
    exact hat
  · obtain ⟨r', hr'⟩ := Node.eval_along_set_ok heval w
    have hagain := Node.eval_along_of_eval_along (m := .act (.set w)) (q := .act (.set w))
      rfl rfl rfl (fun _ => rfl) heval
    obtain ⟨r₁, h₁, hr₁⟩ := (hagain.trans hr' ▸ hcomes r w).exists_ok ⟨next₁, []⟩
    obtain ⟨r₂, h₂, hr₂⟩ := (hr' ▸ hcomes source w).exists_ok ⟨next₂, []⟩
    exact ⟨r₁, r₂, h₁, h₂, hr₁.trans hr₂.symm⟩
  · obtain ⟨x, hx, hr⟩ := Node.eval_along_of_at? hat hstable heval
    cases hx
    rw [hr, ← Value.shape_replaceAt, Value.replaceAt_at? hat]

attribute [local instance] Host.standard in
/-- The key `true` finds the entry at 1, and the last field of the point there holds what is set. -/
theorem applyAt_set_lens_point :
    let source := Value.map 0 .ordered [(.int 1, .seq 1 (.tuple .point) [.text "x", .bool false])]
    let path := Value.seq 2 .list [.bool true, .int (-1)]
    let keys := [Key.bool true, .int (-1)]
    Key.ofValues (Path.keys path) = .ok keys ∧ (∀ k ∈ keys, k.IsPlain) ∧
      ∃ r trace, (applyAt .set source path (.bool false)).exec 3 = (.ok r, trace) ∧
        r.at? keys = some (.bool false) ∧ r.shape = source.shape := by
  intro source path keys
  have hset : ∃ r trace, (applyAt .set source path (.bool false)).exec 3 = (.ok r, trace) :=
    ⟨_, _, rfl⟩
  obtain ⟨r, trace, hset⟩ := hset
  have hplain : ∀ k ∈ keys, k.IsPlain :=
    List.forall_mem_cons.2 ⟨fun c => by cases c <;> decide,
      List.forall_mem_singleton.2 fun c => by cases c <;> decide⟩
  obtain ⟨hat, -, hsame⟩ := applyAt_set_lens (w := .none) rfl hplain hset
  have hstable : source.StableAlong keys := by
    refine ⟨rfl, fun c hc => ?_⟩
    cases hc
    exact ⟨rfl, fun c _ => trivial⟩
  exact ⟨rfl, hplain, r, trace, hset, hat, hsame rfl hstable⟩

end Amend
