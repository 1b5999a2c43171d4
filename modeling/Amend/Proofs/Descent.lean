import Amend.Proofs.Carry

/-!
# Places that a tree reaches

`Node.Reaches` walks the keys of a path down a tree, side by side with a value that tells which
positions address one item. Main statement: where no two keys of one node address the same child,
the result holds at a reached place what the node there makes of what the source holds there
(`Reaches.carriedOut`).
-/

namespace Amend.Node

open Update

/-- Walking the keys of a path down a tree, along a value, ends at a node. -/
inductive Reaches : Node → Value → List Key → Node → Prop
  | here (n : Node) (v : Value) : Reaches n v [] n
  | enter {children : List (Key × Node)} {v : Value} {k key : Key} {n m : Node} {path : List Key}
      (mem : (key, n) ∈ children) (same : v.SameChild k key)
      (rest : Reaches n ((v.child? k).getD .none) path m) :
      Reaches (.enter children) v (k :: path) m

/-- No two keys of one node address the same child. The keys of a mapping never do, but two
positions may, such as the first one and the one that counts it from the end. -/
def Apart (n : Node) (v : Value) : Prop :=
  ∀ path children, n.Reaches v path (.enter children) →
    children.Pairwise fun a b => ¬ ((v.at? path).getD .none).SameChild a.1 b.1

/-- What a node is carried out on at a path where the source holds a value, or nothing: on that
value, but below the root a node that is to enter nothing, or a scalar that counts as false, is
carried out on an empty mapping. -/
def Input (n : Node) (path : List Key) (c w : Value) : Prop :=
  if path = [] ∨ n.command?.isSome ∨ c.isContainer ∨ c.truthy then w = c
  else ∃ id, w = .map id .plain []

end Amend.Node

namespace Amend.Value
variable {v w : Value} {k : Key} {path : List Key}

theorem level_eq_empty (h : v.isContainer = false) : v.level = .entries .plain [] := by
  cases v <;> first | rfl | cases h

theorem at?_none_getD : ((Value.none.at? path).getD .none) = .none := by
  cases path <;> rfl

theorem at?_cons_getD :
    (v.at? (k :: path)).getD .none = (((v.child? k).getD .none).at? path).getD .none := by
  rcases h : v.child? k with - | c
  · simp only [at?, h, Option.bind_none, Option.getD_none, at?_none_getD]
  · simp only [at?, h, Option.bind_some, Option.getD_some]

theorem at?_cons_congr (h : v.level = w.level) : v.at? (k :: path) = w.at? (k :: path) := by
  simp only [at?, child?, h]

theorem level_at?_congr (h : v.level = w.level) :
    ((v.at? path).getD .none).level = ((w.at? path).getD .none).level := by
  cases path with
  | nil => exact h
  | cons k path => rw [at?_cons_congr h]

end Amend.Value

namespace Amend.Node
open Update
variable {n m : Node} {children : List (Key × Node)} {key k : Key} {path : List Key}
  {v c w r : Value} {t t' : Trace}

theorem Input.eq_of_isContainer (hi : n.Input path c w) (hc : c.isContainer) : w = c := by
  rwa [Input, if_pos (.inr (.inr (.inl hc)))] at hi

theorem Input.eq_of_command (hi : n.Input path c w) (hn : n.command?.isSome) : w = c := by
  rwa [Input, if_pos (.inr (.inl hn))] at hi

theorem Reaches.congr (h : v.level = w.level) (hr : n.Reaches v path m) : n.Reaches w path m := by
  cases hr with
  | here => exact .here n w
  | enter mem same rest =>
    refine .enter mem ?_ ?_
    · rwa [Value.SameChild, ← h]
    · rwa [Value.child?, ← h]

theorem Apart.congr (h : v.level = w.level) (ha : n.Apart v) : n.Apart w := by
  intro path children hr
  have := ha path children (hr.congr h.symm)
  simp only [Value.SameChild, Value.level_at?_congr h] at this
  exact this

theorem Apart.child (ha : Apart (.enter children) v) (mem : (key, n) ∈ children)
    (same : v.SameChild k key) : n.Apart ((v.child? k).getD .none) := by
  intro path children' hr
  have := ha (k :: path) children' (.enter mem same hr)
  rwa [Value.at?_cons_getD] at this

theorem Apart.act (a : Action) (v : Value) : Apart (.act a) v := by
  intro path children hr
  cases hr

theorem Apart.of_children (hpair : children.Pairwise fun a b => ¬ v.SameChild a.1 b.1)
    (hchild : ∀ e ∈ children, e.2.Apart ((v.child? e.1).getD .none)) :
    Apart (.enter children) v := by
  intro path children' hr
  cases hr with
  | here => exact hpair
  | enter mem same rest =>
    have hk : v.child? _ = v.child? _ := Scratch.child?_congr same
    rw [Value.at?_cons_getD, hk]
    rw [hk] at rest
    exact hchild _ mem _ _ rest

theorem Apart.singleton (h : n.Apart ((v.child? k).getD .none)) : Apart (.enter [(k, n)]) v := by
  refine .of_children (List.pairwise_singleton _ _) fun e he => ?_
  obtain rfl := List.mem_singleton.1 he
  exact h

/-- A child that is not taken as it is has no level of its own, no more than what replaces it. -/
theorem input_eq_ok (h : n.input c t = (.ok w, t')) : n.Input [k] c w ∧ c.level = w.level := by
  unfold input at h
  split at h
  · next hc =>
    obtain ⟨rfl, rfl⟩ := pure_eq_ok.1 h
    refine ⟨?_, rfl⟩
    rw [Input, if_pos (.inr (by simpa [or_assoc] using hc))]
  · next hc =>
    simp only [bind_eq_ok, fresh_eq_ok, pure_eq_ok] at h
    obtain ⟨id, t₁, ⟨rfl, rfl⟩, rfl, rfl⟩ := h
    simp only [Bool.or_eq_true, not_or, Bool.not_eq_true] at hc
    obtain ⟨⟨hcommand, hcont⟩, htrue⟩ := hc
    refine ⟨?_, Value.level_eq_empty hcont⟩
    rw [Input, if_neg (by simp [hcommand, hcont, htrue])]
    exact ⟨t.next, rfl⟩

theorem announce_next {key : Option Key} (h : n.announce key t = (.ok (), t')) :
    t'.next = t.next := by
  unfold announce at h
  rcases hentry : n.logEntry? key with - | entry <;> rw [hentry] at h <;> cases h <;> rfl

variable [Host]

theorem perform_enter_eq_ok (h : (Node.enter children).perform v t = (.ok r, t')) :
    (children = [] ∧ v.isContainer = false ∧ r = v) ∨
      ∃ s t₁, (children = [] → v.isContainer) ∧ Scratch.ofContainer v = .ok v.level ∧
        performAll children v.level t = (.ok s, t₁) ∧ s.rebuild v t₁ = (.ok r, t') := by
  simp only [perform] at h
  split at h
  · next hc =>
    obtain ⟨rfl, -⟩ := pure_eq_ok.1 h
    exact .inl (by simpa using hc)
  · next hc =>
    simp only [bind_eq_ok, lift_eq_ok] at h
    obtain ⟨s₀, _, ⟨hs₀, rfl⟩, s, t₁, hall, hr⟩ := h
    have hlevel := Scratch.ofContainer_eq_ok hs₀
    subst hlevel
    exact .inr ⟨s, t₁, by simpa using hc, hs₀, hall, hr⟩

/-- The result holds at a reached place what the node there makes of what the source holds. -/
theorem Reaches.carriedOut (hr : n.Reaches v path m) (ha : n.Apart v)
    (h : n.perform v t = (.ok r, t')) :
    ∃ w r' t₁ t₂, m.Input path ((v.at? path).getD .none) w ∧ t.next ≤ t₁.next ∧
      m.perform w t₁ = (.ok r', t₂) ∧ r.at? path = some r' := by
  induction path generalizing n v r t t' with
  | nil =>
    cases hr
    exact ⟨v, r, t, t', by rw [Input, if_pos (.inl rfl)]; rfl, Nat.le_refl _, h, rfl⟩
  | cons k path ih =>
    cases hr with
    | enter mem same rest =>
      rename_i children key n
      rcases perform_enter_eq_ok h with ⟨rfl, -, -⟩ | ⟨s, t₀, -, -, hall, hreb⟩
      · cases mem
      -- the run over the children leaves at `k` what the child's node has made
      obtain ⟨w, r₁, t₁, t₂, t₃, hle, hin, hperf, hat⟩ :=
        performAll_at hall (ha [] children (.here _ _)) mem same
      change n.input ((v.child? k).getD .none) t₁ = _ at hin
      obtain ⟨hInput, hlevel⟩ := input_eq_ok (k := k) hin
      obtain ⟨w', r', t₄, t₅, hInput', hle', hperf', hat'⟩ :=
        ih (rest.congr hlevel) ((ha.child mem same).congr hlevel) hperf
      have hle₂ := Nat.le_trans hle (Nat.le_trans ((input_grows ..).le hin) hle')
      refine ⟨w', r', t₄, t₅, ?_, hle₂, hperf', ?_⟩
      · rw [Value.at?_cons_getD]
        cases path with
        | nil =>
          cases rest
          rw [Input, if_pos (.inl rfl)] at hInput'
          cases hInput'
          exact hInput
        | cons l path =>
          rw [Value.at?_cons_congr hlevel]
          simpa only [Input, reduceCtorEq, false_or] using hInput'
      · rw [Value.at?, Scratch.child?_rebuild hreb, hat]
        exact hat'

theorem run_eq_ok {source commands : Value} {next : Ident}
    (h : (Amend.run source commands).exec next = (.ok r, t')) :
    ∃ t, t.next = next ∧ (ofValue commands).perform source t = (.ok r, t') := by
  obtain ⟨_, t, hann, h⟩ := bind_eq_ok.1 h
  exact ⟨t, announce_next hann, h⟩

end Amend.Node
