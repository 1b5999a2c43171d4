import Amend.Node
import Amend.Proofs.Children

/-!
# One child after another

`Node.carry` is what `performAll` does for one key: read the child, carry the node out on it, write
the result. Main statements: a run leaves the children alone that none of its keys addresses
(`child?_performAll_of_not_same`), and where no two keys address the same child, it leaves at each
key what the key's node made of the child that stood there at the start (`performAll_at`). No
identity is handed out twice (`perform_grows`).
-/

namespace Amend

open Update

theorem Scratch.rebuild_grows (s : Scratch) (v : Value) : (s.rebuild v).Grows := by
  cases s with
  | items kind xs =>
    rw [Scratch.rebuild_items]
    split
    · exact .throw _
    · exact .bind .fresh fun _ => .pure _
  | entries kind es =>
    rw [Scratch.rebuild_entries]
    exact .bind .fresh fun _ => .pure _

namespace Node

theorem announce_grows (key : Option Key) (n : Node) : (n.announce key).Grows := by
  unfold announce
  split
  · exact .record _
  · exact .pure _

theorem input_grows (c : Value) (n : Node) : (n.input c).Grows := by
  unfold input
  split
  · exact .pure _
  · exact .bind .fresh fun _ => .pure _

end Node

variable [Host]

theorem Merge.update_grows (kind : MapKind) (es : Entries Value) (operand : Value) :
    (update kind es operand).Grows := by
  cases kind with
  | defaulting => exact Host.update_grows es operand
  | _ => exact .bind (.lift _) fun _ => .pure _

theorem Action.perform_grows (a : Action) (v : Value) : (a.perform v).Grows := by
  cases a with
  | set operand => exact .pure _
  | push operand | unshift operand => exact .bind (.lift _) fun _ => Scratch.rebuild_grows ..
  | merge operand =>
    exact .bind (.lift _) fun _ => .bind (Merge.update_grows ..) fun _ => Scratch.rebuild_grows ..
  | defaults operand =>
    refine .bind (.lift _) fun _ => ?_
    dsimp only
    split
    · exact Scratch.rebuild_grows ..
    · exact .throw _
  | call f arg => exact Host.call_grows f arg v
  | refuse kind => exact .throw _

namespace Node
variable {n m : Node} {ns rest : List (Key × Node)} {key k l : Key} {s s' : Scratch}
  {v c w r : Value} {t t' : Trace}

/-- Carries a node out on the child at a key. -/
def carry (key : Key) (n : Node) (scratch : Scratch) : Update Scratch := do
  let child ← Update.lift (scratch.child key)
  n.announce (some key)
  let v ← n.perform (← n.input child)
  Update.lift (scratch.assign key v)

theorem performAll_cons (key : Key) (n : Node) (rest : List (Key × Node)) (s : Scratch) :
    performAll ((key, n) :: rest) s = carry key n s >>= performAll rest := by
  simp only [performAll, carry, bind_assoc]

mutual

theorem perform_grows : ∀ (n : Node) (v : Value), (n.perform v).Grows
  | .act action, v => action.perform_grows v
  | .rerun tree, v => by
    simp only [perform]
    exact .bind (announce_grows ..) fun _ => perform_grows tree v
  | .enter children, v => by
    simp only [perform]
    split
    · exact .pure _
    · exact .bind (.lift _) fun s => .bind (performAll_grows children s) fun _ =>
        Scratch.rebuild_grows ..
  | .misplaced kind, v => .throw _

theorem performAll_grows : ∀ (ns : List (Key × Node)) (s : Scratch), (performAll ns s).Grows
  | [], s => .pure _
  | (key, n) :: rest, s => by
    simp only [performAll]
    refine .bind (.lift _) fun c => .bind (announce_grows ..) fun _ => ?_
    refine .bind (input_grows ..) fun w => .bind (perform_grows n w) fun _ => ?_
    exact .bind (.lift _) fun s' => performAll_grows rest s'

end

theorem carry_grows (key : Key) (n : Node) (s : Scratch) : (carry key n s).Grows :=
  .bind (.lift _) fun _ => .bind (announce_grows ..) fun _ => .bind (input_grows ..) fun w =>
    .bind (perform_grows n w) fun _ => .lift _

theorem carry_eq_ok (h : carry key n s t = (.ok s', t')) :
    ∃ c w r t₁ t₂, s.child key = .ok c ∧ t.next ≤ t₁.next ∧ n.input c t₁ = (.ok w, t₂) ∧
      n.perform w t₂ = (.ok r, t') ∧ s.assign key r = .ok s' := by
  simp only [carry, bind_eq_ok, lift_eq_ok] at h
  obtain ⟨c, _, ⟨hc, rfl⟩, _, t₁, hann, w, t₂, hw, r, t₃, hr, hs, rfl⟩ := h
  exact ⟨c, w, r, t₁, t₂, hc, (announce_grows ..).le hann, hw, hr, hs⟩

theorem kind_performAll (h : performAll ns s t = (.ok s', t')) : s'.kind = s.kind := by
  induction ns generalizing s t with
  | nil =>
    obtain ⟨rfl, -⟩ := pure_eq_ok.1 h
    rfl
  | cons e ns ih =>
    rw [performAll_cons, bind_eq_ok] at h
    obtain ⟨s₁, t₁, h₁, h⟩ := h
    obtain ⟨c, w, r, -, -, -, -, -, -, hs⟩ := carry_eq_ok h₁
    exact (ih h).trans (Scratch.kind_assign hs)

theorem child?_performAll_of_not_same (h : performAll ns s t = (.ok s', t'))
    (hk : ∀ e ∈ ns, ¬ s.SameChild k e.1) : s'.child? k = s.child? k := by
  induction ns generalizing s t with
  | nil =>
    obtain ⟨rfl, rfl⟩ := pure_eq_ok.1 h
    rfl
  | cons e ns ih =>
    obtain ⟨key, n⟩ := e
    rw [performAll_cons, bind_eq_ok] at h
    obtain ⟨s₁, t₁, h₁, h⟩ := h
    obtain ⟨c, w, r, -, -, -, -, -, -, hs⟩ := carry_eq_ok h₁
    have hrest : ∀ e ∈ ns, ¬ s₁.SameChild k e.1 := fun e he hsame =>
      hk e (List.mem_cons_of_mem _ he) ((Scratch.sameChild_assign hs).1 hsame)
    rw [ih h hrest]
    exact Scratch.child?_assign_of_not_same hs (hk _ (List.mem_cons_self ..))

theorem sameChild_of_performAll (h : performAll ns s t = (.ok s', t')) (hmem : (key, n) ∈ ns) :
    s.SameChild key key := by
  induction ns generalizing s t with
  | nil => cases hmem
  | cons e ns ih =>
    obtain ⟨key', n'⟩ := e
    rw [performAll_cons, bind_eq_ok] at h
    obtain ⟨s₁, t₁, h₁, h⟩ := h
    obtain ⟨c, w, r, -, -, -, -, -, -, hs⟩ := carry_eq_ok h₁
    rcases List.mem_cons.1 hmem with heq | hmem
    · cases heq
      exact Scratch.sameChild_of_assign hs
    · exact (Scratch.sameChild_assign hs).1 (ih h hmem)

/-- What a run over keys that address different children makes of the child at one of them. -/
theorem performAll_at (h : performAll ns s t = (.ok s', t'))
    (hapart : ns.Pairwise fun a b => ¬ s.SameChild a.1 b.1) (hmem : (key, n) ∈ ns)
    (hk : s.SameChild k key) :
    ∃ w r t₁ t₂ t₃, t.next ≤ t₁.next ∧ n.input ((s.child? k).getD .none) t₁ = (.ok w, t₂) ∧
      n.perform w t₂ = (.ok r, t₃) ∧ s'.child? k = some r := by
  induction ns generalizing s t with
  | nil => cases hmem
  | cons e ns ih =>
    obtain ⟨key', n'⟩ := e
    rw [performAll_cons, bind_eq_ok] at h
    obtain ⟨s₁, t₁, h₁, h⟩ := h
    have hle := (carry_grows key' n' s).le h₁
    obtain ⟨c, w, r, t₂, t₃, hc, hle₂, hw, hr, hs⟩ := carry_eq_ok h₁
    obtain ⟨hhead, htail⟩ := List.pairwise_cons.1 hapart
    rcases List.mem_cons.1 hmem with heq | hmem
    · cases heq
      refine ⟨w, r, t₂, t₃, t₁, hle₂, ?_, hr, ?_⟩
      · rwa [Scratch.child?_congr hk, ← Scratch.child_eq_ok hc]
      · have hrest : ∀ e ∈ ns, ¬ s₁.SameChild k e.1 := fun e he hsame =>
          hhead e he (hk.symm.trans ((Scratch.sameChild_assign hs).1 hsame))
        rw [child?_performAll_of_not_same h hrest]
        exact Scratch.child?_assign_same hs hk
    · have hne : ¬ s.SameChild k key' := fun hsame =>
        hhead _ hmem (hsame.symm.trans hk)
      have htail' : ns.Pairwise fun a b => ¬ s₁.SameChild a.1 b.1 :=
        htail.imp fun hab hsame => hab ((Scratch.sameChild_assign hs).1 hsame)
      obtain ⟨w, r, t₂, t₃, t₄, hle', hw, hr, hat⟩ :=
        ih h htail' hmem ((Scratch.sameChild_assign hs).2 hk)
      rw [Scratch.child?_assign_of_not_same hs hne] at hw
      exact ⟨w, r, t₂, t₃, t₄, Nat.le_trans hle hle', hw, hr, hat⟩

end Node

end Amend
