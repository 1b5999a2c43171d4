import Amend.Proofs.Along

/-!
# Runs that give the same

More rules of `Update.Matches`, and what they say of trees. Main statement (`Node.perform_matches`):
carrying a pure node out on values of one shape comes to the same, so a fault does not depend on the
identities of objects, no more than a success does.
-/

namespace Amend

namespace Update.Matches
variable {α α' β β' : Type} {f : α → α'} {g : β → β'} {u w x : Update α} {a b : α} {fault : Fault}
  {k k' : α → Update β} {t t' : Trace}

theorem pure_of_ok (h : u.Matches f w) (hw : (w t).1 = .ok a) : u.Matches f (Pure.pure a) := by
  refine ⟨fun t₁ _ => (h.outcome_eq t₁ t).trans ?_⟩
  rw [hw]
  rfl

theorem throw_of_error (h : u.Matches f w) (hw : (w t).1 = .error fault) :
    u.Matches f (MonadExcept.throw fault) := by
  refine ⟨fun t₁ _ => (h.outcome_eq t₁ t).trans ?_⟩
  rw [hw]
  rfl

/-- Two updates that cannot fail match when nothing is kept of their results. -/
theorem of_comesTo {γ : Type} {c : γ} {u w : Update α} (hu : u.ComesTo (fun _ => c) (some c))
    (hw : w.ComesTo (fun _ => c) (some c)) : u.Matches (fun _ => c) w := by
  refine ⟨fun t t' => ?_⟩
  obtain ⟨a, ha, -⟩ := hu.exists_ok t
  obtain ⟨b, hb, -⟩ := hw.exists_ok t'
  rw [ha, hb]
  rfl

/-- A first step that cannot fail may be left out on one side. -/
theorem skip {w : Update β} {c : α'} (hu : u.ComesTo f (some c))
    (hk : ∀ {a t t₁}, u t = (.ok a, t₁) → (k a).Matches g w) : (u >>= k).Matches g w := by
  refine ⟨fun t t' => ?_⟩
  obtain ⟨a, ha, -⟩ := hu.exists_ok t
  have hu' : u t = (.ok a, (u t).2) := Prod.ext ha rfl
  rw [Update.bind_of_ok hu']
  exact (hk hu').outcome_eq ..

theorem bind_throw (hu : u.Matches f (MonadExcept.throw fault)) :
    (u >>= k).Matches g (MonadExcept.throw fault) := by
  refine ⟨fun t t' => ?_⟩
  have hfault : u t = (.error fault, (u t).2) := Prod.ext (hu.symm.of_error (t := t') rfl t) rfl
  rw [bind_of_error hfault]
  rfl

theorem comesTo_of_pure (h : u.Matches f (Pure.pure a)) : u.ComesTo f (some (f a)) := by
  refine ⟨fun t => ?_⟩
  obtain ⟨b, hb, hba⟩ := h.symm.of_ok (t := t) rfl t
  rw [hb, ← hba]
  rfl

end Update.Matches

section
open Update
variable {v w : Value}

namespace Node

theorem announce_matches (key key' : Option Key) (n m : Node) :
    (n.announce key).Matches (fun _ => ()) (m.announce key') :=
  .of_comesTo (n.announce_comesTo key) (m.announce_comesTo key')

theorem input_matches {c d : Value} (n : Node) (h : c.shape = d.shape) :
    (n.input c).Matches Value.shape (n.input d) := by
  unfold input
  rw [Value.isContainer_congr h, Value.truthy_congr h]
  split
  · exact .pure h
  · exact .bind .fresh fun id id' _ => .pure rfl

variable [Host]

mutual

/-- Carrying a pure node out on values of one shape comes to the same. -/
theorem perform_matches : ∀ (n : Node), n.IsPure → ∀ {v w : Value}, v.shape = w.shape →
    (n.perform v).Matches Value.shape (n.perform w)
  | .act _, hn, v, w, h => hn v w h
  | .rerun tree, hn, _, _, h =>
    (tree.announce_matches none none tree).bind fun _ _ _ => perform_matches tree hn h
  | .enter children, hn, v, w, h => by
    rw [perform, perform, Value.isContainer_congr h]
    split
    · exact .pure h
    · refine .bind (.lift (Scratch.ofContainer_congr h)) fun s s' hs => ?_
      refine .bind (performAll_matches children hn hs) fun s₁ s₁' hs₁ => ?_
      exact Scratch.rebuild_matches hs₁ h
  | .misplaced _, _, _, _, _ => .throw _

theorem performAll_matches : ∀ (ns : List (Key × Node)), EveryBelow Action.IsPure ns →
    ∀ {s s' : Scratch}, s.shape = s'.shape →
      (performAll ns s).Matches Scratch.shape (performAll ns s')
  | [], _, _, _, h => .pure h
  | (key, n) :: rest, hns, s, s', h => by
    obtain ⟨hn, hrest⟩ := hns
    rw [performAll, performAll]
    refine .bind (.lift (Scratch.child_congr_shape h key)) fun c c' hc => ?_
    refine (n.announce_matches _ _ n).bind fun _ _ _ => ?_
    refine .bind (n.input_matches hc) fun x x' hx => ?_
    refine .bind (perform_matches n hn hx) fun r r' hr => ?_
    refine .bind (.lift (Scratch.assign_congr h hr key)) fun s₁ s₁' hs₁ => ?_
    exact performAll_matches rest hrest hs₁

end

end Node

end

end Amend
