import Amend.Value.Order

/-!
# Sorting loses nothing

Whatever an order says of two items, a sort by it that does not fail gives the items that it was
given. Merging takes items from the front of two runs (`Merging.items` stays the same up to order),
the stack holds the runs that wait to be merged, and every step of `stackRuns` takes a run off the
row. `Yields` is the rule for computations that carry patience. Main statements: `sort_perm`, and
for the entries of a mapping `Key.sortEntries_perm`.
-/

namespace Amend.Sort

theorem exists_of_bind_eq_ok {ε α β : Type} {e : Except ε α} {f : α → Except ε β} {b : β}
    (h : (e >>= f) = .ok b) : ∃ a, e = .ok a ∧ f a = .ok b := by
  rcases e with fault | a
  · cases h
  · exact ⟨a, rfl, h⟩

section
variable {ε α β : Type} {P : α → Prop} {Q : β → Prop} {u : Patiently ε α} {f : α → Patiently ε β}

/-- Whatever the patience, what a computation gives has a property. -/
def Yields (u : Patiently ε α) (P : α → Prop) : Prop := ∀ n a n', u n = .ok (a, n') → P a

namespace Yields

theorem pure {a : α} (h : P a) : Yields (pure a : Patiently ε α) P := by
  intro n b n' hb
  cases hb
  exact h

theorem lift {e : Except ε α} (h : ∀ a, e = .ok a → P a) : Yields (liftM e : Patiently ε α) P := by
  intro n b n' hb
  rcases e with fault | a
  · cases hb
  · cases hb
    exact h b rfl

theorem bind (hu : Yields u P) (hf : ∀ a, P a → Yields (f a) Q) : Yields (u >>= f) Q := by
  intro n b n' hb
  change (u n >>= fun p => f p.1 p.2) = .ok (b, n') at hb
  rcases hun : u n with fault | ⟨a, n₁⟩ <;> rw [hun] at hb
  · cases hb
  · exact hf a (hu n a n₁ hun) n₁ b n' hb

/-- A step whose result plays no part. -/
theorem bind_any (hf : ∀ a, Yields (f a) Q) : Yields (u >>= f) Q :=
  bind (P := fun _ => True) (fun _ _ _ _ => trivial) fun a _ => hf a

theorem mono {P' : α → Prop} (hu : Yields u P) (h : ∀ a, P a → P' a) : Yields u P' :=
  fun n a n' ha => h a (hu n a n' ha)

end Yields

end

section
variable {ε α : Type} {less : Less ε α} {e : End} {m m' : Merging α} {n : Nat}
  {xs chain rest run : List α} {x : α}

theorem passWaiting_perm (h : passWaiting less e m = .ok (m', n)) :
    m'.items.Perm m.items := by
  unfold passWaiting at h
  split at h
  · cases h
    exact .refl _
  · obtain ⟨k, -, h⟩ := exists_of_bind_eq_ok h
    cases h
    split
    · exact m.takeWaiting_perm _
    · rw [Merging.takeFlowing_items]
      exact m.takeWaiting_perm _

theorem passFlowing_perm (h : passFlowing less e m = .ok (m', n)) :
    m'.items.Perm m.items := by
  unfold passFlowing at h
  split at h
  · cases h
    exact .refl _
  · obtain ⟨k, -, h⟩ := exists_of_bind_eq_ok h
    cases h
    have hflowing := m.takeFlowing_items n
    split
    · rw [hflowing]
    · rw [← hflowing]
      exact Merging.takeWaiting_perm 1 _

theorem passBoth_perm (h : passBoth less e m = .ok (m', n)) : m'.items.Perm m.items := by
  have hpass {first second : Merging α → Except ε (Merging α × Nat)}
      (hfirst : ∀ m m' n, first m = .ok (m', n) → m'.items.Perm m.items)
      (hsecond : ∀ m m' n, second m = .ok (m', n) → m'.items.Perm m.items)
      (h : (do
        let p ← first m
        if p.1.isDone then return p
        let q ← second p.1
        return (q.1, max p.2 q.2)) = Except.ok (m', n)) : m'.items.Perm m.items := by
    obtain ⟨p, h₁, h⟩ := exists_of_bind_eq_ok h
    split at h
    · cases h
      exact hfirst m _ _ h₁
    · obtain ⟨q, h₂, h⟩ := exists_of_bind_eq_ok h
      cases h
      exact (hsecond p.1 _ _ h₂).trans (hfirst m _ _ h₁)
  cases e
  · exact hpass (fun _ _ _ => passWaiting_perm) (fun _ _ _ => passFlowing_perm) h
  · exact hpass (fun _ _ _ => passFlowing_perm) (fun _ _ _ => passWaiting_perm) h

theorem proceed_perm (steps : Nat) (pace : Pace) (m : Merging α) :
    Yields (proceed less e steps pace m) fun m' => m'.items.Perm m.items := by
  induction steps generalizing pace m with
  | zero => exact .pure (.refl _)
  | succ steps ih =>
    cases pace with
    | single flowing streak =>
      rw [proceed]
      split
      · split
        · exact .pure (.refl _)
        · refine .bind_any fun flows => .bind_any fun patience => (ih _ _).mono fun m' hm' => ?_
          refine hm'.trans ?_
          split
          · rw [Merging.takeFlowing_items]
          · exact m.takeWaiting_perm 1
      · exact .pure (.refl _)
    | stretches =>
      rw [proceed]
      split
      · exact .pure (.refl _)
      · refine .bind (.lift fun p hp => passBoth_perm hp) fun p hp => ?_
        obtain ⟨m₁, longest⟩ := p
        have hrest (pace : Pace) :
            Yields (proceed less e steps pace m₁) fun m' => m'.items.Perm m.items :=
          (ih pace m₁).mono fun m' hm' => hm'.trans hp
        dsimp only
        split
        · exact .pure hp
        · split
          · exact .bind_any fun _ => hrest _
          · exact .bind_any fun _ => hrest _

theorem mergeFrom_perm (e : End) (waiting flowing : List α) :
    Yields (mergeFrom less e waiting flowing) fun xs => xs.Perm (flowing ++ waiting) := by
  refine .bind (proceed_perm _ _ _) fun m hm => .pure (hm.trans ?_)
  rw [Merging.takeFlowing_items]
  exact .refl _

theorem mergeFrom_finish_perm (first second : List α) :
    Yields (List.reverse <$> mergeFrom less .finish second.reverse first.reverse)
      fun xs => xs.Perm (first ++ second) := by
  rw [← bind_pure_comp]
  refine .bind (mergeFrom_perm .finish second.reverse first.reverse) fun xs hxs => .pure ?_
  have hreverse : xs.Perm (first ++ second) :=
    hxs.trans ((List.reverse_perm first).append (List.reverse_perm second))
  exact (List.reverse_perm xs).trans hreverse

theorem merge_perm (first second : List α) :
    Yields (merge less first second) fun xs => xs.Perm (first ++ second) := by
  unfold merge
  split
  · next s hs =>
    refine .bind_any fun i => ?_
    simp only [List.splitAt_eq]
    -- what is taken from both ends stays in its place
    have hparts {merged : List α} (j : Nat)
        (hmerged : merged.Perm (first.drop i ++ second.take j)) :
        (first.take i ++ merged ++ second.drop j).Perm (first ++ second) :=
      calc (first.take i ++ merged ++ second.drop j).Perm
            (first.take i ++ (first.drop i ++ second.take j) ++ second.drop j) :=
              (hmerged.append_left _).append_right _
        _ = (first.take i ++ first.drop i) ++ (second.take j ++ second.drop j) := by
            simp only [List.append_assoc]
        _ = first ++ second := by rw [List.take_append_drop, List.take_append_drop]
    split
    · next f hf =>
      refine .bind_any fun j => ?_
      split
      · next hempty =>
        refine .pure (hparts _ ?_)
        rw [List.isEmpty_iff.1 hempty, List.append_nil]
      · split
        · refine .bind (mergeFrom_perm .start _ _) fun merged hmerged => .pure (hparts _ ?_)
          exact hmerged.trans List.perm_append_comm
        · exact .bind (mergeFrom_finish_perm _ _) fun merged hmerged => .pure (hparts _ hmerged)
    · next hnone =>
      have hnil : first.drop i = [] := by
        rw [← List.getLast?_eq_none_iff, Option.eq_none_iff_forall_ne_some]
        exact hnone
      have hbefore : first.take i = first := by
        rw [← List.append_nil (first.take i), ← hnil, List.take_append_drop]
      rw [hbefore]
      exact .pure (.refl _)
  · next hnone =>
    have hnil : second = [] := by
      cases second with
      | nil => rfl
      | cons s second => exact absurd rfl (hnone s)
    rw [hnil, List.append_nil]
    exact .pure (.refl _)

end

/-- The items of the runs on a stack, those of the last run first. -/
def stacked {α : Type} (stack : List (Run α)) : List α := stack.flatMap Run.items

theorem stacked_cons {α : Type} (run : Run α) (stack : List (Run α)) :
    stacked (run :: stack) = run.items ++ stacked stack := List.flatMap_cons

section
variable {ε α : Type} {less : Less ε α}

theorem join_perm (first second : Run α) :
    Yields (join less first second) fun r => r.items.Perm (first.items ++ second.items) :=
  .bind (merge_perm _ _) fun _ hmerged => .pure hmerged

theorem settle_perm (power : Nat) (last : Run α) (stack : List (Run α)) :
    Yields (settle less power last stack) fun stack' =>
      (stacked stack').Perm (last.items ++ stacked stack) := by
  induction stack generalizing last with
  | nil => exact .pure (.refl _)
  | cons before stack ih =>
    rw [settle]
    split
    · refine .bind (join_perm before last) fun joined hjoined => ?_
      refine (ih joined).mono fun stack' hstack => hstack.trans ?_
      rw [stacked_cons, ← List.append_assoc]
      exact (hjoined.trans List.perm_append_comm).append_right _
    · exact .pure (.refl _)

theorem collapse_perm (last : Run α) (stack : List (Run α)) :
    Yields (collapse less last stack) fun r => r.items.Perm (last.items ++ stacked stack) := by
  induction last, stack using collapse.induct with
  | case1 last =>
    rw [collapse]
    exact .pure (.of_eq (List.append_nil _).symm)
  | case2 last before =>
    rw [collapse, stacked_cons]
    refine (join_perm before last).mono fun r hr => ?_
    rw [stacked, List.flatMap_nil, List.append_nil]
    exact hr.trans List.perm_append_comm
  | case3 last before third stack hshort ih =>
    rw [collapse, if_pos hshort]
    refine .bind (join_perm third before) fun joined hjoined => ?_
    refine (ih joined).mono fun r hr => hr.trans ?_
    rw [stacked_cons, stacked_cons, stacked_cons, ← List.append_assoc before.items]
    exact ((hjoined.trans List.perm_append_comm).append_right _).append_left _
  | case4 last before third stack hshort ih =>
    rw [collapse, if_neg hshort]
    refine .bind (join_perm before last) fun joined hjoined => ?_
    refine (ih joined).mono fun r hr => hr.trans ?_
    rw [stacked_cons before, ← List.append_assoc]
    exact (hjoined.trans List.perm_append_comm).append_right _

end

section
variable {ε α : Type} {less : Less ε α} {xs run rest : List α}

/-- A chain and what comes after it make up the row. -/
theorem append_of_spanChain {goesOn : α → α → Except ε Bool} {before : α}
    (h : spanChain goesOn before xs = .ok (run, rest)) : run ++ rest = xs := by
  induction xs generalizing before run rest with
  | nil =>
    cases h
    rfl
  | cons x xs ih =>
    obtain ⟨goes, -, h⟩ := exists_of_bind_eq_ok h
    split at h
    · obtain ⟨⟨chain, rest'⟩, hspan, h⟩ := exists_of_bind_eq_ok h
      cases h
      rw [List.cons_append, ih hspan]
    · cases h
      rfl

/-- The run that a row starts with is not empty unless the row is. -/
theorem splitRun_perm (h : splitRun less xs = .ok (run, rest)) :
    (run ++ rest).Perm xs ∧ (run = [] → xs = []) := by
  unfold splitRun at h
  split at h
  · next x y xs =>
    obtain ⟨falls, -, h⟩ := exists_of_bind_eq_ok h
    split at h
    · obtain ⟨⟨chain, rest'⟩, hspan, h⟩ := exists_of_bind_eq_ok h
      cases h
      rw [← append_of_spanChain hspan]
      refine ⟨(List.reverse_perm (x :: y :: chain)).append_right rest, fun hnil => ?_⟩
      cases List.reverse_eq_nil_iff.1 hnil
    · obtain ⟨⟨chain, rest'⟩, hspan, h⟩ := exists_of_bind_eq_ok h
      cases h
      rw [← append_of_spanChain hspan]
      exact ⟨.refl _, fun hnil => nomatch hnil⟩
  · cases h
    rw [List.append_nil]
    exact ⟨.refl _, fun hnil => hnil⟩

theorem insert_perm {x : α} {run' : List α} (h : insert less run x = .ok run') :
    run'.Perm (x :: run) := by
  obtain ⟨i, -, h⟩ := exists_of_bind_eq_ok h
  cases h
  refine List.perm_middle.trans ?_
  rw [List.take_append_drop]

theorem foldlM_insert_perm {run' : List α} (h : rest.foldlM (insert less) run = .ok run') :
    run'.Perm (run ++ rest) := by
  induction rest generalizing run with
  | nil =>
    cases h
    rw [List.append_nil]
  | cons x rest ih =>
    rw [List.foldlM_cons] at h
    obtain ⟨run₁, hx, h⟩ := exists_of_bind_eq_ok h
    exact (ih h).trans (((insert_perm hx).append_right rest).trans List.perm_middle.symm)

theorem splitLongRun_perm {least : Nat} (h : splitLongRun less least xs = .ok (run, rest)) :
    (run ++ rest).Perm xs ∧ (run = [] → xs = []) := by
  obtain ⟨⟨run₁, rest₁⟩, hsplit, h⟩ := exists_of_bind_eq_ok h
  obtain ⟨run₂, hfold, h⟩ := exists_of_bind_eq_ok h
  cases h
  obtain ⟨hperm, hnil⟩ := splitRun_perm hsplit
  have hrun := foldlM_insert_perm hfold
  refine ⟨?_, fun hempty => hnil ?_⟩
  · refine (hrun.append_right _).trans ?_
    rw [List.append_assoc, List.take_append_drop]
    exact hperm
  · rw [hempty] at hrun
    exact (List.append_eq_nil_iff.1 hrun.symm.eq_nil).1

theorem stackRuns_perm {size runs start : Nat} {stack : List (Run α)} (h : xs.length ≤ runs) :
    Yields (stackRuns less size runs start stack xs) fun stack' =>
      (stacked stack').Perm (xs ++ stacked stack) := by
  induction runs generalizing start stack xs with
  | zero =>
    obtain rfl := List.length_eq_zero_iff.1 (Nat.le_zero.1 h)
    exact .pure (.refl _)
  | succ runs ih =>
    cases xs with
    | nil => exact .pure (.refl _)
    | cons x xs =>
      simp only [stackRuns]
      refine .bind (.lift fun p hp => splitLongRun_perm hp) fun p hp => ?_
      obtain ⟨items, rest⟩ := p
      obtain ⟨hperm, hnil⟩ := hp
      have hrest : rest.length ≤ runs := by
        have hlength := hperm.length_eq
        have hitems : items.length ≠ 0 := fun hzero =>
          nomatch hnil (List.length_eq_zero_iff.1 hzero)
        simp only [List.length_append, List.length_cons] at hlength h
        omega
      have hnext {stack₁ : List (Run α)} (hstack : (stacked stack₁).Perm (stacked stack)) :
          Yields
            (stackRuns less size runs (start + items.length) (⟨start, items, 0⟩ :: stack₁) rest)
            fun stack' => (stacked stack').Perm (x :: xs ++ stacked stack) := by
        refine (ih hrest).mono fun stack₂ hstack₂ => ?_
        rw [stacked_cons, ← List.append_assoc] at hstack₂
        have hrow : (rest ++ items).Perm (x :: xs) := List.perm_append_comm.trans hperm
        exact hstack₂.trans (hrow.append hstack)
      cases stack with
      | nil => exact .bind (P := (· = [])) (.pure rfl) fun stack₁ hstack => hnext (by rw [hstack])
      | cons last stack => exact .bind (settle_perm _ last stack) fun stack₁ hstack => hnext hstack

/-- Sorting puts the items of a row in another order. -/
theorem sort_perm {row sorted : List α} (h : sort less row = .ok sorted) : sorted.Perm row := by
  obtain ⟨⟨items, patience⟩, hsorted, h⟩ := exists_of_bind_eq_ok h
  cases h
  refine (?_ : Yields _ fun sorted => sorted.Perm row) longStretch _ _ hsorted
  refine .bind (stackRuns_perm (Nat.le_refl _)) fun stack hstack => ?_
  have hnil : stacked ([] : List (Run α)) = [] := rfl
  rw [hnil, List.append_nil] at hstack
  cases stack with
  | nil => exact .pure hstack
  | cons last stack =>
    exact .bind (collapse_perm last stack) fun run hrun => .pure (hrun.trans hstack)

end

end Amend.Sort

namespace Amend.Key

theorem sortEntries_perm {α : Type} {es sorted : Entries α} (h : sortEntries es = .ok sorted) :
    sorted.Perm es := by
  unfold sortEntries at h
  split at h
  · cases h
    exact List.mergeSort_perm ..
  · exact Sort.sort_perm h

end Amend.Key
