import Amend.History
import Amend.Proofs.Heap
import Amend.Proofs.Leaves
import Amend.Proofs.Points
import Amend.Proofs.Settled
import Amend.Proofs.Snapshots
import Amend.Proofs.Sorted

/-!
# What operations put on the heap

Every operation goes on from a heap that holds its source and its operands, makes new objects only,
and gives a value of those objects and the ones that were there. One lemma for each kind of step
says so; the commands, the recursion over a tree, the copies that freezing makes and the writing of
a text are put together from them. Of the functions and classes of callers this is what
`Host.Conserving` asks. Main statement: `Operation.leads`.
-/

namespace Amend

open Heap

/-- No code of the caller's changes an object. What a function gives, and what the update of a
derived class makes of entries, consists of new objects and of those that were handed over, as they
are; an encoder makes new ones at most. -/
class Host.Conserving [Host] : Prop where
  call_leads : ∀ {H : Heap} (f : Factory) {arg old : Value}, H.Holds arg → H.Holds old →
    H.Leads (Host.call f arg old) Heap.Holds
  update_leads : ∀ {H : Heap} {es : Entries Value} {operand : Value}, H.HoldsEntries es →
    H.Holds operand → H.Leads (Host.update es operand) HoldsEntries
  encode_leads : ∀ {H : Heap} {cls v : Value} {options : List (String × Value)}, H.Holds cls →
    H.HoldsAll (options.map (·.2)) → H.Holds v →
      H.Leads (Host.encode cls options v) fun _ _ => True

namespace Heap

def HoldsScratch (H : Heap) : Scratch → Prop
  | .items _ xs => H.HoldsAll xs
  | .entries _ es => H.HoldsEntries es

section
variable {H H' : Heap} {id : Ident} {es new : Entries Value} {k : Key} {v c : Value}
  {s s' : Scratch} {xs : List Value}

theorem holdsEntries_nil (H : Heap) : H.HoldsEntries [] :=
  ⟨List.forall_mem_nil _, List.forall_mem_nil _⟩

theorem HoldsEntries.cons (hk : H.Holds k.toValue) (hv : H.Holds v) (h : H.HoldsEntries es) :
    H.HoldsEntries ((k, v) :: es) where
  keys := List.forall_mem_cons.2 ⟨hk, h.keys⟩
  values := List.forall_mem_cons.2 ⟨hv, h.values⟩

theorem HoldsEntries.put (h : H.HoldsEntries es) (hk : H.Holds k.toValue) (hv : H.Holds v) :
    H.HoldsEntries (Entries.put k v es) where
  keys := Entries.forall_keys_put (P := fun k => H.Holds k.toValue) h.keys hk
  values := Entries.forall_put h.values hv

theorem HoldsEntries.putAll (h : H.HoldsEntries es) (hnew : H.HoldsEntries new) :
    H.HoldsEntries (Entries.putAll es new) where
  keys := Entries.forall_keys_putAll (P := fun k => H.Holds k.toValue) h.keys hnew.keys
  values := Entries.forall_putAll h.values hnew.values

theorem HoldsEntries.fillAll (h : H.HoldsEntries es) (hnew : H.HoldsEntries new) :
    H.HoldsEntries (Entries.fillAll es new) where
  keys := Entries.forall_keys_fillAll (P := fun k => H.Holds k.toValue) h.keys hnew.keys
  values := Entries.forall_fillAll h.values hnew.values

theorem Holds.entries {kind : MapKind} (h : H.Holds (.map id kind es)) : H.HoldsEntries es where
  keys e he := h.children _ (Value.mem_children_map.2 ⟨e, he, .inl rfl⟩)
  values e he := h.children _ (Value.mem_children_map.2 ⟨e, he, .inr rfl⟩)

theorem holds_none (H : Heap) : H.Holds .none := holds_of_no_children rfl rfl

theorem holds_ints (H : Heap) (ns : List Int) : ∀ x ∈ ns.map Value.int, H.Holds x := by
  intro x hx
  obtain ⟨n, -, rfl⟩ := List.mem_map.1 hx
  exact holds_of_no_children rfl rfl

theorem Holds.level (h : H.Holds v) : H.HoldsScratch v.level := by
  cases v with
  | seq id kind xs => exact h.children
  | deque id xs => exact h.children
  | range id r => exact holds_ints H r.terms
  | map id kind es => exact h.entries
  | _ => exact holdsEntries_nil H

theorem HoldsScratch.child (h : H.HoldsScratch s) (hc : s.child k = .ok c) : H.Holds c := by
  have hall : s.All H.Holds := by
    cases s with
    | items kind xs => exact h
    | entries kind es => exact h.values
  rw [Scratch.child_eq_ok hc]
  exact hall.child?_getD (holds_none H)

theorem HoldsScratch.assign (h : H.HoldsScratch s) (hk : H.Holds k.toValue) (hv : H.Holds v)
    (hs : s.assign k v = .ok s') : H.HoldsScratch s' := by
  cases s with
  | items kind xs =>
    have hall : (Scratch.items kind xs).All H.Holds := h
    have hall' := hall.assign hv hs
    obtain ⟨i, -, rfl⟩ := Scratch.assign_items_eq_ok.1 hs
    exact hall'
  | entries kind es =>
    cases hs
    exact HoldsEntries.put h hk hv

theorem HoldsScratch.mono (h : H.HoldsScratch s) (hsub : H.Sub H') : H'.HoldsScratch s := by
  cases s with
  | items kind xs => exact fun x hx => (h x hx).mono hsub
  | entries kind es => exact HoldsEntries.mono h hsub

/-- The elements of a value are held with it, or they are scalars. -/
theorem Holds.elements (h : H.Holds v) (hxs : v.elements? = some xs) : ∀ x ∈ xs, H.Holds x := by
  cases v with
  | text | bytes | buffer | range =>
    cases hxs
    intro x hx
    obtain ⟨-, -, rfl⟩ := List.mem_map.1 hx
    exact holds_of_no_children rfl rfl
  | set | frozenSet | deque | seq =>
    cases hxs
    exact h.children
  | map id kind es =>
    cases hxs
    intro x hx
    obtain ⟨e, he, rfl⟩ := List.mem_map.1 hx
    exact h.entries.keys e he
  | _ => cases hxs

end

end Heap

section
variable {H : Heap} {v operand : Value} {es : Entries Value} {ordered : Bool}

namespace Merge

theorem holds_candidates {xs : List Value} (hop : H.Holds operand)
    (h : candidates? operand = some xs) : ∀ x ∈ xs, H.Holds x := by
  cases operand with
  | range id r =>
    rw [candidates?, Value.firstElements?_eq] at h
    obtain ⟨ys, hys, rfl⟩ := Option.map_eq_some_iff.1 h
    exact fun x hx => hop.elements hys x (List.mem_of_mem_take hx)
  | map => cases h
  | _ => exact hop.elements h

theorem holds_entries [Machine] (hop : H.Holds operand) (h : entries ordered operand = .ok es) :
    H.HoldsEntries es := by
  rcases hmap : operand.isMapping with - | -
  · rw [entries_of_not_isMapping hmap] at h
    rcases hxs : candidates? operand with - | xs <;> rw [hxs] at h
    · cases h
    have hall : ∀ e ∈ es, H.Holds e.1.toValue ∧ H.Holds e.2 := by
      refine forall_of_mapM (fun x hx e he => ?_) h
      have hx' := holds_candidates hop hxs x.1 (List.fst_mem_of_mem_zipIdx hx)
      have horder : orderedEntry x.1 = .ok e := by
        cases ordered
        · exact orderedEntry_of_entry he
        · exact he
      have hpair := hx'.elements (elements?_of_orderedEntry horder)
      exact ⟨hpair _ (List.mem_cons_self ..), hpair _ (by simp)⟩
    exact ⟨fun e he => (hall e he).1, fun e he => (hall e he).2⟩
  · cases operand with
    | map id kind new =>
      cases h
      exact hop.entries
    | _ => cases hmap

theorem overwrite_leads [Machine] (hes : H.HoldsEntries es) (hop : H.Holds operand) :
    H.Leads (overwrite ordered es operand) HoldsEntries :=
  .lift_bind fun _ hnew => .pure (hes.putAll (holds_entries hop hnew))

theorem update_leads [Host] [Host.Conserving] (kind : MapKind) (hes : H.HoldsEntries es)
    (hop : H.Holds operand) : H.Leads (update kind es operand) HoldsEntries := by
  cases kind with
  | defaulting => exact Host.Conserving.update_leads hes hop
  | _ => exact overwrite_leads hes hop

end Merge

theorem Scratch.rebuild_items_leads {xs : List Value} (kind : SeqKind) (hxs : H.HoldsAll xs)
    (v : Value) : H.Leads ((Scratch.items kind xs).rebuild v) Heap.Holds := by
  rw [Scratch.rebuild_items]
  split
  · exact .throw _
  · exact .seq _ hxs

theorem Scratch.rebuild_entries_leads (kind : MapKind) (hes : H.HoldsEntries es) (v : Value) :
    H.Leads ((Scratch.entries kind es).rebuild v) Heap.Holds := by
  rw [Scratch.rebuild_entries]
  exact .map _ hes

theorem Scratch.rebuild_leads {s : Scratch} (hs : H.HoldsScratch s) (v : Value) :
    H.Leads (s.rebuild v) Heap.Holds := by
  cases s with
  | items kind xs => exact rebuild_items_leads kind hs v
  | entries kind es => exact rebuild_entries_leads kind hs v

/-- The values that an action keeps to write them. -/
def Action.operands : Action → List Value
  | .set operand | .push operand | .unshift operand | .merge operand | .defaults operand =>
    [operand]
  | .call _ arg => [arg]
  | .refuse _ => []

theorem Scratch.holds_ofSequence [Machine] {command : Command} {p : SeqKind × List Value}
    (hv : H.Holds v) (hp : Scratch.ofSequence command v = .ok p) : H.HoldsAll p.2 := by
  have hlevel := hv.level
  rw [(Scratch.ofSequence_eq_ok hp).1] at hlevel
  exact hlevel

theorem Scratch.holds_ofMapping {command : Command} {p : MapKind × Entries Value}
    (hv : H.Holds v) (hp : Scratch.ofMapping command v = .ok p) : H.HoldsEntries p.2 := by
  have hlevel := hv.level
  rw [(Scratch.ofMapping_eq_ok hp).1] at hlevel
  exact hlevel

theorem Action.perform_leads [Host] [Host.Conserving] (a : Action) (ha : H.HoldsAll a.operands)
    (hv : H.Holds v) :
    H.Leads (a.perform v) Heap.Holds := by
  cases a with
  | set operand => exact .pure (List.forall_mem_singleton.1 ha)
  | push operand =>
    refine .lift_bind fun p hp => ?_
    have hitems := Scratch.holds_ofSequence hv hp
    exact Scratch.rebuild_items_leads _ (List.forall_mem_append.2 ⟨hitems, ha⟩) v
  | unshift operand =>
    have hop := List.forall_mem_singleton.1 ha
    refine .lift_bind fun p hp => ?_
    have hitems := Scratch.holds_ofSequence hv hp
    exact Scratch.rebuild_items_leads _ (List.forall_mem_cons.2 ⟨hop, hitems⟩) v
  | merge operand =>
    have hop := List.forall_mem_singleton.1 ha
    refine .lift_bind fun p hp => ?_
    have hentries := Scratch.holds_ofMapping hv hp
    refine .bind (Merge.update_leads p.1 hentries hop) fun H' es hsub hes => ?_
    exact Scratch.rebuild_entries_leads _ hes v
  | defaults operand =>
    have hop := List.forall_mem_singleton.1 ha
    refine .lift_bind fun p hp => ?_
    have hentries := Scratch.holds_ofMapping hv hp
    cases operand with
    | map id kind new =>
      exact Scratch.rebuild_entries_leads _ (hentries.fillAll hop.entries) v
    | _ => exact .throw _
  | call f arg => exact Host.Conserving.call_leads f (List.forall_mem_singleton.1 ha) hv
  | refuse kind => exact .throw _

namespace Node

mutual

/-- The values in a command tree: the operands of its commands, and its keys. -/
def operands : Node → List Value
  | .act a => a.operands
  | .rerun tree => tree.operands
  | .enter children => allOperands children
  | .misplaced _ => []
termination_by structural n => n

def allOperands : List (Key × Node) → List Value
  | [] => []
  | (k, n) :: rest => k.toValue :: (n.operands ++ allOperands rest)
termination_by structural ns => ns

end

mutual

theorem holds_ofValue : ∀ v : Value, H.Holds v → H.HoldsAll (ofValue v).operands
  | .map id kind es, h => by
    have hes := h.entries
    rw [ofValue]
    split
    · next n hn =>
      obtain ⟨c, -, hc⟩ := List.exists_of_findSome?_eq_some hn
      exact holds_ofToken c es hes.values hc
    · exact holds_ofEntries es hes.keys hes.values
  | .none, _ | .bool _, _ | .int _, _ | .float _, _ | .text _, _ | .bytes .., _ | .buffer .., _
  | .range .., _ | .set .., _ | .frozenSet .., _ | .deque .., _ | .factory .., _
  | .runner .., _ | .seq .., _ => List.forall_mem_nil _

theorem holds_ofOperand : ∀ (c : Command) (v : Value), H.Holds v →
    H.HoldsAll (ofOperand c v).operands
  | .set, v, h | .push, v, h | .unshift, v, h | .merge, v, h | .defaults, v, h => by
    rw [ofOperand]
    exact List.forall_mem_singleton.2 h
  | .invoke, .factory id f arg, h => h.children
  | .invoke, .runner id tree, h => holds_ofValue tree (List.forall_mem_singleton.1 h.children)
  | .invoke, .none, _ | .invoke, .bool _, _ | .invoke, .int _, _ | .invoke, .float _, _
  | .invoke, .text _, _ | .invoke, .bytes .., _ | .invoke, .buffer .., _ | .invoke, .range .., _
  | .invoke, .set .., _ | .invoke, .frozenSet .., _ | .invoke, .deque .., _ | .invoke, .seq .., _
  | .invoke, .map .., _ => List.forall_mem_nil _

theorem holds_ofToken : ∀ (c : Command) (es : List (Key × Value)) {n : Node},
    (∀ e ∈ es, H.Holds e.2) → ofToken c es = some n → H.HoldsAll n.operands
  | _, [], _, _, hn => nomatch hn
  | c, (k, v) :: es, n, h, hn => by
    obtain ⟨hv, hes⟩ := List.forall_mem_cons.1 h
    rw [ofToken] at hn
    split at hn
    · cases hn
      exact holds_ofOperand c v hv
    · exact holds_ofToken c es hes hn

theorem holds_ofEntries : ∀ es : List (Key × Value), (∀ e ∈ es, H.Holds e.1.toValue) →
    (∀ e ∈ es, H.Holds e.2) → H.HoldsAll (allOperands (ofEntries es))
  | [], _, _ => List.forall_mem_nil _
  | (k, v) :: es, hkeys, hvalues => by
    obtain ⟨hk, hkeys⟩ := List.forall_mem_cons.1 hkeys
    obtain ⟨hv, hvalues⟩ := List.forall_mem_cons.1 hvalues
    have htree := holds_ofValue v hv
    have hrest := holds_ofEntries es hkeys hvalues
    exact List.forall_mem_cons.2 ⟨hk, List.forall_mem_append.2 ⟨htree, hrest⟩⟩

end

theorem announce_leads (key : Option Key) (n : Node) :
    H.Leads (n.announce key) fun _ _ => True := by
  unfold announce
  split
  · exact .record _ trivial
  · exact .pure trivial

theorem input_leads (n : Node) (hv : H.Holds v) : H.Leads (n.input v) Heap.Holds := by
  unfold input
  split
  · exact .pure hv
  · exact .map .plain (holdsEntries_nil H)

variable [Host]

mutual

theorem perform_leads [Host.Conserving] : ∀ (n : Node) {H : Heap} {v : Value},
    H.HoldsAll n.operands → H.Holds v → H.Leads (n.perform v) Heap.Holds
  | .act a, _, _, hn, hv => a.perform_leads hn hv
  | .rerun tree, _, _, hn, hv => by
    rw [perform]
    exact .bind (announce_leads none tree) fun H' _ hsub _ =>
      perform_leads tree (hn.mono hsub) (hv.mono hsub)
  | .enter children, H, v, hn, hv => by
    rw [perform]
    split
    · exact .pure hv
    · refine .lift_bind fun s hs => ?_
      have hlevel : H.HoldsScratch s := Scratch.ofContainer_eq_ok hs ▸ hv.level
      refine .bind (performAll_leads children hn hlevel) fun H' s' hsub hs' => ?_
      exact Scratch.rebuild_leads hs' v
  | .misplaced kind, _, _, _, _ => .throw _

theorem performAll_leads [Host.Conserving] : ∀ (ns : List (Key × Node)) {H : Heap} {s : Scratch},
    H.HoldsAll (allOperands ns) → H.HoldsScratch s → H.Leads (performAll ns s) HoldsScratch
  | [], _, _, _, hs => .pure hs
  | (key, n) :: rest, H, s, hns, hs => by
    obtain ⟨hkey, htail⟩ := List.forall_mem_cons.1 hns
    obtain ⟨hn, hrest⟩ := List.forall_mem_append.1 htail
    rw [performAll]
    -- the tree and the copy are held from the start, and so by each of the heaps to come
    refine .lift_bind fun c hc => ?_
    refine .bind (announce_leads (some key) n) fun H₁ _ hsub₁ _ => ?_
    refine .bind (input_leads n ((hs.child hc).mono hsub₁)) fun H₂ w hsub₂ hw => ?_
    have hsub := hsub₁.trans hsub₂
    refine .bind (perform_leads n (HoldsAll.mono hn hsub) hw) fun H₃ r hsub₃ hr => ?_
    have hsub := hsub.trans hsub₃
    refine .lift_bind fun s' hs' => ?_
    exact performAll_leads rest (HoldsAll.mono hrest hsub)
      ((hs.mono hsub).assign (hkey.mono hsub) hr hs')

end

theorem run_leads [Host.Conserving] (n : Node) (hn : H.HoldsAll n.operands) (hv : H.Holds v) :
    H.Leads (n.run v) Heap.Holds :=
  .bind (announce_leads none n) fun _ _ hsub _ => perform_leads n (hn.mono hsub) (hv.mono hsub)

end Node

theorem run_leads [Host] [Host.Conserving] {source commands : Value} (hs : H.Holds source)
    (hc : H.Holds commands) : H.Leads (run source commands) Heap.Holds :=
  (Node.ofValue commands).run_leads (Node.holds_ofValue commands hc) hs

theorem applyCommand_leads [Host] [Host.Conserving] (c : Command) (hv : H.Holds v)
    (hop : H.Holds operand) : H.Leads (applyCommand c v operand) Heap.Holds :=
  Node.perform_leads (Node.ofOperand c operand) (Node.holds_ofOperand c operand hop) hv

namespace Path

theorem holds_keys {path : Value} (h : H.Holds path) : H.HoldsAll (keys path) := by
  cases path with
  | none => exact List.forall_mem_nil _
  | text s =>
    rw [keys]
    split
    · exact List.forall_mem_nil _
    · exact List.forall_mem_singleton.2 h
  | seq id kind xs => exact h.children
  | _ => exact List.forall_mem_singleton.2 h

theorem nest_leads {vs : List Value} {tree : Value} (hvs : H.HoldsAll vs) (htree : H.Holds tree) :
    H.Leads (nest vs tree) Heap.Holds := by
  induction vs with
  | nil => exact .pure htree
  | cons v vs ih =>
    obtain ⟨hv, hvs⟩ := List.forall_mem_cons.1 hvs
    refine .bind (ih hvs) fun H₁ inner hsub₁ hinner => ?_
    refine .lift_bind fun k hk => ?_
    have hkey : H₁.Holds k.toValue := Merge.toValue_of_key hk ▸ hv.mono hsub₁
    exact .map .plain (.cons hkey hinner (holdsEntries_nil H₁))

end Path

theorem applyAt_leads [Host] [Host.Conserving] {source path : Value} (c : Command)
    (hs : H.Holds source) (hpath : H.Holds path) (hop : H.Holds operand) :
    H.Leads (applyAt c source path operand) Heap.Holds := by
  have hkey : H.Holds c.key.toValue := holds_of_no_children rfl rfl
  have hleaf : H.Leads (do return .map (← Update.fresh) .plain [(c.key, operand)]) Heap.Holds :=
    .map .plain (.cons hkey hop (holdsEntries_nil H))
  -- the innermost mapping is made before the path is read
  have hsteps : applyAt c source path operand =
      (do return .map (← Update.fresh) .plain [(c.key, operand)]) >>= fun leaf =>
        Path.command path leaf >>= fun tree => run source tree := by
    rw [bind_assoc]
    rfl
  rw [hsteps]
  refine .bind hleaf fun H₁ leaf hsub₁ hleaf => ?_
  have hkeys := Path.holds_keys (hpath.mono hsub₁)
  refine .bind (Path.nest_leads hkeys hleaf) fun H₂ tree hsub₂ htree => ?_
  exact run_leads (hs.mono (hsub₁.trans hsub₂)) htree

end

namespace Update
variable {α β : Type}

theorem make_bind (m : Making α) (f : α → Making β) :
    make (m >>= f) = make m >>= fun a => make (f a) := rfl

theorem make_pure (a : α) : make (pure a : Making α) = pure a := rfl

theorem make_fresh : make Making.fresh = fresh := rfl

end Update

namespace Value
open Update
variable (seq : SeqKind) (map : MapKind)

mutual

theorem copyAs_leads : ∀ (v : Value) {H : Heap}, H.Holds v →
    H.Leads (make (v.copyAs seq map)) Heap.Holds
  | .map id kind es, H, h => by
    simp only [copyAs, make_bind, make_pure, make_fresh]
    exact .bind (copyEntriesAs_leads es h.entries) fun H' es' hsub hes => .map map hes
  | .seq id kind xs, H, h => by
    simp only [copyAs, make_bind, make_pure, make_fresh]
    exact .bind (copyItemsAs_leads xs h.children) fun H' xs' hsub hxs => .seq seq hxs
  | .none, _, h | .bool _, _, h | .int _, _, h | .float _, _, h | .text _, _, h | .bytes .., _, h
  | .buffer .., _, h | .range .., _, h | .set .., _, h | .frozenSet .., _, h | .deque .., _, h
  | .factory .., _, h | .runner .., _, h => .pure h

theorem copyItemsAs_leads : ∀ (xs : List Value) {H : Heap}, H.HoldsAll xs →
    H.Leads (make (copyItemsAs seq map xs)) HoldsAll
  | [], _, h => .pure h
  | x :: xs, H, h => by
    obtain ⟨hx, hxs⟩ := List.forall_mem_cons.1 h
    simp only [copyItemsAs, make_bind, make_pure]
    refine .bind (copyAs_leads x hx) fun H₁ y hsub₁ hy => ?_
    refine .bind (copyItemsAs_leads xs (HoldsAll.mono hxs hsub₁)) fun H₂ ys hsub₂ hys => ?_
    exact .pure (List.forall_mem_cons.2 ⟨hy.mono hsub₂, hys⟩)

theorem copyEntriesAs_leads : ∀ (es : List (Key × Value)) {H : Heap}, H.HoldsEntries es →
    H.Leads (make (copyEntriesAs seq map es)) HoldsEntries
  | [], _, h => .pure h
  | (k, v) :: es, H, h => by
    obtain ⟨hk, hkeys⟩ := List.forall_mem_cons.1 h.keys
    obtain ⟨hv, hvalues⟩ := List.forall_mem_cons.1 h.values
    simp only [copyEntriesAs, make_bind, make_pure]
    refine .bind (copyAs_leads v hv) fun H₁ w hsub₁ hw => ?_
    have hes : H₁.HoldsEntries es := HoldsEntries.mono ⟨hkeys, hvalues⟩ hsub₁
    refine .bind (copyEntriesAs_leads es hes) fun H₂ es' hsub₂ hes' => ?_
    exact .pure (.cons (hk.mono (hsub₁.trans hsub₂)) (hw.mono hsub₂) hes')

end

end Value

namespace Json

section
variable {H : Heap} {o : Options} {α : Type}

/-- Whether an update makes new objects at most, wherever a heap has got to. -/
def LeadsOn (H : Heap) (u : Update α) : Prop := ∀ H', H.Sub H' → H'.Leads u fun _ _ => True

theorem LeadsOn.leads {u : Update α} (h : LeadsOn H u) : H.Leads u fun _ _ => True :=
  h H fun _ _ hx => hx

theorem LeadsOn.mono {H' : Heap} {u : Update α} (h : LeadsOn H u) (hsub : H.Sub H') :
    LeadsOn H' u :=
  fun H'' hsub' => h H'' (hsub.trans hsub')

theorem members_leads {docs : Entries (Update Document)} (h : ∀ e ∈ docs, LeadsOn H e.2) :
    H.Leads (members o docs) fun _ _ => True := by
  induction docs generalizing H with
  | nil => exact .pure trivial
  | cons e docs ih =>
    obtain ⟨k, d⟩ := e
    obtain ⟨hd, hdocs⟩ := List.forall_mem_cons.1 h
    refine .lift_bind fun name _ => ?_
    cases name with
    | none => exact ih hdocs
    | some name =>
      refine .bind hd.leads fun H' d hsub _ => ?_
      have hrest : ∀ e ∈ docs, LeadsOn H' e.2 := fun e he => (hdocs e he).mono hsub
      exact .bind (ih hrest) fun _ _ _ _ => .pure trivial

theorem objectOf_leads {docs : Entries (Update Document)} (h : ∀ e ∈ docs, LeadsOn H e.2) :
    H.Leads (objectOf o docs) fun _ _ => True := by
  refine .lift_bind fun sorted hsorted => ?_
  have hperm : sorted.Perm docs := by
    unfold arranged at hsorted
    split at hsorted
    · exact Key.sortEntries_perm hsorted
    · cases hsorted
      exact .refl docs
  have hdocs : ∀ e ∈ sorted, LeadsOn H e.2 := fun e he => h e (hperm.mem_iff.1 he)
  exact .bind (members_leads hdocs) fun _ _ _ _ => .pure trivial

end

namespace Document

section
variable {H : Heap} {o : Options} {other : List Object → Value → Update Document}

/-- What stands for values without a JSON form is made of new objects at most, wherever a heap has
got to. -/
def OthersLead (H : Heap) (other : List Object → Value → Update Document) : Prop :=
  ∀ H', H.Sub H' → ∀ within v, H'.Holds v → H'.Leads (other within v) fun _ _ => True

theorem ofOther_leads (hother : OthersLead H other) {H' : Heap} {v : Value} (within : List Object)
    (hsub : H.Sub H') (hv : H'.Holds v) :
    H'.Leads (do other (← Update.lift (enter o within v)) v) fun _ _ => True :=
  .lift_bind fun _ _ => hother H' hsub _ _ hv

mutual

theorem ofValue_leads (hother : OthersLead H other) : ∀ (v : Value) (within : List Object)
    {H' : Heap}, H.Sub H' → H'.Holds v → H'.Leads (ofValue o other within v) fun _ _ => True
  | .seq id kind xs, within, H', hsub, hv => by
    rw [ofValue]
    split
    · exact .pure trivial
    · refine .lift_bind fun inner _ => ?_
      exact .bind (ofItems_leads hother xs inner hsub hv.children) fun _ _ _ _ => .pure trivial
  | .map id kind es, within, H', hsub, hv => by
    rw [ofValue]
    split
    · split
      · exact .pure trivial
      · refine .lift_bind fun inner _ => ?_
        exact objectOf_leads (ofEntries_leads hother es inner hsub hv.entries.values)
    · exact ofOther_leads hother within hsub hv
  | .none, _, _, _, _ | .bool _, _, _, _, _ | .text _, _, _, _, _ => .pure trivial
  | .int n, _, _, _, _ => .lift_bind fun _ _ => .pure trivial
  | .float d, _, _, _, _ => .lift_bind fun _ _ => .pure trivial
  | .bytes .., within, _, hsub, hv | .buffer .., within, _, hsub, hv
  | .range .., within, _, hsub, hv | .set .., within, _, hsub, hv
  | .frozenSet .., within, _, hsub, hv | .deque .., within, _, hsub, hv
  | .factory .., within, _, hsub, hv | .runner .., within, _, hsub, hv =>
    ofOther_leads hother within hsub hv

theorem ofItems_leads (hother : OthersLead H other) : ∀ (xs : List Value) (within : List Object)
    {H' : Heap}, H.Sub H' → H'.HoldsAll xs → H'.Leads (ofItems o other within xs) fun _ _ => True
  | [], _, _, _, _ => .pure trivial
  | x :: xs, within, H', hsub, hxs => by
    obtain ⟨hx, hxs⟩ := List.forall_mem_cons.1 hxs
    rw [ofItems]
    refine .bind (ofValue_leads hother x within hsub hx) fun H₁ d hsub₁ _ => ?_
    refine .bind (ofItems_leads hother xs within (hsub.trans hsub₁) (HoldsAll.mono hxs hsub₁)) ?_
    exact fun _ _ _ _ => .pure trivial

theorem ofEntries_leads (hother : OthersLead H other) : ∀ (es : List (Key × Value))
    (within : List Object) {H' : Heap}, H.Sub H' → (∀ e ∈ es, H'.Holds e.2) →
      ∀ e ∈ ofEntries o other within es, LeadsOn H' e.2
  | [], _, _, _, _ => List.forall_mem_nil _
  | (k, v) :: es, within, H', hsub, hes => by
    obtain ⟨hv, hes⟩ := List.forall_mem_cons.1 hes
    refine List.forall_mem_cons.2 ⟨fun H'' hsub' => ?_, ofEntries_leads hother es within hsub hes⟩
    exact ofValue_leads hother v within (hsub.trans hsub') (hv.mono hsub')

end

end

end Document

section
variable [Host] [Host.Conserving] {H : Heap} {s : Settings} {v : Value}
  {args : List (String × Value)}

theorem Settings.replacement_leads (hs : H.Holds s.default) (hv : H.Holds v) :
    H.Leads (s.replacement v) Heap.Holds := by
  unfold replacement
  split
  · exact .throw _
  · exact applyCommand_leads .invoke hv hs

theorem Settings.document_leads (hs : H.Holds s.default) (depth : Nat) (within : List Object)
    (hv : H.Holds v) : H.Leads (s.document depth within v) fun _ _ => True := by
  induction depth generalizing H v within with
  | zero => exact .throw _
  | succ depth ih =>
    rw [document]
    refine .lift_bind fun _ _ => ?_
    refine Document.ofValue_leads (H := H) (fun H' hsub within v hv => ?_) v within
      (fun _ _ hx => hx) hv
    have hs' := hs.mono hsub
    exact .bind (replacement_leads hs' hv) fun H'' w hsub' hw => ih (hs'.mono hsub') within hw

theorem write_leads (hs : H.Holds s.default) (hv : H.Holds v) :
    H.Leads (write s v) fun _ _ => True := by
  unfold write
  split
  · exact .pure trivial
  · refine .lift_bind fun _ _ => ?_
    refine .bind (Settings.document_leads hs (Machine.nesting + 1) [] hv) fun _ _ _ _ => ?_
    exact .lift_bind fun _ _ => .pure trivial

end

end Json

section
variable {H : Heap} {v : Value} {args : List (String × Value)}

theorem holds_lookup (hargs : H.HoldsAll (args.map (·.2))) (name : String) :
    H.Holds ((args.lookup name).getD .none) := by
  rcases h : args.lookup name with - | cls
  · exact holds_none H
  · obtain ⟨before, after, rfl, -⟩ := List.lookup_eq_some_iff.1 h
    exact hargs cls (List.mem_map.2 ⟨(name, cls), by simp, rfl⟩)

open Json in
/-- Writing a text makes new objects at most. -/
theorem toJson_leads [Host] [Host.Conserving] (hargs : H.HoldsAll (args.map (·.2)))
    (hv : H.Holds v) : H.Leads (toJson args v) fun _ _ => True := by
  have hcopy : H.Leads (Update.make v.thaw) Heap.Holds := by
    rw [Value.thaw_eq_copyAs]
    exact Value.copyAs_leads .list .plain v hv
  simp only [toJson]
  split
  · exact .throw (.repeatedOption "obj")
  refine .bind hcopy fun H₁ copy hsub₁ hcopy => ?_
  have hargs₁ : H₁.HoldsAll (args.map (·.2)) := hargs.mono hsub₁
  split
  · refine .lift_bind fun s hs => ?_
    have hdefault : H₁.Holds s.default := by
      refine Settings.default_of_ofArguments (fun e he _ => ?_) (holds_none H₁) hs
      exact hargs₁ e.2 (List.mem_map_of_mem he)
    exact write_leads hdefault hcopy
  · split
    · exact Host.Conserving.encode_leads (holds_lookup hargs₁ "cls") hargs₁ hcopy
    · exact .throw _

end

namespace Json.Document
open Update

mutual

theorem toValue_leads : ∀ (d : Document) {H : Heap}, H.Leads (make d.toValue) Heap.Holds
  | .array ds, H => by
    simp only [toValue, make_bind, make_pure, make_fresh]
    exact .bind (toValues_leads ds) fun H' xs _ hxs => .seq .list hxs
  | .object ms, H => by
    simp only [toValue, make_bind, make_pure, make_fresh]
    refine .bind (toEntries_leads ms) fun H' es _ hes => ?_
    exact .map .plain ((holdsEntries_nil H').putAll hes)
  | .emptied, H => .map .plain (holdsEntries_nil H)
  | .null, _ | .bool _, _ | .int _, _ | .float _, _ | .text _, _ =>
    .pure (holds_of_no_children rfl rfl)

theorem toValues_leads : ∀ (ds : List Document) {H : Heap}, H.Leads (make (toValues ds)) HoldsAll
  | [], _ => .pure (List.forall_mem_nil _)
  | d :: ds, H => by
    simp only [toValues, make_bind, make_pure]
    refine .bind (toValue_leads d) fun H₁ v _ hv => ?_
    refine .bind (toValues_leads ds) fun H₂ vs hsub hvs => ?_
    exact .pure (List.forall_mem_cons.2 ⟨hv.mono hsub, hvs⟩)

theorem toEntries_leads : ∀ (ms : List (List Char × Document)) {H : Heap},
    H.Leads (make (toEntries ms)) HoldsEntries
  | [], H => .pure (holdsEntries_nil H)
  | (name, d) :: ms, H => by
    simp only [toEntries, make_bind, make_pure]
    refine .bind (toValue_leads d) fun H₁ v _ hv => ?_
    refine .bind (toEntries_leads ms) fun H₂ es hsub hes => ?_
    have hname : H₂.Holds (.text (String.ofList name)) := holds_of_no_children rfl rfl
    exact .pure (.cons hname (hv.mono hsub) hes)

end

end Json.Document

namespace Operation

/-- The values that an operation is given beside its source. -/
def operands : Operation → List Value
  | .run commands => [commands]
  | .applyAt _ path operand => [path, operand]
  | .apply _ operand => [operand]
  | .applyUnknown given => [given]
  | .freeze | .thaw => []
  | .toJson options | .roundTrip options => options.map (·.2)

/-- An operation makes new objects and leaves those that are there as they are. -/
theorem leads [Host] [Host.Conserving] {H : Heap} {source : Value} (op : Operation)
    (hs : H.Holds source) (hop : H.HoldsAll op.operands) :
    H.Leads (op.perform source) Heap.Holds := by
  cases op with
  | run commands => exact run_leads hs (List.forall_mem_singleton.1 hop)
  | applyAt c path operand =>
    obtain ⟨hpath, hoperand⟩ := List.forall_mem_cons.1 hop
    exact applyAt_leads c hs hpath (List.forall_mem_singleton.1 hoperand)
  | apply c operand => exact applyCommand_leads c hs (List.forall_mem_singleton.1 hop)
  | applyUnknown given => exact .throw _
  | freeze =>
    rw [perform, Value.freeze_eq_copyAs]
    exact Value.copyAs_leads (.tuple .plain) .readOnly source hs
  | thaw =>
    rw [perform, Value.thaw_eq_copyAs]
    exact Value.copyAs_leads .list .plain source hs
  | toJson options =>
    exact .bind (toJson_leads hop hs) fun H' s _ _ => .pure (holds_of_no_children rfl rfl)
  | roundTrip options =>
    exact .bind (toJson_leads hop hs) fun _ _ _ _ => .lift_bind fun d _ => d.toValue_leads

end Operation

section
variable {H : Heap} {v : Value}
attribute [local instance] Host.standard

theorem Factory.apply_leads (f : Factory) {arg : Value} (harg : H.Holds arg) (hv : H.Holds v) :
    H.Leads (f.apply arg v) Heap.Holds := by
  cases f with
  | identity => exact .pure hv
  | wrap => exact .seq .list (List.forall_mem_singleton.2 hv)
  | isNone => exact .pure (holds_of_no_children rfl rfl)
  | kind => exact .pure (holds_of_no_children rfl rfl)
  | const => exact .pure harg
  | add =>
    cases v with
    | int n =>
      refine .lift fun r hr => ?_
      rcases sum_eq_ok hr with ⟨m, rfl⟩ | ⟨d, rfl⟩ <;> exact holds_of_no_children rfl rfl
    | _ => exact .throw _
  | fail => exact .throw _

instance : Host.Conserving where
  call_leads f _ _ harg hv := f.apply_leads harg hv
  update_leads := Merge.overwrite_leads
  encode_leads _ _ _ := .throw _

end

end Amend
