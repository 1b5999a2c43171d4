import Amend.Proofs.Along
import Amend.Proofs.RoundTrip
import Amend.Proofs.Trees

/-!
# Trees that were read back

What carrying children out on a copy of a mapping leaves at each of their keys (`find?_evalAll`),
and so what a text in place of an integer changes: it addresses no item of a list, and another entry
of a mapping. Main statement (`run_ofJson_iff`): an update that succeeds comes to the same when its
tree is written and read back if, and only if, all properties it enters are addressed by texts.
-/

namespace Amend

namespace Entries
variable {α : Type} {k : Key} {a : α} {es new : Entries α}

theorem put_ne_nil : put k a es ≠ [] := by
  cases es with
  | nil => exact List.cons_ne_nil _ _
  | cons e es =>
    unfold put
    split <;> exact List.cons_ne_nil _ _

theorem putAll_ne_nil (h : new ≠ []) : putAll es new ≠ [] := by
  induction new generalizing es with
  | nil => exact absurd rfl h
  | cons e new ih =>
    cases new with
    | nil => exact put_ne_nil
    | cons e' new => exact ih (List.cons_ne_nil e' new)

end Entries

namespace Node
variable [Host] {id : Ident} {kind kind' : MapKind} {es es' : Entries Value}
  {ns : List (Key × Node)} {k : Key} {n : Node} {s : Scratch}

/-- One child carried out on a copy of a mapping. -/
theorem evalAll_entries_cons (h : evalAll ((k, n) :: ns) (.entries kind es) = some s) :
    ∃ x, n.eval (n.given ((Entries.find? k es).getD .none)) = some x ∧
      evalAll ns (.entries kind (Entries.put k x es)) = some s := by
  rw [evalAll] at h
  simp only [Scratch.child, Scratch.assign, Option.bind_eq_bind, Option.bind_eq_some_iff] at h
  obtain ⟨child, hchild, x, hx, s', hs', hrest⟩ := h
  cases hchild
  cases hs'
  exact ⟨x, hx, hrest⟩

/-- Children carried out on a copy of a mapping leave one, with their keys and with no others. -/
theorem evalAll_entries {P : Key → Prop} (h : evalAll ns (.entries kind es) = some s) :
    ∃ es', s = .entries kind es' ∧ (∀ l, Entries.has l es ∨ (∃ e ∈ ns, e.1.Same l) →
        Entries.has l es') ∧
      ((∀ e ∈ es, P e.1) → (∀ e ∈ ns, P e.1) → ∀ e ∈ es', P e.1) := by
  induction ns generalizing es with
  | nil =>
    cases h
    refine ⟨es, rfl, ?_, fun h _ => h⟩
    rintro l (hl | ⟨e, he, -⟩)
    · exact hl
    · cases he
  | cons e ns ih =>
    obtain ⟨k, n⟩ := e
    obtain ⟨x, -, hrest⟩ := evalAll_entries_cons h
    obtain ⟨es', rfl, hhas, hall⟩ := ih hrest
    refine ⟨es', rfl, fun l hl => ?_, fun hes hns => ?_⟩
    · rcases hl with hl | ⟨e, he, hsame⟩
      · exact hhas l (.inl (Entries.has_put l (.inl hl)))
      rcases List.mem_cons.1 he with rfl | he
      · exact hhas l (.inl (Entries.has_put l (.inr hsame)))
      · exact hhas l (.inr ⟨e, he, hsame⟩)
    · obtain ⟨hk, hns⟩ := List.forall_mem_cons.1 hns
      exact hall (Entries.forall_keys_put hes hk) hns

theorem find?_evalAll_of_not_same (h : evalAll ns (.entries kind es) = some (.entries kind' es'))
    (hk : ∀ e ∈ ns, ¬ e.1.Same k) : Entries.find? k es' = Entries.find? k es := by
  induction ns generalizing es with
  | nil =>
    cases h
    rfl
  | cons e ns ih =>
    obtain ⟨l, n⟩ := e
    obtain ⟨hl, hns⟩ := List.forall_mem_cons.1 hk
    obtain ⟨x, -, hrest⟩ := evalAll_entries_cons h
    rw [ih hrest hns, Entries.find?_put_of_not_same hl]

/-- What one of several children at different keys leaves: its outcome on what was there before. -/
theorem find?_evalAll (h : evalAll ns (.entries kind es) = some (.entries kind' es'))
    (hdistinct : ns.Pairwise fun a b => ¬ a.1.Same b.1) (hmem : (k, n) ∈ ns) :
    ∃ x, n.eval (n.given ((Entries.find? k es).getD .none)) = some x ∧
      Entries.find? k es' = some x := by
  induction ns generalizing es with
  | nil => cases hmem
  | cons e ns ih =>
    obtain ⟨l, m⟩ := e
    obtain ⟨hhead, htail⟩ := List.pairwise_cons.1 hdistinct
    obtain ⟨x, hx, hrest⟩ := evalAll_entries_cons h
    rcases List.mem_cons.1 hmem with heq | hmem
    · cases heq
      have hkeep : ∀ e ∈ ns, ¬ e.1.Same k := fun e he hsame => hhead e he hsame.symm
      refine ⟨x, hx, ?_⟩
      rw [find?_evalAll_of_not_same hrest hkeep, Entries.find?_put_same]
    · obtain ⟨y, hy, hfind⟩ := ih hrest htail hmem
      rw [Entries.find?_put_of_not_same (hhead _ hmem)] at hy
      exact ⟨y, hy, hfind⟩

end Node

namespace Node
variable {id : Ident} {kind : MapKind} {es es' : Entries Value} {ns ns' : List (Key × Node)}
  {x r : Value}

/-- The keys of a node that was read back are texts. -/
theorem isText_of_named (hes : Entries.mapValues Value.shape es' =
    Entries.putAll [] (es.map fun e => (e.1.named, e.2.named))) :
    ∀ e ∈ ofEntries es', e.1.isText := by
  have hnames : ∀ e ∈ Entries.mapValues Value.shape es', e.1.isText := by
    rw [hes]
    refine Entries.forall_keys_putAll (P := fun k => k.isText) (List.forall_mem_nil _) ?_
    exact List.forall_mem_map.2 fun e _ => rfl
  rw [ofEntries_eq_map]
  exact List.forall_mem_map.2 (List.forall_mem_map.1 hnames)

theorem not_same_of_isText {k l : Key} (hk : k.isText) (hl : l.isStep) (hne : ¬ l.isText) :
    ¬ k.Same l := by
  cases l with
  | text s => exact absurd rfl hne
  | int n =>
    cases k with
    | text s => simp [Key.Same, Key.signature]
    | _ => cases hk
  | _ => cases hl

theorem isData_given {c : Value} (h : c.isData) (n : Node) : (n.given c).isData := by
  unfold given
  split
  · exact h
  · rfl

theorem isData_find? {es : Entries Value} (h : ∀ e ∈ es, e.2.isData) (k : Key) :
    ((Entries.find? k es).getD .none).isData := by
  rcases hfind : Entries.find? k es with - | c
  · rfl
  · obtain ⟨e, he, rfl⟩ := Entries.mem_of_find? hfind
    exact h e he

variable [Host]

/-- What data is edited as: a list, or entries whose keys are texts. -/
theorem ofContainer_data {s : Scratch} (hx : x.isData) (h : Scratch.ofContainer x = .ok s) :
    (∃ xs, s = .items .list xs) ∨
    ∃ es, s = .entries .plain es ∧ (∀ e ∈ es, e.1.isText) ∧ ∀ e ∈ es, e.2.isData := by
  cases x with
  | none =>
    cases h
    exact .inr ⟨[], rfl, List.forall_mem_nil _, List.forall_mem_nil _⟩
  | map id kind es =>
    obtain ⟨rfl, htext, -, hdata⟩ := Value.isData_map.1 hx
    cases h
    exact .inr ⟨es, rfl, htext, hdata⟩
  | seq id kind xs =>
    cases h
    exact .inl ⟨xs, rfl⟩
  | bool | int | float | text => cases h
  | _ => cases hx

theorem eval_enter_eq_some (hns : ns ≠ []) : (Node.enter ns).eval x = some r ↔
    ∃ s s', Scratch.ofContainer x = .ok s ∧ evalAll ns s = some s' ∧ s'.pack x = some r := by
  obtain ⟨e, ns, rfl⟩ := List.exists_cons_of_ne_nil hns
  simp only [eval_enter_cons, Option.bind_eq_some_iff, Fault.toOption_eq_some]
  constructor
  · rintro ⟨s, hs, s', hs', hr⟩
    exact ⟨s, s', hs, hs', hr⟩
  · rintro ⟨s, s', hs, hs', hr⟩
    exact ⟨s, hs, s', hs', hr⟩

/-- A text addresses no item of a list. -/
theorem evalAll_items (hns : ns ≠ []) (htext : ∀ e ∈ ns, e.1.isText) (kind : SeqKind)
    (xs : List Value) : evalAll ns (.items kind xs) = none := by
  obtain ⟨⟨k, n⟩, ns, rfl⟩ := List.exists_cons_of_ne_nil hns
  have hk := htext _ (List.mem_cons_self ..)
  cases k <;> first | rfl | cases hk

/-- Two nodes that come to the same on data, where one of them addresses all properties by texts,
leave the same entries, all of them at texts. -/
theorem evalAll_of_eval_eq (hns : ns ≠ []) (hns' : ns' ≠ []) (htext : ∀ e ∈ ns', e.1.isText)
    (hx : x.isData) (h : (Node.enter ns).eval x = some r)
    (h' : (Node.enter ns').eval x = some r) :
    ∃ es es', (∀ e ∈ es, e.2.isData) ∧ (∀ e ∈ es', e.1.isText) ∧
      evalAll ns (.entries .plain es) = some (.entries .plain es') ∧
      evalAll ns' (.entries .plain es) = some (.entries .plain es') := by
  obtain ⟨s, s₁, hs, hs₁, hpack⟩ := (eval_enter_eq_some hns).1 h
  obtain ⟨s', s₂, hs', hs₂, hpack'⟩ := (eval_enter_eq_some hns').1 h'
  obtain rfl : s = s' := Except.ok.inj (hs.symm.trans hs')
  obtain ⟨xs, rfl⟩ | ⟨es, rfl, htext₀, hdata₀⟩ := ofContainer_data hx hs
  · rw [evalAll_items hns' htext] at hs₂
    cases hs₂
  obtain ⟨es₁, rfl, -⟩ := evalAll_entries (P := fun k => k.isText) hs₁
  obtain ⟨es₂, rfl, -, hall⟩ := evalAll_entries (P := fun k => k.isText) hs₂
  obtain rfl : es₁ = es₂ := by
    have hmaps := Option.some.inj (hpack.trans hpack'.symm)
    injection hmaps
  exact ⟨es, es₁, hdata₀, hall htext₀ htext, hs₁, hs₂⟩

/-- Where only texts are left for keys, only texts were entered. -/
theorem isText_of_evalAll {es₀ es₁ : Entries Value} {kind' : MapKind}
    (h : evalAll (ofEntries es) (.entries kind es₀) = some (.entries kind' es₁))
    (htexts : ∀ e ∈ es₁, e.1.isText) (hstep : ∀ e ∈ es, e.1.isStep) : ∀ e ∈ es, e.1.isText := by
  intro e he
  by_contra hkey
  obtain ⟨es₂, heq, hhas, -⟩ := evalAll_entries (P := fun k => k.isText) h
  cases heq
  have hthere := hhas e.1 (.inr ⟨_, mem_ofEntries he, rfl⟩)
  obtain ⟨a, ha⟩ := Option.isSome_iff_exists.1 hthere
  obtain ⟨e', he', hsame, -⟩ := Entries.same_of_find? ha
  exact not_same_of_isText (htexts e' he') (hstep e he) hkey hsame

/-- Two trees with the same keys that leave the same entries come to the same at each of their
children, on what stood at its key. -/
theorem exists_eval_of_evalAll {es₀ es₁ : Entries Value} {kind' : MapKind} {e : Key × Value}
    (hrow : Entries.mapValues Value.shape es' = Entries.mapValues Value.named es)
    (hdistinct : Entries.Distinct es) (he : e ∈ es) (htree : e.2.isTree)
    (h : evalAll (ofEntries es) (.entries kind es₀) = some (.entries kind' es₁))
    (h' : evalAll (ofEntries es') (.entries kind es₀) = some (.entries kind' es₁)) :
    ∃ w y : Value, w.shape = e.2.named ∧
      (ofValue e.2).eval ((ofValue e.2).given ((Entries.find? e.1 es₀).getD .none)) = some y ∧
      (ofValue w).eval ((ofValue e.2).given ((Entries.find? e.1 es₀).getD .none)) = some y := by
  have hdistinct' : Entries.Distinct es' := by
    rwa [← Entries.distinct_mapValues Value.shape, hrow, Entries.distinct_mapValues]
  have hmem : (e.1, e.2.named) ∈ Entries.mapValues Value.shape es' :=
    hrow ▸ List.mem_map_of_mem he
  obtain ⟨e', he', heq⟩ := List.mem_map.1 hmem
  obtain ⟨hkey, hshape⟩ := Prod.mk.inj heq
  obtain ⟨y, hy, hfind⟩ := find?_evalAll h (pairwise_ofEntries hdistinct) (mem_ofEntries he)
  obtain ⟨y', hy', hfind'⟩ := find?_evalAll h' (pairwise_ofEntries hdistinct') (mem_ofEntries he')
  rw [hkey] at hy' hfind'
  obtain rfl : y = y' := Option.some.inj (hfind.symm.trans hfind')
  rw [given_congr (command?_of_named htree hshape)] at hy'
  exact ⟨e'.2, y, hshape, hy, hy'⟩

/-- A tree that enters a property of data by another key than a text is not read back as one that
comes to the same. -/
theorem eval_ne_of_named (v : Value) : v.isTree → ¬ (ofValue v).hasTextKeys →
    ∀ w : Value, w.shape = v.named → ∀ x r : Value, x.isData → (ofValue v).eval x = some r →
      (ofValue w).eval x ≠ some r := by
  induction v using Value.holding with
  | map id kind es ih =>
    intro htree hkeys w hw x r hx hr hr'
    obtain ⟨c, operand, -, -, -, -, hnode, -⟩ | ⟨es', hc, hnode, hread, hes⟩ :=
      cases_of_named htree hw
    · exact hkeys (hnode ▸ hasTextKeys_ofOperand c operand)
    rw [hnode, hasTextKeys_enter] at hkeys
    rw [hnode] at hr
    rw [hread] at hr'
    obtain ⟨-, hdistinct, -⟩ := Value.isTree_map.1 htree
    have hne : es ≠ [] := by
      rintro rfl
      exact hkeys (List.forall_mem_nil _)
    have hne' : es' ≠ [] := by
      rintro rfl
      exact Entries.putAll_ne_nil (by simpa using hne) hes.symm
    obtain ⟨es₀, es₁, hdata, htexts, hs, hs'⟩ := evalAll_of_eval_eq
      (by simpa [ofEntries_eq_map] using hne) (by simpa [ofEntries_eq_map] using hne')
      (isText_of_named hes) hx hr hr'
    have htext := isText_of_evalAll hs htexts (Value.isStep_of_isTree htree)
    -- so some child is not read back as what comes to the same, and nothing hides its outcome
    obtain ⟨e, he, hchild⟩ : ∃ e ∈ es, ¬ (ofValue e.2).hasTextKeys := by
      by_contra hnone
      refine hkeys fun e he => ⟨htext e he, ?_⟩
      by_contra hchild
      exact hnone ⟨e, he, hchild⟩
    have hchildTree := Value.isTree_of_findCommand htree hc e he
    obtain ⟨w', y, hshape, hy, hy'⟩ := exists_eval_of_evalAll
      (mapValues_of_named htext hdistinct hes) hdistinct he hchildTree hs hs'
    have hinput := isData_given (isData_find? hdata e.1) (ofValue e.2)
    exact ih e he hchildTree hchild w' hshape _ y hinput hy hy'
  | seq | deque => exact fun h => nomatch h
  | atom v h =>
    intro htree
    cases v <;> first | cases htree | cases h

end Node

section
variable [Host] [Host.Overwriting]

/-- An update that succeeds comes to the same with a tree that was written and read back if, and
only if, the tree enters all properties by texts. -/
theorem run_ofJson_iff {source commands result : Value} {next : Ident} {trace : Trace}
    (hsource : source.isData) (htree : commands.isTree)
    (hrun : (run source commands).exec next = (.ok result, trace)) :
    ∃ text, (∀ next₁, ((toJson [] commands).exec next₁).1 = .ok text) ∧
      ∀ next₁, ∃ read trace₁, (ofJson (.text text)).exec next₁ = (.ok read, trace₁) ∧ ∀ next₂,
        (∃ result' trace₂, (run source read).exec next₂ = (.ok result', trace₂) ∧
          result'.shape = result.shape) ↔ (Node.ofValue commands).hasTextKeys := by
  have hjson := Value.isJson_of_isTree commands htree
  obtain ⟨text, htext, hread⟩ := ofJson_toJson_named hjson
  refine ⟨text, htext, fun next₁ => ?_⟩
  obtain ⟨read, trace₁, hexec, hshape⟩ := hread next₁
  refine ⟨read, trace₁, hexec, fun next₂ => ?_⟩
  have hdata : read.isData := by
    rw [← Value.isData_shape, hshape]
    exact Value.isData_named commands hjson
  have hresult : (Node.ofValue commands).eval source.shape = some result.shape :=
    (run_comesTo (Node.isPure_of_isJson commands hjson) source).of_ok (congrArg Prod.fst hrun)
  have hcomes := run_comesTo (Node.isPure_of_isJson read (Value.isData_iff.1 hdata).1) source
  constructor
  · rintro ⟨result', trace₂, hrun', hsame⟩
    have hresult' : (Node.ofValue read).eval source.shape = some result'.shape :=
      hcomes.of_ok (congrArg Prod.fst hrun')
    by_contra hkeys
    rw [hsame] at hresult'
    refine Node.eval_ne_of_named commands htree hkeys read hshape source.shape result.shape ?_
      hresult hresult'
    rwa [Value.isData_shape]
  · intro hkeys
    have hagree := Node.agrees_of_named commands htree hkeys read hshape
    rw [hagree.eval, hresult] at hcomes
    obtain ⟨result', hok, hsame⟩ := hcomes.exists_ok ⟨next₂, []⟩
    exact ⟨result', _, Prod.ext hok rfl, hsame⟩

end

attribute [local instance] Host.standard in
/-- An integer that addresses the item of a list is read back as a text, which addresses none. -/
theorem run_ofJson_iff_position :
    let source : Value := .seq 1 .list [.int 5]
    let commands : Value := .map 3 .plain [(.int 0, .map 2 .plain [(.text "set", .int 1)])]
    let result : Value := .seq 4 .list [.int 1]
    source.isData ∧ commands.isTree ∧ (Node.ofValue commands).hasTextKeys = false ∧
      (run source commands).exec 4 = (.ok result, ⟨5, [.applied .set (some (.int 0))]⟩) ∧
      ∃ text, (∀ next₁, ((toJson [] commands).exec next₁).1 = .ok text) ∧
        ∀ next₁, ∃ read trace₁, (ofJson (.text text)).exec next₁ = (.ok read, trace₁) ∧ ∀ next₂,
          (∃ result' trace₂, (run source read).exec next₂ = (.ok result', trace₂) ∧
            result'.shape = result.shape) ↔ (Node.ofValue commands).hasTextKeys := by
  intro source commands result
  have hsource : source.isData := by decide
  have htree : commands.isTree := by decide
  have hrun : (run source commands).exec 4 =
      (.ok result, ⟨5, [.applied .set (some (.int 0))]⟩) := rfl
  exact ⟨hsource, htree, rfl, hrun, run_ofJson_iff hsource htree hrun⟩

end Amend
