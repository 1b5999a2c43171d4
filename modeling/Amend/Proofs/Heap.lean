import Amend.Sharing
import Amend.Proofs.Copies

/-!
# Objects on a heap

A `Heap` says which object an identity names, with all its contents, so that a heap holds two values
only if they agree on every object that they share. `Heap.Leads` is the rule by which an update may
go on from a heap: what is there stays as it is, and new objects come at the identities that the
update hands out. Main statement (`coherent_iff_held`): values are held by one heap if and only if
no two different objects in them have one identity.
-/

namespace Amend

namespace Value

/-- The identity of an object. Scalars have none, nor has the empty plain fixed sequence. -/
def ident? : Value → Option Ident
  | .bytes id _ | .buffer id _ | .range id _ | .set id _ | .frozenSet id _ | .deque id _
  | .factory id .. | .runner id _ => some id
  | v => Sharing.ident? v

/-- What a value consists of: items, keys with their values, members, and what a function keeps. -/
def children : Value → List Value
  | .set _ ks | .frozenSet _ ks => ks.map Key.toValue
  | .deque _ xs | .seq _ _ xs => xs
  | .map _ _ es => es.flatMap fun e => [e.1.toValue, e.2]
  | .factory _ _ arg => [arg]
  | .runner _ tree => [tree]
  | _ => []

/-- Being a value or somewhere in it. -/
inductive Within : Value → Value → Prop
  | self (v : Value) : Within v v
  | inside {x c v : Value} (mem : c ∈ v.children) (within : Within x c) : Within x v

theorem mem_children_map {id : Ident} {kind : MapKind} {es : List (Key × Value)} {c : Value} :
    c ∈ (Value.map id kind es).children ↔ ∃ e ∈ es, c = e.1.toValue ∨ c = e.2 := by
  rw [children, List.mem_flatMap]
  simp only [List.mem_cons, List.not_mem_nil, or_false]

end Value

/-- The object that an identity names, if there is one. -/
abbrev Heap := Ident → Option Value

namespace Heap

/-- An object is on the heap as it is. What has no identity needs no place there. -/
def Has (H : Heap) (v : Value) : Prop := ∀ id, v.ident? = some id → H id = some v

def Holds (H : Heap) (v : Value) : Prop := ∀ x, x.Within v → H.Has x

def HoldsAll (H : Heap) (vs : List Value) : Prop := ∀ v ∈ vs, H.Holds v

structure HoldsEntries (H : Heap) (es : Entries Value) : Prop where
  keys : ∀ e ∈ es, H.Holds e.1.toValue
  values : ∀ e ∈ es, H.Holds e.2

/-- A heap whose every object is still there, as it was, on the other. -/
def Sub (H H' : Heap) : Prop := ∀ id x, H id = some x → H' id = some x

def Below (H : Heap) (next : Ident) : Prop := ∀ id x, H id = some x → id < next

/-- How a heap goes on while identities are handed out: it changes at none but these. -/
structure Grows (H : Heap) (next : Ident) (H' : Heap) (next' : Ident) : Prop where
  le : next ≤ next'
  same : ∀ id < next, H' id = H id
  below : H'.Below next'

/-- From a heap on, an update leaves a larger one, and what it gives has a property there. -/
def Leads {α : Type} (H : Heap) (u : Update α) (post : Heap → α → Prop) : Prop :=
  ∀ t : Trace, H.Below t.next →
    ∃ H' : Heap, H.Grows t.next H' (u t).2.next ∧ ∀ a, (u t).1 = .ok a → post H' a

section
variable {H H' H'' : Heap} {next next' next'' : Ident} {v : Value}

theorem holds_iff : H.Holds v ↔ H.Has v ∧ ∀ c ∈ v.children, H.Holds c := by
  constructor
  · intro h
    exact ⟨h v (.self v), fun c hc x hx => h x (.inside hc hx)⟩
  · rintro ⟨hv, hchildren⟩ x hx
    cases hx with
    | self => exact hv
    | inside hc hx => exact hchildren _ hc x hx

theorem Holds.children (h : H.Holds v) : ∀ c ∈ v.children, H.Holds c := (holds_iff.1 h).2

theorem holds_of_no_children (hid : v.ident? = none) (hc : v.children = []) : H.Holds v := by
  refine holds_iff.2 ⟨fun id h => ?_, fun c h => ?_⟩
  · rw [hid] at h
    cases h
  · rw [hc] at h
    cases h

theorem Sub.trans (h : H.Sub H') (h' : H'.Sub H'') : H.Sub H'' :=
  fun id x hx => h' id x (h id x hx)

theorem Holds.mono (hv : H.Holds v) (h : H.Sub H') : H'.Holds v :=
  fun x hx id hid => h id x (hv x hx id hid)

theorem HoldsAll.mono {vs : List Value} (hvs : H.HoldsAll vs) (h : H.Sub H') : H'.HoldsAll vs :=
  fun v hv => (hvs v hv).mono h

theorem HoldsEntries.mono {es : Entries Value} (hes : H.HoldsEntries es) (h : H.Sub H') :
    H'.HoldsEntries es where
  keys e he := (hes.keys e he).mono h
  values e he := (hes.values e he).mono h

theorem Grows.refl (h : H.Below next) : H.Grows next H next :=
  ⟨Nat.le_refl next, fun _ _ => rfl, h⟩

theorem Grows.trans (h : H.Grows next H' next') (h' : H'.Grows next' H'' next'') :
    H.Grows next H'' next'' where
  le := Nat.le_trans h.le h'.le
  same id hid := (h'.same id (Nat.lt_of_lt_of_le hid h.le)).trans (h.same id hid)
  below := h'.below

theorem Grows.sub (h : H.Grows next H' next') (hbelow : H.Below next) : H.Sub H' :=
  fun id x hx => (h.same id (hbelow id x hx)).trans hx

/-- What a heap has grown by are objects of the identities handed out meanwhile. -/
theorem Grows.old_or_new (h : H.Grows next H' next') {id : Ident} {x : Value}
    (hx : H' id = some x) : (id < next ∧ H id = some x) ∨ (next ≤ id ∧ id < next') := by
  rcases Nat.lt_or_ge id next with hlt | hge
  · exact .inl ⟨hlt, (h.same id hlt).symm.trans hx⟩
  · exact .inr ⟨hge, h.below id x hx⟩

end

namespace Leads
variable {α β : Type} {H : Heap} {u : Update α} {f : α → Update β} {mid : Heap → α → Prop}
  {post : Heap → β → Prop} {b : β}

theorem pure (h : post H b) : H.Leads (Pure.pure b) post := by
  intro t hbelow
  refine ⟨H, .refl hbelow, fun a ha => ?_⟩
  cases ha
  exact h

theorem throw (fault : Fault) : H.Leads (throw fault) post :=
  fun _ hbelow => ⟨H, .refl hbelow, fun _ ha => nomatch ha⟩

theorem lift {e : Except Fault β} (h : ∀ b, e = .ok b → post H b) :
    H.Leads (Update.lift e) post :=
  fun _ hbelow => ⟨H, .refl hbelow, h⟩

theorem record {post : Heap → Unit → Prop} (entry : LogEntry) (h : post H ()) :
    H.Leads (Update.record entry) post :=
  fun _ hbelow => ⟨H, .refl hbelow, fun _ _ => h⟩

theorem bind (hu : H.Leads u mid)
    (hf : ∀ H' a, H.Sub H' → mid H' a → Leads H' (f a) post) : H.Leads (u >>= f) post := by
  intro t hbelow
  obtain ⟨H₁, hgrows, hmid⟩ := hu t hbelow
  rcases hut : u t with ⟨fault | a, t₁⟩
  · rw [Update.bind_of_error hut]
    rw [hut] at hgrows
    exact ⟨H₁, hgrows, fun _ hb => nomatch hb⟩
  · rw [Update.bind_of_ok hut]
    rw [hut] at hgrows hmid
    obtain ⟨H₂, hgrows₂, hpost⟩ := hf H₁ a (hgrows.sub hbelow) (hmid a rfl) t₁ hgrows.below
    exact ⟨H₂, hgrows.trans hgrows₂, hpost⟩

/-- What is only read leaves the heap as it is. -/
theorem lift_bind {e : Except Fault α} (hf : ∀ a, e = .ok a → H.Leads (f a) post) :
    H.Leads (Update.lift e >>= f) post := by
  cases e with
  | error fault => exact throw fault
  | ok a => exact hf a rfl

/-- A new object of what is there. -/
theorem alloc {object : Ident → Value}
    (hid : ∀ id id', (object id).ident? = some id' → id' = id)
    (hchildren : ∀ id, ∀ c ∈ (object id).children, H.Holds c) :
    H.Leads (do return object (← Update.fresh)) Heap.Holds := by
  intro t hbelow
  -- nothing was at the next identity, so nothing is lost
  let H' : Heap := fun id => if id = t.next then some (object id) else H id
  have hgrows : H.Grows t.next H' (t.next + 1) := by
    refine ⟨Nat.le_succ _, fun id hlt => if_neg (Nat.ne_of_lt hlt), fun id x hx => ?_⟩
    by_cases heq : id = t.next
    · exact Nat.lt_succ_of_le (Nat.le_of_eq heq)
    · have hx : H id = some x := (if_neg heq).symm.trans hx
      exact Nat.lt_succ_of_lt (hbelow id x hx)
  refine ⟨H', hgrows, fun v hv => ?_⟩
  obtain rfl : object t.next = v := Except.ok.inj hv
  refine holds_iff.2 ⟨fun id h => ?_, fun c hc => (hchildren _ c hc).mono (hgrows.sub hbelow)⟩
  obtain rfl := hid _ id h
  exact if_pos rfl

theorem seq {xs : List Value} (kind : SeqKind) (h : H.HoldsAll xs) :
    H.Leads (do return .seq (← Update.fresh) kind xs) Heap.Holds :=
  alloc (fun _ _ hid => Sharing.eq_of_ident?_seq hid) fun _ => h

theorem map {es : Entries Value} (kind : MapKind) (h : H.HoldsEntries es) :
    H.Leads (do return .map (← Update.fresh) kind es) Heap.Holds := by
  refine alloc (fun id id' hid => (Option.some.inj hid).symm) fun id c hc => ?_
  obtain ⟨e, he, rfl | rfl⟩ := Value.mem_children_map.1 hc
  · exact h.keys e he
  · exact h.values e he

end Leads

end Heap

/-- Objects of one identity in some values are one object, with the same contents. -/
def Coherent (vs : List Value) : Prop :=
  ∀ v ∈ vs, ∀ w ∈ vs, ∀ x y : Value, x.Within v → y.Within w →
    ∀ id, x.ident? = some id → y.ident? = some id → x = y

/-- The heap of just the objects in some values. -/
theorem Coherent.exists_heap {vs : List Value} (h : Coherent vs) :
    ∃ H : Heap, (∀ v ∈ vs, H.Holds v) ∧
      ∀ id x, H id = some x → x.ident? = some id ∧ ∃ v ∈ vs, x.Within v := by
  classical
  let names (id : Ident) (x : Value) : Prop := x.ident? = some id ∧ ∃ v ∈ vs, x.Within v
  let H : Heap := fun id => if hid : ∃ x, names id x then some hid.choose else none
  have hnamed (id : Ident) (x : Value) (hx : H id = some x) : names id x := by
    by_cases hid : ∃ x, names id x
    · have heq : some hid.choose = some x := (dif_pos hid).symm.trans hx
      rw [← Option.some.inj heq]
      exact hid.choose_spec
    · cases (dif_neg hid).symm.trans hx
  refine ⟨H, fun v hv x hx id hid => ?_, hnamed⟩
  have hex : ∃ x, names id x := ⟨x, hid, v, hv, hx⟩
  have hH : H id = some hex.choose := dif_pos hex
  obtain ⟨hid', w, hw, hy⟩ := hex.choose_spec
  rw [hH, h v hv w hw x _ hx hy id hid hid']

theorem coherent_iff_held {vs : List Value} :
    Coherent vs ↔ ∃ H : Heap, ∀ v ∈ vs, H.Holds v := by
  constructor
  · intro h
    obtain ⟨H, hholds, -⟩ := h.exists_heap
    exact ⟨H, hholds⟩
  · rintro ⟨H, hholds⟩ v hv w hw x y hx hy id hid hid'
    have hxid : H id = some x := hholds v hv x hx id hid
    have hyid : H id = some y := hholds w hw y hy id hid'
    exact Option.some.inj (hxid.symm.trans hyid)

end Amend
