import Amend.Proofs.Children

/-!
# Shapes of values

`Value.shape` forgets which objects the sequences and mappings of a value are, and keeps the rest:
kinds, order, keys, scalars. Reading and writing copies of one level goes along with it
(`Scratch.ofContainer_shape`, `Scratch.child_shape`, `Scratch.assign_shape`).
-/

namespace Amend

namespace Entries
variable {α β : Type} {f : α → β} {k : Key} {a : α} {es new : Entries α}

/-- Applies a function to the values, at the same keys. -/
def mapValues (f : α → β) (es : Entries α) : Entries β := es.map fun e => (e.1, f e.2)

theorem sizeOf_snd_lt [SizeOf α] {e : Key × α} (he : e ∈ es) : sizeOf e.2 < sizeOf es := by
  have hes := List.sizeOf_lt_of_mem he
  obtain ⟨k, a⟩ := e
  rw [Prod.mk.sizeOf_spec] at hes
  exact Nat.lt_of_le_of_lt (Nat.le_add_left _ _) hes

theorem mapValues_mapValues {γ : Type} {g : β → γ} :
    mapValues g (mapValues f es) = es.mapValues fun a => g (f a) := by
  rw [mapValues, mapValues, List.map_map]
  rfl

theorem mapValues_congr {g : α → β} (h : ∀ e ∈ es, f e.2 = g e.2) :
    es.mapValues f = es.mapValues g :=
  List.map_congr_left fun e he => congrArg (e.1, ·) (h e he)

theorem find?_mapValues : (es.mapValues f).find? k = (es.find? k).map f := by
  induction es with
  | nil => rfl
  | cons e es ih =>
    obtain ⟨l, a⟩ := e
    by_cases h : l.Same k
    · simp [mapValues, find?, h]
    · simpa [mapValues, find?, h] using ih

theorem put_mapValues : put k (f a) (es.mapValues f) = (put k a es).mapValues f := by
  induction es with
  | nil => rfl
  | cons e es ih =>
    obtain ⟨l, a'⟩ := e
    by_cases h : l.Same k
    · simp [mapValues, put, h]
    · simpa [mapValues, put, h] using ih

theorem fill_mapValues : fill k (f a) (es.mapValues f) = (fill k a es).mapValues f := by
  unfold fill has
  rw [find?_mapValues, Option.isSome_map]
  split
  · rfl
  · simp [mapValues]

theorem putAll_mapValues :
    putAll (mapValues f es) (mapValues f new) = mapValues f (putAll es new) := by
  induction new generalizing es with
  | nil => rfl
  | cons e new ih =>
    change putAll (put e.1 (f e.2) (mapValues f es)) (mapValues f new) = _
    rw [put_mapValues, ih]
    rfl

theorem fillAll_mapValues :
    fillAll (mapValues f es) (mapValues f new) = mapValues f (fillAll es new) := by
  induction new generalizing es with
  | nil => rfl
  | cons e new ih =>
    change fillAll (fill e.1 (f e.2) (mapValues f es)) (mapValues f new) = _
    rw [fill_mapValues, ih]
    rfl

end Entries

namespace Value

/-- Whether a value holds no other values: it is no sequence, mapping or queue. -/
def isAtom : Value → Bool
  | .seq .. | .map .. | .deque .. => false
  | _ => true

/-- Induction along the values that a value holds. -/
@[elab_as_elim]
theorem holding {P : Value → Prop} (seq : ∀ id kind xs, (∀ x ∈ xs, P x) → P (.seq id kind xs))
    (map : ∀ id kind es, (∀ e ∈ es, P e.2) → P (.map id kind es))
    (deque : ∀ id xs, (∀ x ∈ xs, P x) → P (.deque id xs)) (atom : ∀ v, v.isAtom → P v) :
    ∀ v : Value, P v
  | .seq id kind xs => seq id kind xs fun x _ => holding seq map deque atom x
  | .map id kind es => map id kind es fun e he =>
    have := Entries.sizeOf_snd_lt he
    holding seq map deque atom e.2
  | .deque id xs => deque id xs fun x _ => holding seq map deque atom x
  | .none | .bool _ | .int _ | .float _ | .text _ | .bytes .. | .buffer .. | .range .. | .set ..
  | .frozenSet .. | .factory .. | .runner .. => atom _ rfl
termination_by v => sizeOf v

mutual

/-- A value without the identities of its sequences and mappings. -/
def shape : Value → Value
  | .deque id xs => .deque id (shapes xs)
  | .seq _ kind xs => .seq 0 kind (shapes xs)
  | .map _ kind es => .map 0 kind (entryShapes es)
  | v => v
termination_by structural v => v

def shapes : List Value → List Value
  | [] => []
  | v :: vs => v.shape :: shapes vs
termination_by structural vs => vs

/-- The shapes of the values of some entries, at the same keys. -/
def entryShapes : List (Key × Value) → List (Key × Value)
  | [] => []
  | (k, v) :: es => (k, v.shape) :: entryShapes es
termination_by structural es => es

end

theorem shapes_eq_map (xs : List Value) : shapes xs = xs.map shape := by
  induction xs with
  | nil => rfl
  | cons x xs ih => rw [shapes, ih, List.map_cons]

theorem entryShapes_eq_mapValues (es : Entries Value) :
    entryShapes es = es.mapValues shape := by
  induction es with
  | nil => rfl
  | cons e es ih => rw [entryShapes, ih]; rfl

section
variable {id : Ident} {v : Value}

theorem shape_seq {kind : SeqKind} {xs : List Value} :
    (Value.seq id kind xs).shape = .seq 0 kind (xs.map shape) := by
  rw [shape, shapes_eq_map]

theorem shape_map {kind : MapKind} {es : Entries Value} :
    (Value.map id kind es).shape = .map 0 kind (es.mapValues shape) := by
  rw [shape, entryShapes_eq_mapValues]

theorem shape_deque {xs : List Value} : (Value.deque id xs).shape = .deque id (xs.map shape) := by
  rw [shape, shapes_eq_map]

theorem shape_of_isAtom (h : v.isAtom) : v.shape = v := by
  cases v <;> first | rfl | cases h

theorem shape_shape (v : Value) : v.shape.shape = v.shape := by
  induction v using holding with
  | seq id kind xs ih =>
    rw [shape_seq, shape_seq, List.map_map]
    exact congrArg _ (List.map_congr_left ih)
  | map id kind es ih =>
    rw [shape_map, shape_map, Entries.mapValues_mapValues]
    exact congrArg _ (Entries.mapValues_congr ih)
  | deque id xs ih =>
    rw [shape_deque, shape_deque, List.map_map]
    exact congrArg _ (List.map_congr_left ih)
  | atom v h => rw [shape_of_isAtom h, shape_of_isAtom h]

theorem mapValues_shape_shape (es : Entries Value) :
    (es.mapValues shape).mapValues shape = es.mapValues shape := by
  rw [Entries.mapValues_mapValues]
  exact Entries.mapValues_congr fun e _ => shape_shape e.2

@[simp] theorem kind_shape : v.shape.kind = v.kind := by
  cases v <;> rfl

@[simp] theorem isContainer_shape : v.shape.isContainer = v.isContainer := by
  cases v <;> rfl

@[simp] theorem truthy_shape : v.shape.truthy = v.truthy := by
  cases v with
  | deque => rw [shape_deque]; simp [truthy]
  | seq => rw [shape_seq]; simp [truthy]
  | map => rw [shape_map]; simp [truthy, Entries.mapValues]
  | _ => rfl

@[simp] theorem seqKindOf_shape {kind : SeqKind} : v.shape.seqKindOf kind = v.seqKindOf kind := by
  cases v with
  | seq id k xs => rcases k with - | - | (- | - | -) <;> rfl
  | _ => rfl

@[simp] theorem mapKindOf_shape {kind : MapKind} : v.shape.mapKindOf kind = v.mapKindOf kind := by
  cases v with
  | map id k es => cases k <;> rfl
  | _ => rfl

end

end Value

theorem Range.items_shape [Machine] (r : Range) : r.items.map (List.map Value.shape) = r.items := by
  unfold Range.items
  rcases Storage.reserveItems r.length with fault | u
  · rfl
  · change Except.ok ((r.terms.map .int).map Value.shape) = Except.ok (r.terms.map .int)
    rw [List.map_map]
    rfl

namespace Scratch
variable {s : Scratch} {k : Key} {v : Value} {command : Command}

def shape : Scratch → Scratch
  | .items kind xs => .items kind (xs.map Value.shape)
  | .entries kind es => .entries kind (es.mapValues Value.shape)

theorem ofContainer_shape [Machine] : ofContainer v.shape = (ofContainer v).map shape := by
  cases v with
  | range id r =>
    have := r.items_shape
    simp only [Value.shape, ofContainer]
    rcases hr : r.items with fault | xs
    · rfl
    · rw [hr] at this
      change _ = Except.ok (Scratch.items .list (xs.map Value.shape))
      rw [Except.ok.inj this]
      rfl
  | deque => rw [Value.shape_deque]; rfl
  | seq => rw [Value.shape_seq]; rfl
  | map => rw [Value.shape_map]; rfl
  | _ => rfl

theorem ofSequence_shape [Machine] :
    ofSequence command v.shape =
      (ofSequence command v).map (Prod.map id (List.map Value.shape)) := by
  cases v with
  | range id r =>
    have := r.items_shape
    simp only [Value.shape, ofSequence]
    rcases hr : r.items with fault | xs
    · rfl
    · rw [hr] at this
      change _ = Except.ok (SeqKind.list, xs.map Value.shape)
      rw [Except.ok.inj this]
      rfl
  | deque => rw [Value.shape_deque]; rfl
  | seq id kind xs => rw [Value.shape_seq]; cases kind <;> rfl
  | _ => rfl

theorem ofMapping_shape :
    ofMapping command v.shape =
      (ofMapping command v).map (Prod.map id (Entries.mapValues Value.shape)) := by
  cases v with
  | map => rw [Value.shape_map]; rfl
  | _ => rfl

/-- A copy with functions applied to its kind and to its children. -/
def mapWith (f : SeqKind → SeqKind) (g : MapKind → MapKind) (h : Value → Value) :
    Scratch → Scratch
  | .items kind xs => .items (f kind) (xs.map h)
  | .entries kind es => .entries (g kind) (es.mapValues h)

section
variable {f : SeqKind → SeqKind} {g : MapKind → MapKind} {h : Value → Value}

theorem shape_eq_mapWith : s.shape = s.mapWith id id Value.shape := by
  cases s <;> rfl

theorem child_mapWith (hnone : h .none = .none) :
    (s.mapWith f g h).child k = (s.child k).map h := by
  cases s with
  | items kind xs =>
    simp only [mapWith, child, List.length_map]
    rcases k.position? with - | position
    · rfl
    · change Except.ok _ = Except.ok _
      rcases Position.index? xs.length position with - | i
      · exact congrArg _ hnone.symm
      · rw [Option.bind_some, Option.bind_some, List.getElem?_map]
        rcases xs[i]? with - | x
        · exact congrArg _ hnone.symm
        · rfl
  | entries kind es =>
    simp only [mapWith, child, Entries.find?_mapValues]
    rcases es.find? k with - | x
    · exact congrArg _ hnone.symm
    · rfl

theorem assign_mapWith :
    (s.mapWith f g h).assign k (h v) = (s.assign k v).map (mapWith f g h) := by
  cases s with
  | items kind xs =>
    simp only [mapWith, assign, List.length_map]
    rcases k.position? with - | position
    · rfl
    · dsimp only
      rcases Position.index? xs.length position with - | i
      · rfl
      · change Except.ok _ = Except.ok (Scratch.items (f kind) ((xs.set i v).map h))
        rw [List.map_set]
  | entries kind es =>
    change Except.ok _ = Except.ok (Scratch.entries (g kind) ((es.put k v).mapValues h))
    rw [← Entries.put_mapValues]

end

theorem child_shape : s.shape.child k = (s.child k).map Value.shape := by
  rw [shape_eq_mapWith, child_mapWith rfl]

theorem assign_shape : s.shape.assign k v.shape = (s.assign k v).map shape := by
  rw [shape_eq_mapWith, assign_mapWith, funext fun s => shape_eq_mapWith (s := s)]

end Scratch

end Amend
