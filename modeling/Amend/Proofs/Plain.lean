import Amend.Snapshot
import Amend.Proofs.Shape

/-!
# Values of the writable plain kinds

`Value.plain` is the shape that thawing gives a value (`shape_thaw`): mappings and sequences become
plain ones, and so a value and a frozen copy of it are told apart no more (`plain_freeze`).
`Value.isPointFree` says that a value holds none of the records that cannot be rebuilt with other
numbers of fields.
-/

namespace Amend

namespace Value

mutual

/-- The shape of a value with its mappings and sequences, but not its queues, of the writable plain
kinds. -/
def plain : Value → Value
  | .seq _ _ xs => .seq 0 .list (plains xs)
  | .map _ _ es => .map 0 .plain (entryPlains es)
  | v => v.shape
termination_by structural v => v

def plains : List Value → List Value
  | [] => []
  | v :: vs => v.plain :: plains vs
termination_by structural vs => vs

def entryPlains : List (Key × Value) → List (Key × Value)
  | [] => []
  | (k, v) :: es => (k, v.plain) :: entryPlains es
termination_by structural es => es

end

mutual

/-- Whether none of the sequences in a value is a point. -/
def isPointFree : Value → Bool
  | .seq _ kind xs => kind ≠ .tuple .point && allPointFree xs
  | .map _ _ es => entriesPointFree es
  | .deque _ xs => allPointFree xs
  | _ => true
termination_by structural v => v

def allPointFree : List Value → Bool
  | [] => true
  | v :: vs => isPointFree v && allPointFree vs
termination_by structural vs => vs

def entriesPointFree : List (Key × Value) → Bool
  | [] => true
  | (_, v) :: es => isPointFree v && entriesPointFree es
termination_by structural es => es

end

section
variable {id : Ident} {v : Value}

theorem plains_eq_map (xs : List Value) : plains xs = xs.map plain := by
  induction xs with
  | nil => rfl
  | cons x xs ih => rw [plains, ih, List.map_cons]

theorem entryPlains_eq_mapValues (es : Entries Value) :
    entryPlains es = es.mapValues plain := by
  induction es with
  | nil => rfl
  | cons e es ih => rw [entryPlains, ih]; rfl

theorem plain_seq {kind : SeqKind} {xs : List Value} :
    (Value.seq id kind xs).plain = .seq 0 .list (xs.map plain) := by
  rw [plain, plains_eq_map]

theorem plain_map {kind : MapKind} {es : Entries Value} :
    (Value.map id kind es).plain = .map 0 .plain (es.mapValues plain) := by
  rw [plain, entryPlains_eq_mapValues]

theorem isAtom_plain : v.plain.isAtom = v.isAtom := by
  cases v <;> rfl

theorem isContainer_plain : v.plain.isContainer = v.isContainer := by
  cases v <;> rfl

theorem truthy_plain : v.plain.truthy = v.truthy := by
  cases v with
  | seq => rw [plain_seq]; simp [truthy]
  | map => rw [plain_map]; simp [truthy, Entries.mapValues]
  | _ => exact truthy_shape

theorem allPointFree_iff {xs : List Value} : allPointFree xs ↔ ∀ x ∈ xs, x.isPointFree := by
  induction xs with
  | nil => simp [allPointFree]
  | cons x xs ih => simp [allPointFree, ih]

theorem entriesPointFree_iff {es : List (Key × Value)} :
    entriesPointFree es ↔ ∀ e ∈ es, e.2.isPointFree := by
  induction es with
  | nil => simp [entriesPointFree]
  | cons e es ih => simp [entriesPointFree, ih]

theorem isPointFree_seq {kind : SeqKind} {xs : List Value} :
    (Value.seq id kind xs).isPointFree ↔ kind ≠ .tuple .point ∧ ∀ x ∈ xs, x.isPointFree := by
  rw [isPointFree, Bool.and_eq_true, decide_eq_true_iff, allPointFree_iff]

theorem isPointFree_map {kind : MapKind} {es : Entries Value} :
    (Value.map id kind es).isPointFree ↔ ∀ e ∈ es, e.2.isPointFree := by
  rw [isPointFree, entriesPointFree_iff]

theorem isPointFree_deque {xs : List Value} :
    (Value.deque id xs).isPointFree ↔ ∀ x ∈ xs, x.isPointFree := by
  rw [isPointFree, allPointFree_iff]

end

theorem plain_of_isAtom {v : Value} (h : v.isAtom) : v.plain = v := by
  cases v <;> first | rfl | cases h

theorem plain_deque {id : Ident} {xs : List Value} :
    (Value.deque id xs).plain = .deque id (xs.map shape) := shape_deque

theorem plain_shape (v : Value) : v.shape.plain = v.plain := by
  induction v using holding with
  | seq id kind xs ih =>
    rw [shape_seq, plain_seq, plain_seq, List.map_map]
    exact congrArg _ (List.map_congr_left ih)
  | map id kind es ih =>
    rw [shape_map, plain_map, plain_map, Entries.mapValues_mapValues]
    exact congrArg _ (Entries.mapValues_congr ih)
  | deque id xs => exact shape_shape (.deque id xs)
  | atom v h => rw [shape_of_isAtom h]

theorem plain_plain (v : Value) : v.plain.plain = v.plain := by
  induction v using holding with
  | seq id kind xs ih =>
    rw [plain_seq, plain_seq, List.map_map]
    exact congrArg _ (List.map_congr_left ih)
  | map id kind es ih =>
    rw [plain_map, plain_map, Entries.mapValues_mapValues]
    exact congrArg _ (Entries.mapValues_congr ih)
  | deque id xs => exact plain_shape (.deque id xs)
  | atom v h => rw [plain_of_isAtom h, plain_of_isAtom h]

mutual

theorem shape_thaw : ∀ (v : Value) (next : Ident), (v.thaw next).1.shape = v.plain
  | .seq id kind xs, next => by
    rw [plain_seq, ← shapes_thawItems xs next]
    exact shape_seq
  | .map id kind es, next => by
    rw [plain_map, ← shapes_thawEntries es next]
    exact shape_map
  | .none, _ | .bool _, _ | .int _, _ | .float _, _ | .text _, _ | .bytes .., _ | .buffer .., _
  | .range .., _ | .set .., _ | .frozenSet .., _ | .deque .., _ | .factory .., _
  | .runner .., _ => rfl

theorem shapes_thawItems : ∀ (xs : List Value) (next : Ident),
    (thawItems xs next).1.map shape = xs.map plain
  | [], _ => rfl
  | x :: xs, next => by
    rw [List.map_cons, ← shape_thaw x next, ← shapes_thawItems xs (x.thaw next).2]
    rfl

theorem shapes_thawEntries : ∀ (es : List (Key × Value)) (next : Ident),
    Entries.mapValues shape (thawEntries es next).1 = Entries.mapValues plain es
  | [], _ => rfl
  | (k, v) :: es, next => by
    change _ = (k, v.plain) :: Entries.mapValues plain es
    rw [← shape_thaw v next, ← shapes_thawEntries es (v.thaw next).2]
    rfl

end

mutual

/-- How many objects thawing makes depends on the plain form alone. -/
theorem next_thaw_plain : ∀ (v : Value) (next : Ident), (v.plain.thaw next).2 = (v.thaw next).2
  | .seq _ _ xs, next => congrArg (· + 1) (next_thawItems_plains xs next)
  | .map _ _ es, next => congrArg (· + 1) (next_thawEntries_plains es next)
  | .none, _ | .bool _, _ | .int _, _ | .float _, _ | .text _, _ | .bytes .., _ | .buffer .., _
  | .range .., _ | .set .., _ | .frozenSet .., _ | .deque .., _ | .factory .., _
  | .runner .., _ => rfl

theorem next_thawItems_plains : ∀ (xs : List Value) (next : Ident),
    (thawItems (plains xs) next).2 = (thawItems xs next).2
  | [], _ => rfl
  | x :: xs, next => by
    change (thawItems (plains xs) (x.plain.thaw next).2).2 = (thawItems xs (x.thaw next).2).2
    rw [next_thaw_plain x next, next_thawItems_plains xs]

theorem next_thawEntries_plains : ∀ (es : List (Key × Value)) (next : Ident),
    (thawEntries (entryPlains es) next).2 = (thawEntries es next).2
  | [], _ => rfl
  | (k, v) :: es, next => by
    change (thawEntries (entryPlains es) (v.plain.thaw next).2).2 =
      (thawEntries es (v.thaw next).2).2
    rw [next_thaw_plain v next, next_thawEntries_plains es]

end

mutual

theorem plain_freeze : ∀ (v : Value) (next : Ident), (v.freeze next).1.plain = v.plain
  | .seq id kind xs, next => by
    rw [plain_seq, ← plains_freezeItems xs next]
    exact plain_seq
  | .map id kind es, next => by
    rw [plain_map, ← plains_freezeEntries es next]
    exact plain_map
  | .none, _ | .bool _, _ | .int _, _ | .float _, _ | .text _, _ | .bytes .., _ | .buffer .., _
  | .range .., _ | .set .., _ | .frozenSet .., _ | .deque .., _ | .factory .., _
  | .runner .., _ => rfl

theorem plains_freezeItems : ∀ (xs : List Value) (next : Ident),
    (freezeItems xs next).1.map plain = xs.map plain
  | [], _ => rfl
  | x :: xs, next => by
    rw [List.map_cons, ← plain_freeze x next, ← plains_freezeItems xs (x.freeze next).2]
    rfl

theorem plains_freezeEntries : ∀ (es : List (Key × Value)) (next : Ident),
    Entries.mapValues plain (freezeEntries es next).1 = Entries.mapValues plain es
  | [], _ => rfl
  | (k, v) :: es, next => by
    change _ = (k, v.plain) :: Entries.mapValues plain es
    rw [← plain_freeze v next, ← plains_freezeEntries es (v.freeze next).2]
    rfl

end

mutual

theorem isPointFree_freeze : ∀ (v : Value) (next : Ident), v.isPointFree →
    (v.freeze next).1.isPointFree
  | .seq id kind xs, next, h => by
    refine isPointFree_seq.2 ⟨fun hkind => ?_, ?_⟩
    · cases hkind
    · exact pointFree_freezeItems xs next (isPointFree_seq.1 h).2
  | .map id kind es, next, h =>
    isPointFree_map.2 (pointFree_freezeEntries es next (isPointFree_map.1 h))
  | .none, _, h | .bool _, _, h | .int _, _, h | .float _, _, h | .text _, _, h | .bytes .., _, h
  | .buffer .., _, h | .range .., _, h | .set .., _, h | .frozenSet .., _, h | .deque .., _, h
  | .factory .., _, h | .runner .., _, h => h

theorem pointFree_freezeItems : ∀ (xs : List Value) (next : Ident), (∀ x ∈ xs, x.isPointFree) →
    ∀ x ∈ (freezeItems xs next).1, x.isPointFree
  | [], _, _ => List.forall_mem_nil _
  | x :: xs, next, h => by
    obtain ⟨hx, hxs⟩ := List.forall_mem_cons.1 h
    exact List.forall_mem_cons.2
      ⟨isPointFree_freeze x next hx, pointFree_freezeItems xs (x.freeze next).2 hxs⟩

theorem pointFree_freezeEntries : ∀ (es : List (Key × Value)) (next : Ident),
    (∀ e ∈ es, e.2.isPointFree) → ∀ e ∈ (freezeEntries es next).1, e.2.isPointFree
  | [], _, _ => List.forall_mem_nil _
  | (k, v) :: es, next, h => by
    obtain ⟨hv, hes⟩ := List.forall_mem_cons.1 h
    exact List.forall_mem_cons.2
      ⟨isPointFree_freeze v next hv, pointFree_freezeEntries es (v.freeze next).2 hes⟩

end

end Value

end Amend
