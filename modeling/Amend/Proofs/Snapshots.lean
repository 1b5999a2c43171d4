import Amend.Json.Writer
import Amend.Proofs.Plain

/-!
# Freezing and thawing as copying

Freezing and thawing are one recursion, `Value.copyAs`, with other kinds of containers to copy to.
A copy of a copy does not show the kinds of the first one (`copyAs_copyAs`), and as every container
is made anew in the same order, it is the very value that a copy of the source would have been,
identities included. Main statement (`freeze_thaw_inverse`): freezing and thawing undo each other up
to kinds. A JSON text is written of a thawed copy, so nothing that takes part in it can tell whether
the value was frozen, not even a function or a class of the caller's.
-/

namespace Amend

namespace Value

mutual

/-- A copy in which sequences and mappings are of the given kinds. -/
def copyAs (seq : SeqKind) (map : MapKind) : Value → Making Value
  | .map _ _ es => do
    let es ← copyEntriesAs seq map es
    return .map (← Making.fresh) map es
  | .seq _ _ xs => do
    let xs ← copyItemsAs seq map xs
    return .seq (← Making.fresh) seq xs
  | v => pure v
termination_by structural v => v

def copyItemsAs (seq : SeqKind) (map : MapKind) : List Value → Making (List Value)
  | [] => pure []
  | v :: vs => do return (← copyAs seq map v) :: (← copyItemsAs seq map vs)
termination_by structural vs => vs

def copyEntriesAs (seq : SeqKind) (map : MapKind) :
    List (Key × Value) → Making (List (Key × Value))
  | [] => pure []
  | (k, v) :: es => do return (k, ← copyAs seq map v) :: (← copyEntriesAs seq map es)
termination_by structural es => es

end

mutual

theorem freeze_eq_copyAs : ∀ v : Value, v.freeze = v.copyAs (.tuple .plain) .readOnly
  | .map id kind es => by rw [freeze, copyAs, freezeEntries_eq_copyAs es]
  | .seq id kind xs => by rw [freeze, copyAs, freezeItems_eq_copyAs xs]
  | .none | .bool _ | .int _ | .float _ | .text _ | .bytes .. | .buffer .. | .range .. | .set ..
  | .frozenSet .. | .deque .. | .factory .. | .runner .. => rfl

theorem freezeItems_eq_copyAs : ∀ xs : List Value,
    freezeItems xs = copyItemsAs (.tuple .plain) .readOnly xs
  | [] => rfl
  | x :: xs => by rw [freezeItems, copyItemsAs, freeze_eq_copyAs x, freezeItems_eq_copyAs xs]

theorem freezeEntries_eq_copyAs : ∀ es : List (Key × Value),
    freezeEntries es = copyEntriesAs (.tuple .plain) .readOnly es
  | [] => rfl
  | (k, v) :: es => by
    rw [freezeEntries, copyEntriesAs, freeze_eq_copyAs v, freezeEntries_eq_copyAs es]

end

mutual

theorem thaw_eq_copyAs : ∀ v : Value, v.thaw = v.copyAs .list .plain
  | .map id kind es => by rw [thaw, copyAs, thawEntries_eq_copyAs es]
  | .seq id kind xs => by rw [thaw, copyAs, thawItems_eq_copyAs xs]
  | .none | .bool _ | .int _ | .float _ | .text _ | .bytes .. | .buffer .. | .range .. | .set ..
  | .frozenSet .. | .deque .. | .factory .. | .runner .. => rfl

theorem thawItems_eq_copyAs : ∀ xs : List Value, thawItems xs = copyItemsAs .list .plain xs
  | [] => rfl
  | x :: xs => by rw [thawItems, copyItemsAs, thaw_eq_copyAs x, thawItems_eq_copyAs xs]

theorem thawEntries_eq_copyAs : ∀ es : List (Key × Value),
    thawEntries es = copyEntriesAs .list .plain es
  | [] => rfl
  | (k, v) :: es => by
    rw [thawEntries, copyEntriesAs, thaw_eq_copyAs v, thawEntries_eq_copyAs es]

end

section
variable (seq seq' : SeqKind) (map map' : MapKind)

mutual

/-- A copy of a copy is a copy of the source. Both make their containers in one order, so from one
identity on they even make the same objects. -/
theorem copyAs_copyAs : ∀ (v : Value) (next next' : Ident),
    (v.copyAs seq map next).1.copyAs seq' map' next' = v.copyAs seq' map' next'
  | .map id kind es, next, next' => by
    have hes := copyEntriesAs_copyEntriesAs es next next'
    simp only [copyAs, Making.bind_apply, Making.pure_apply, hes]
  | .seq id kind xs, next, next' => by
    have hxs := copyItemsAs_copyItemsAs xs next next'
    simp only [copyAs, Making.bind_apply, Making.pure_apply, hxs]
  | .none, _, _ | .bool _, _, _ | .int _, _, _ | .float _, _, _ | .text _, _, _ | .bytes .., _, _
  | .buffer .., _, _ | .range .., _, _ | .set .., _, _ | .frozenSet .., _, _ | .deque .., _, _
  | .factory .., _, _ | .runner .., _, _ => rfl

theorem copyItemsAs_copyItemsAs : ∀ (xs : List Value) (next next' : Ident),
    copyItemsAs seq' map' (copyItemsAs seq map xs next).1 next' = copyItemsAs seq' map' xs next'
  | [], _, _ => rfl
  | x :: xs, next, next' => by
    have hx := copyAs_copyAs x next next'
    have hxs := copyItemsAs_copyItemsAs xs (x.copyAs seq map next).2
    simp only [copyItemsAs, Making.bind_apply, Making.pure_apply, hx, hxs]

theorem copyEntriesAs_copyEntriesAs : ∀ (es : List (Key × Value)) (next next' : Ident),
    copyEntriesAs seq' map' (copyEntriesAs seq map es next).1 next' =
      copyEntriesAs seq' map' es next'
  | [], _, _ => rfl
  | (k, v) :: es, next, next' => by
    have hv := copyAs_copyAs v next next'
    have hes := copyEntriesAs_copyEntriesAs es (v.copyAs seq map next).2
    simp only [copyEntriesAs, Making.bind_apply, Making.pure_apply, hv, hes]

end

end

mutual

/-- Whether the mappings and sequences of a value are of the writable plain kinds. -/
def isWritable : Value → Bool
  | .seq _ kind xs => kind = .list && allWritable xs
  | .map _ kind es => kind = .plain && entriesWritable es
  | _ => true
termination_by structural v => v

def allWritable : List Value → Bool
  | [] => true
  | v :: vs => isWritable v && allWritable vs
termination_by structural vs => vs

def entriesWritable : List (Key × Value) → Bool
  | [] => true
  | (_, v) :: es => isWritable v && entriesWritable es
termination_by structural es => es

end

section
variable {id : Ident}

theorem allWritable_iff {xs : List Value} : allWritable xs ↔ ∀ x ∈ xs, x.isWritable := by
  induction xs with
  | nil => simp [allWritable]
  | cons x xs ih => simp [allWritable, ih]

theorem entriesWritable_iff {es : List (Key × Value)} :
    entriesWritable es ↔ ∀ e ∈ es, e.2.isWritable := by
  induction es with
  | nil => simp [entriesWritable]
  | cons e es ih => simp [entriesWritable, ih]

theorem isWritable_seq {kind : SeqKind} {xs : List Value} :
    (Value.seq id kind xs).isWritable ↔ kind = .list ∧ ∀ x ∈ xs, x.isWritable := by
  rw [isWritable, Bool.and_eq_true, decide_eq_true_iff, allWritable_iff]

theorem isWritable_map {kind : MapKind} {es : Entries Value} :
    (Value.map id kind es).isWritable ↔ kind = .plain ∧ ∀ e ∈ es, e.2.isWritable := by
  rw [isWritable, Bool.and_eq_true, decide_eq_true_iff, entriesWritable_iff]

end

/-- The values that thawing gives no other shape are those of the writable plain kinds. -/
theorem plain_eq_shape_iff (v : Value) : v.plain = v.shape ↔ v.isWritable := by
  induction v using holding with
  | seq id kind xs ih =>
    have hitems : xs.map plain = xs.map shape ↔ ∀ x ∈ xs, x.isWritable := by
      rw [List.map_inj_left]
      exact forall₂_congr ih
    rw [plain_seq, shape_seq, isWritable_seq, ← hitems]
    simp [eq_comm]
  | map id kind es ih =>
    have hentries : Entries.mapValues plain es = Entries.mapValues shape es ↔
        ∀ e ∈ es, e.2.isWritable := by
      simp only [Entries.mapValues, List.map_inj_left, Prod.mk.injEq, true_and]
      exact forall₂_congr ih
    rw [plain_map, shape_map, isWritable_map, ← hentries]
    simp [eq_comm]
  | deque id xs => exact ⟨fun _ => rfl, fun _ => rfl⟩
  | atom v h => rw [plain_of_isAtom h, shape_of_isAtom h]; cases v <;> simp_all [isAtom, isWritable]

end Value

/-- Freezing and thawing undo each other up to the kinds of containers, and to write a frozen copy
as JSON is, under any options, the very computation that it is to write the value itself. -/
theorem freeze_thaw_inverse [Host] (v : Value) (next next' : Ident) :
    (v.freeze next).1.thaw next' = v.thaw next' ∧
    (v.thaw next).1.freeze next' = v.freeze next' ∧
    (v.freeze next).1.freeze next' = v.freeze next' ∧
    (v.thaw next).1.thaw next' = v.thaw next' ∧
    ((v.thaw next).1.shape = v.shape ↔ v.isWritable) ∧
    ∀ args, toJson args (v.freeze next).1 = toJson args v := by
  have hplain : (v.thaw next).1.shape = v.shape ↔ v.isWritable := by
    rw [Value.shape_thaw, Value.plain_eq_shape_iff]
  have hthaw : ∀ next', (v.freeze next).1.thaw next' = v.thaw next' := by
    intro next'
    rw [Value.freeze_eq_copyAs, Value.thaw_eq_copyAs, Value.thaw_eq_copyAs]
    exact Value.copyAs_copyAs _ _ _ _ v next next'
  have hjson : ∀ args, toJson args (v.freeze next).1 = toJson args v := by
    intro args
    unfold toJson
    rw [funext hthaw]
  refine ⟨hthaw next', ?_, ?_, ?_, hplain, hjson⟩ <;>
    simp only [Value.freeze_eq_copyAs, Value.thaw_eq_copyAs] <;>
    exact Value.copyAs_copyAs _ _ _ _ v next next'

end Amend
