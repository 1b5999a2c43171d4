import Amend.Proofs.Actions
import Amend.Proofs.Plain
import Amend.Proofs.Simulation

/-!
# Operands without points

`Value.lacksPoints` says that there are no points anywhere in a value, also as keys and as members
of sets, where `Value.isPointFree` asks only for the values that it holds. Main statement
(`Action.writes_of_isNeutral`): a command whose operand lacks points writes none, not even a merge,
which may take the keys of a mapping or the members of a set for values.
-/

namespace Amend

namespace Key

mutual

/-- Whether none of the fixed sequences in a key is a point. -/
def lacksPoints : Key → Bool
  | .tuple _ kind ks => kind ≠ .point && allLackPoints ks
  | .frozenSet _ ks => allLackPoints ks
  | _ => true
termination_by structural k => k

def allLackPoints : List Key → Bool
  | [] => true
  | k :: ks => lacksPoints k && allLackPoints ks
termination_by structural ks => ks

end

theorem allLackPoints_iff {ks : List Key} : allLackPoints ks ↔ ∀ k ∈ ks, k.lacksPoints := by
  induction ks with
  | nil => simp [allLackPoints]
  | cons k ks ih => simp [allLackPoints, ih]

end Key

namespace Value

mutual

/-- Whether none of the sequences in a value is a point, and none of its keys and members of sets
has one. -/
def lacksPoints : Value → Bool
  | .seq _ kind xs => kind ≠ .tuple .point && allLackPoints xs
  | .map _ _ es => entriesLackPoints es
  | .deque _ xs => allLackPoints xs
  | .set _ ks | .frozenSet _ ks => Key.allLackPoints ks
  | _ => true
termination_by structural v => v

def allLackPoints : List Value → Bool
  | [] => true
  | v :: vs => lacksPoints v && allLackPoints vs
termination_by structural vs => vs

def entriesLackPoints : List (Key × Value) → Bool
  | [] => true
  | (k, v) :: es => k.lacksPoints && lacksPoints v && entriesLackPoints es
termination_by structural es => es

end

variable {v : Value} {xs : List Value}

theorem allLackPoints_iff : allLackPoints xs ↔ ∀ x ∈ xs, x.lacksPoints := by
  induction xs with
  | nil => simp [allLackPoints]
  | cons x xs ih => simp [allLackPoints, ih]

theorem entriesLackPoints_iff {es : List (Key × Value)} :
    entriesLackPoints es ↔ ∀ e ∈ es, e.1.lacksPoints ∧ e.2.lacksPoints := by
  induction es with
  | nil => simp [entriesLackPoints]
  | cons e es ih => simp [entriesLackPoints, ih]

theorem lacksPoints_seq {id : Ident} {kind : SeqKind} :
    (Value.seq id kind xs).lacksPoints ↔ kind ≠ .tuple .point ∧ ∀ x ∈ xs, x.lacksPoints := by
  rw [lacksPoints, Bool.and_eq_true, decide_eq_true_iff, allLackPoints_iff]

theorem isPointFree_of_lacksPoints (h : v.lacksPoints) : v.isPointFree := by
  induction v using holding with
  | seq id kind xs ih =>
    obtain ⟨hkind, hxs⟩ := lacksPoints_seq.1 h
    exact isPointFree_seq.2 ⟨hkind, fun x hx => ih x hx (hxs x hx)⟩
  | map id kind es ih =>
    exact isPointFree_map.2 fun e he => ih e he (entriesLackPoints_iff.1 h e he).2
  | deque id xs ih => exact isPointFree_deque.2 fun x hx => ih x hx (allLackPoints_iff.1 h x hx)
  | atom v hatom => cases v <;> first | rfl | cases hatom

mutual

theorem lacksPoints_toValue : ∀ k : Key, k.lacksPoints → k.toValue.lacksPoints
  | .tuple id kind ks, h => by
    simp only [Key.lacksPoints, Bool.and_eq_true, decide_eq_true_iff] at h
    obtain ⟨hkind, hks⟩ := h
    exact lacksPoints_seq.2 ⟨fun h' => hkind (SeqKind.tuple.inj h'), lackPoints_toValues ks hks⟩
  | .none, h | .bool _, h | .int _, h | .float _, h | .text _, h | .bytes .., h | .range .., h
  | .frozenSet .., h | .factory .., h | .runner .., h => h

theorem lackPoints_toValues : ∀ ks : List Key, Key.allLackPoints ks →
    ∀ x ∈ Key.toValues ks, x.lacksPoints
  | [], _ => List.forall_mem_nil _
  | k :: ks, h => by
    obtain ⟨hk, hks⟩ := Bool.and_eq_true_iff.1 h
    exact List.forall_mem_cons.2 ⟨lacksPoints_toValue k hk, lackPoints_toValues ks hks⟩

end

theorem lackPoints_elements (h : v.lacksPoints) (hxs : v.elements? = some xs) :
    ∀ x ∈ xs, x.lacksPoints := by
  have hkeys {ks : List Key} (hks : Key.allLackPoints ks) :
      ∀ x ∈ ks.map Key.toValue, x.lacksPoints := by
    intro x hx
    obtain ⟨k, hk, rfl⟩ := List.mem_map.1 hx
    exact lacksPoints_toValue k (Key.allLackPoints_iff.1 hks k hk)
  cases v with
  | text | bytes | buffer | range =>
    cases hxs
    intro x hx
    obtain ⟨-, -, rfl⟩ := List.mem_map.1 hx
    rfl
  | set id ks | frozenSet id ks =>
    cases hxs
    exact hkeys h
  | deque id ys =>
    cases hxs
    exact allLackPoints_iff.1 h
  | seq id kind ys =>
    cases hxs
    exact (lacksPoints_seq.1 h).2
  | map id kind es =>
    cases hxs
    intro x hx
    obtain ⟨e, he, rfl⟩ := List.mem_map.1 hx
    exact lacksPoints_toValue e.1 (entriesLackPoints_iff.1 h e he).1
  | _ => cases hxs

end Value

namespace Merge
variable {element operand : Value} {e : Key × Value} {es : Entries Value} {ordered : Bool}

theorem orderedEntry_of_entry [Machine] {position : Nat} (h : entry position element = .ok e) :
    orderedEntry element = .ok e := by
  rw [entry, element.elementCount?_eq] at h
  rw [orderedEntry]
  rw [element.firstElements?_eq] at h ⊢
  generalize element.elements? = found at h ⊢
  rcases found with - | xs
  · cases h
  change (Storage.reserveItems xs.length >>= fun _ => _) = Except.ok e at h
  rcases hroom : Storage.reserveItems xs.length with fault | room <;> rw [hroom] at h
  · cases h
  rcases xs with - | ⟨x, - | ⟨y, - | ⟨z, rest⟩⟩⟩
  case cons.cons.nil => exact h
  all_goals cases h

theorem toValue_of_key {v : Value} {k : Key} (h : key v = .ok k) : k.toValue = v := by
  rcases hv : Key.ofValue v with refused | k' <;> rw [key, hv] at h <;> cases h
  exact Key.toValue_of_ofValue hv

/-- The key and the value of an entry are the two elements of what stands for it. -/
theorem elements?_of_orderedEntry (h : orderedEntry element = .ok e) :
    element.elements? = some [e.1.toValue, e.2] := by
  rw [orderedEntry, element.firstElements?_eq] at h
  rcases hxs : element.elements? with - | (- | ⟨k, - | ⟨v, - | ⟨w, rest⟩⟩⟩) <;> rw [hxs] at h
  case some.cons.cons.nil =>
    change (key k >>= fun k' => pure (k', v)) = Except.ok e at h
    rcases hkey : key k with fault | k' <;> rw [hkey] at h <;> cases h
    rw [toValue_of_key hkey]
  all_goals cases h

theorem lacksPoints_of_orderedEntry (hlacks : element.lacksPoints)
    (h : orderedEntry element = .ok e) : e.2.lacksPoints := by
  have hmem : e.2 ∈ [e.1.toValue, e.2] := List.mem_cons_of_mem _ (List.mem_singleton_self e.2)
  exact Value.lackPoints_elements hlacks (elements?_of_orderedEntry h) e.2 hmem

theorem lackPoints_candidates {xs : List Value} (hlacks : operand.lacksPoints)
    (h : candidates? operand = some xs) : ∀ x ∈ xs, x.lacksPoints := by
  cases operand with
  | range id r =>
    rw [candidates?, Value.firstElements?_eq] at h
    obtain ⟨ys, hys, rfl⟩ := Option.map_eq_some_iff.1 h
    exact fun x hx => Value.lackPoints_elements hlacks hys x (List.mem_of_mem_take hx)
  | map => cases h
  | _ => exact Value.lackPoints_elements hlacks h

theorem forall_of_mapM {α β : Type} {P : β → Prop} {f : α → Except Fault β} {xs : List α}
    {ys : List β} (hf : ∀ x ∈ xs, ∀ y, f x = .ok y → P y) (h : xs.mapM f = .ok ys) :
    ∀ y ∈ ys, P y := by
  induction xs generalizing ys with
  | nil =>
    cases h
    exact List.forall_mem_nil _
  | cons x xs ih =>
    obtain ⟨hx, hxs⟩ := List.forall_mem_cons.1 hf
    rw [List.mapM_cons] at h
    rcases hy : f x with fault | y <;> rw [hy] at h
    · cases h
    rcases hrest : xs.mapM f with fault | ys' <;> rw [hrest] at h <;> cases h
    exact List.forall_mem_cons.2 ⟨hx y hy, ih hxs hrest⟩

/-- What is merged lacks points if the operand does. -/
theorem lackPoints_of_entries [Machine] (hlacks : operand.lacksPoints)
    (h : entries ordered operand = .ok es) : ∀ e ∈ es, e.2.lacksPoints := by
  rcases hmap : operand.isMapping with - | -
  · rw [entries_of_not_isMapping hmap] at h
    rcases hxs : candidates? operand with - | xs <;> rw [hxs] at h
    · cases h
    refine forall_of_mapM (fun x hx e he => ?_) h
    have hx' := lackPoints_candidates hlacks hxs x.1 (List.fst_mem_of_mem_zipIdx hx)
    cases ordered
    · exact lacksPoints_of_orderedEntry hx' (orderedEntry_of_entry he)
    · exact lacksPoints_of_orderedEntry hx' he
  · cases operand with
    | map id kind new =>
      cases h
      exact fun e he => (Value.entriesLackPoints_iff.1 hlacks e he).2
    | _ => cases hmap

end Merge

/-- Whether the operand of an action lacks points, and it is no call of the function that names the
kind of the old value. -/
def Action.isNeutral : Action → Bool
  | .set operand | .push operand | .unshift operand | .merge operand | .defaults operand =>
    operand.lacksPoints
  | .call f arg => f ≠ .kind && arg.lacksPoints
  | .refuse _ => true

theorem Action.writes_of_isNeutral [Machine] {a : Action} (h : a.isNeutral) :
    a.Writes (·.isPointFree) := by
  cases a with
  | set | call | refuse => trivial
  | push operand | unshift operand => exact Value.isPointFree_of_lacksPoints h
  | merge operand =>
    intro ordered es hes e he
    exact Value.isPointFree_of_lacksPoints (Merge.lackPoints_of_entries h hes e he)
  | defaults operand =>
    cases operand with
    | map id kind es =>
      exact fun e he => Value.isPointFree_of_lacksPoints (Value.entriesLackPoints_iff.1 h e he).2
    | _ => trivial

end Amend
